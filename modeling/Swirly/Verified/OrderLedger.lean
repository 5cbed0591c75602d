import Swirly.Verified.App.Replay
import Swirly.Verified.App.Sound

/-!
# The ledger of an order

Every order is what its reports make of it: the first one creates it, each later one takes it a step further and shows
what it has come to.  Its executed lots and cost are those of its trades, and its lots never grow.
-/

namespace Swirly

open Function

/-- The lots of the trades among the reports. -/
def tradedLots (xs : List Exec) : Int := ((xs.filter fun x => x.state = .trade).map Exec.lastLots).sum

/-- What the trades among the reports have cost. -/
def tradedCost (xs : List Exec) : Int :=
  ((xs.filter fun x => x.state = .trade).map fun x => cost x.lastLots x.lastTicks).sum

namespace Order

variable {o o' : Order} {x : Exec} {xs ys : List Exec}

/-- The whole life of an order, from the report that creates it. -/
def Life (xs : List Exec) (o' : Order) : Prop :=
  ∃ o x rest, xs = x :: rest ∧ x.state = .new ∧ (∀ y ∈ rest, y.state ≠ .new) ∧ Replay o xs o'

theorem Life.append {o'' : Order} (life : Life xs o') (replay : o'.Replay ys o'') (others : ∀ y ∈ ys, y.state ≠ .new) :
    Life (xs ++ ys) o'' := by
  obtain ⟨o, x, rest, rfl, first, later, before⟩ := life
  refine ⟨o, x, rest ++ ys, rfl, first, List.forall_mem_append.mpr ⟨later, others⟩, before.append replay⟩

/-- The stamps of the reports play no part. -/
theorem Replay.unstamped (replay : o.Replay xs o') (same : ys.map Exec.unstamped = xs.map Exec.unstamped) :
    o.Replay ys o' := by
  induction replay generalizing ys with
  | nil =>
    rw [List.map_eq_nil_iff.mp same]
    exact .nil
  | @cons o _ x xs shows _ inductionHypothesis =>
    cases ys with
    | nil => cases same
    | cons y ys =>
      obtain ⟨sameFirst, same⟩ := List.cons.inj same
      have step : o.step y = o.step x := by rw [Exec.eq_posn sameFirst]; rfl
      refine .cons ?_ (by rw [step]; exact inductionHypothesis same)
      rw [step, Exec.eq_posn sameFirst]
      exact ⟨shows.accnt, shows.marketId, shows.instr, shows.settlDay, shows.orderId, shows.ref, shows.side, shows.lots,
        shows.state, shows.ticks, shows.resdLots, shows.execLots, shows.execCost, shows.lastLots, shows.lastTicks,
        shows.minLots⟩

theorem Life.unstamped (life : Life xs o') (same : ys.map Exec.unstamped = xs.map Exec.unstamped) : Life ys o' := by
  obtain ⟨o, x, rest, rfl, first, later, replay⟩ := life
  have replayed := replay.unstamped same
  cases ys with
  | nil => cases same
  | cons y ys =>
    obtain ⟨sameFirst, same⟩ := List.cons.inj same
    refine ⟨o, y, ys, rfl, ?_, fun z member => ?_, replayed⟩
    · rw [Exec.eq_posn sameFirst]
      exact first
    · have inside : z.unstamped ∈ rest.map Exec.unstamped := by
        rw [← show ys.map Exec.unstamped = rest.map Exec.unstamped from same]
        exact List.mem_map_of_mem member
      obtain ⟨w, listed, here⟩ := List.mem_map.mp inside
      rw [Exec.eq_posn here.symm]
      exact later w listed

/-- The trades add up to what the order has executed. -/
theorem Replay.traded (replay : o.Replay xs o') (others : ∀ x ∈ xs, x.state ≠ .new) :
    o'.execLots = o.execLots + tradedLots xs ∧ o'.execCost = o.execCost + tradedCost xs := by
  induction replay with
  | nil => simp [tradedLots, tradedCost]
  | @cons o _ x xs _ _ inductionHypothesis =>
    obtain ⟨notNew, others⟩ := List.forall_mem_cons.mp others
    obtain ⟨execLots, execCost⟩ := inductionHypothesis others
    rw [execLots, execCost]
    cases state : x.state with
    | new => exact absurd state notNew
    | trade =>
      simp only [step, state, tradedLots, tradedCost, List.filter_cons_of_pos (p := fun x : Exec => x.state = .trade) (by simpa using state)]
      simp only [trade, tradeSum, List.map_cons, List.sum_cons]
      omega
    | none | revise | cancel =>
      simp [step, state, tradedLots, tradedCost, revise, cancel]

theorem Life.traded (life : Life xs o') : o'.execLots = tradedLots xs ∧ o'.execCost = tradedCost xs := by
  obtain ⟨o, x, rest, rfl, first, later, replay⟩ := life
  cases replay with
  | cons _ replay =>
    obtain ⟨execLots, execCost⟩ := replay.traded later
    rw [execLots, execCost]
    simp [step, first, create, tradedLots, tradedCost]

/-- No report raises the lots above a bound that the order and the revisions keep. -/
theorem Replay.lots_le {most : Int} (replay : o.Replay xs o') (start : o.lots ≤ most)
    (revisions : ∀ x ∈ xs, x.state = .revise → x.lots ≤ most) : o'.lots ≤ most := by
  induction replay with
  | nil => exact start
  | @cons o _ x xs _ _ inductionHypothesis =>
    obtain ⟨first, revisions⟩ := List.forall_mem_cons.mp revisions
    refine inductionHypothesis ?_ revisions
    cases state : x.state with
    | revise => simpa [step, state, revise] using first state
    | none | new | cancel | trade => simpa [step, state, create, cancel, trade, tradeSum] using start

end Order

namespace App

variable {app app' : App} {op : Op} {p : OrderPtr} {news : List Exec} {es : List ExecPtr} {a : Symbol} {m now : Int}

/-- The reports of the order, the oldest first. -/
def reportsOn (app : App) (p : OrderPtr) : List Exec :=
  (app.execs.entries.map Prod.snd).filter fun x => x.Reports (app.order p)

/-- The new reports come after the old ones, which have at most another stamp. -/
theorem Filed.entries (filed : Filed app app' news es) :
    (app'.execs.entries.map Prod.snd).map Exec.unstamped =
      (app.execs.entries.map Prod.snd).map Exec.unstamped ++ news.map Exec.unstamped := by
  have entries := congrArg (fun s : Store Exec => s.entries.map Prod.snd) filed.execs
  simp only [OrdMap.map, List.map_map, Function.comp_def] at entries
  rw [← List.map_append, ← OrdMap.entries_allocs, List.map_map, List.map_map]
  exact entries

theorem filter_reports_unstamped (o : Order) (xs : List Exec) :
    (xs.filter fun x => x.Reports o).map Exec.unstamped = (xs.map Exec.unstamped).filter fun x => x.Reports o := by
  rw [List.filter_map]
  rfl

/-- The reports on an order after a call. -/
theorem Filed.reportsOn (filed : Filed app app' news es) (p : OrderPtr) :
    (app'.reportsOn p).map Exec.unstamped = (((app.execs.entries.map Prod.snd).filter fun x => x.Reports (app'.order p)) ++
      news.filter fun x => x.Reports (app'.order p)).map Exec.unstamped := by
  rw [App.reportsOn, filter_reports_unstamped, filed.entries, List.filter_append, List.map_append, filter_reports_unstamped,
    filter_reports_unstamped]

/-- The reports of a call are about the orders that it names with them. -/
theorem Told.filter_reports {start : OrderPtr → Order} {xs : List (Exec × OrderPtr)} (inv' : app'.Inv)
    (told : Told app start xs app') (present : (app'.heap.orders.find p).isSome) :
    (xs.map Prod.fst).filter (fun x => x.Reports (app'.order p)) = (xs.filter fun x => x.2 = p).map Prod.fst := by
  rw [List.filter_map]
  congr 1
  refine List.filter_congr fun x member => ?_
  have own : x.1.Reports (app'.order x.2) := told.replays.reports x member
  by_cases here : x.2 = p
  · simpa [here] using here ▸ own
  · have foreign : ¬ x.1.Reports (app'.order p) := fun reports =>
      here (inv'.ids.reports (told.present x member) present own reports)
    simpa [here] using foreign

/-- Every order has a whole life, and every report belongs to an order or was entered by hand. -/
structure Lives (app : App) : Prop where
  owned : ∀ x ∈ app.execs.entries.map Prod.snd, x.orderId = 0 ∨ ∃ p, (app.heap.orders.find p).isSome ∧ x.Reports (app.order p)
  life : ∀ p, (app.heap.orders.find p).isSome → Order.Life (app.reportsOn p) (app.plain p)

theorem lives_make (capacity maxExecs : Nat) : (App.make capacity maxExecs).Lives where
  owned _ member := by cases member
  life _ present := by cases present

/-- The same executions and orders. -/
theorem Lives.congr (lives : app.Lives) (unmoved : Unmoved app app')
    (entries : app'.execs.entries.map Prod.snd = app.execs.entries.map Prod.snd) : app'.Lives := by
  have reports : ∀ x : Exec, ∀ p, x.Reports (app'.order p) ↔ x.Reports (app.order p) := by
    intro x p
    show x.Reports (app'.plain p) ↔ x.Reports (app.plain p)
    rw [unmoved.plain]
  exact
    { owned := fun x member => by
        rw [entries] at member
        refine (lives.owned x member).imp_right fun some_order => ?_
        obtain ⟨p, present, own⟩ := some_order
        exact ⟨p, (unmoved.live p).trans present, (reports x p).mpr own⟩
      life := fun p present => by
        rw [unmoved.plain, App.reportsOn, entries]
        simp only [reports]
        exact lives.life p ((unmoved.live p).symm.trans present) }

/-- The orders after a call that files reports. -/
theorem Lives.filed (lives : app.Lives) (filed : Filed app app' news es)
    (kept : ∀ p, (app.heap.orders.find p).isSome → (app'.heap.orders.find p).isSome ∧ (app'.order p).Same (app.order p))
    (owned : ∀ x ∈ news, x.orderId = 0 ∨ ∃ p, (app'.heap.orders.find p).isSome ∧ x.Reports (app'.order p))
    (life : ∀ p, (app'.heap.orders.find p).isSome → Order.Life
      (((app.execs.entries.map Prod.snd).filter fun x => x.Reports (app'.order p)) ++
        news.filter fun x => x.Reports (app'.order p)) (app'.plain p)) : app'.Lives where
  owned x member := by
    have inside : x.unstamped ∈ (app'.execs.entries.map Prod.snd).map Exec.unstamped := List.mem_map_of_mem member
    rw [filed.entries] at inside
    cases List.mem_append.mp inside with
    | inl old =>
      obtain ⟨y, listed, same⟩ := List.mem_map.mp old
      rw [Exec.eq_posn same.symm]
      refine (lives.owned y listed).imp_right fun some_order => ?_
      obtain ⟨p, present, reports⟩ := some_order
      obtain ⟨live, same⟩ := kept p present
      exact ⟨p, live, reports.1.trans same.marketId.symm, reports.2.trans same.id.symm⟩
    | inr new =>
      obtain ⟨y, listed, same⟩ := List.mem_map.mp new
      rw [Exec.eq_posn same.symm]
      exact owned y listed
  life p present := (life p present).unstamped (filed.reportsOn p)

/-- The reports so far on an order that was there before. -/
theorem filter_reports_old {o : Order} (same : o.Same (app.order p)) :
    ((app.execs.entries.map Prod.snd).filter fun x => x.Reports o) = app.reportsOn p := by
  refine List.filter_congr fun x _ => decide_eq_decide.mpr ?_
  rw [Exec.Reports, same.marketId, same.id]
  rfl

/-- No report so far is about an order with a new id. -/
theorem Lives.filter_reports_new (inv : app.Inv) (lives : app.Lives) {o : Order} (new : o.id = app.view.maxId o.marketId + 1) :
    ((app.execs.entries.map Prod.snd).filter fun x => x.Reports o) = [] := by
  refine List.filter_eq_nil_iff.mpr fun x member reports => ?_
  obtain ⟨market, id⟩ : x.Reports o := of_decide_eq_true reports
  have nonneg := inv.ids.nonneg o.marketId
  cases lives.owned x member with
  | inl foreign => omega
  | inr some_order =>
    obtain ⟨p, present, own⟩ := some_order
    have bounded : (app.order p).id ≤ app.view.maxId (app.order p).marketId := inv.ids.bounded p present
    rw [← own.1, ← own.2, market, id, new] at bounded
    omega

/-- A new order and its matches are created once; all other reports of the call are trades. -/
theorem newMoves_trade {o : Order} {fs : List Fill} :
    ∀ x ∈ fs.flatMap (Fill.moves app.heap o now app.heap.orders.fresh), x.1.state = .trade := by
  intro x member
  obtain ⟨f, -, made⟩ := List.mem_flatMap.mp member
  cases List.mem_pair.mp made with
  | inl maker => rw [maker]; rfl
  | inr taker => rw [taker]; rfl

theorem mem_zip_reportsOf {change : Change} {h : Heap} {id : Int} {ps : List OrderPtr} {x : Exec × OrderPtr}
    (member : x ∈ (reportsOf h change now id ps).zip ps) :
    x.2 ∈ ps ∧ ∃ j, x.1 = change.report (.make (h.order x.2) j now) := by
  induction ps generalizing id with
  | nil => cases member
  | cons p ps inductionHypothesis =>
    rw [reportsOf, List.zip_cons_cons] at member
    cases List.mem_cons.mp member with
    | inl first =>
      rw [first]
      exact ⟨List.mem_cons_self, _, rfl⟩
    | inr later =>
      obtain ⟨listed, made⟩ := inductionHypothesis later
      exact ⟨List.mem_cons_of_mem _ listed, made⟩

theorem Lives.step (inv : app.Inv) (inv' : app'.Inv) (lives : app.Lives) (moves : Moves app op app') : app'.Lives := by
  cases moves with
  | still unmoved idle => exact lives.congr unmoved (by rw [idle.execs])
  | byHand unmoved filed foreign =>
    have same : ∀ p, (app'.order p).Same (app.order p) := fun p => Order.same_of_plain (congrFun unmoved.plain p)
    refine lives.filed filed (fun p present => ⟨(unmoved.live p).trans present, same p⟩)
      (fun x member => .inl (foreign x member)) fun p present => ?_
    have positive : 0 < (app'.order p).id := inv'.ids.positive p present
    have none_new : (_ : List Exec).filter (fun x => x.Reports (app'.order p)) = [] :=
      List.filter_eq_nil_iff.mpr fun x member reports => by
        have own : x.Reports (app'.order p) := of_decide_eq_true reports
        rw [← own.2, foreign x member] at positive
        exact lt_irrefl _ positive
    rw [filter_reports_old (same p), none_new, List.append_nil, unmoved.plain]
    exact lives.life p ((unmoved.live p).symm.trans present)
  | @created a m ref side lots ticks minLots now busDay o _ incoming live told =>
    obtain ⟨es, filed⟩ := told.filed
    obtain ⟨p₀, fresh⟩ : ∃ p₀, p₀ = app.heap.orders.fresh := ⟨_, rfl⟩
    have same : ∀ p, (app'.order p).Same (update app.plain p₀ o p) := fun p => by
      have same := fresh ▸ told.replays.same p
      exact ⟨same.accnt, same.marketId, same.id, same.ref, same.side, same.ticks⟩
    have old : ∀ p, p ≠ p₀ → (app'.order p).Same (app.order p) := fun p differ => by
      have same := same p
      rw [update_of_ne differ] at same
      exact ⟨same.accnt, same.marketId, same.id, same.ref, same.side, same.ticks⟩
    refine lives.filed filed (fun p present => ?_) (fun x member => ?_) fun p present => ?_
    · have differ : p ≠ p₀ := fresh ▸ OrdMap.ne_fresh present
      rw [live, Heap.find_newOrder, if_neg (fresh ▸ differ)]
      exact ⟨present, old p differ⟩
    · obtain ⟨y, listed, rfl⟩ := List.mem_map.mp member
      exact .inr ⟨y.2, told.present y listed, told.replays.reports y listed⟩
    · have replay := told.replays.single p
      rw [told.filter_reports inv' present]
      rw [← fresh] at replay
      by_cases here : p = p₀
      · have first : (newMoves app o now (app.incomingFills m o)).filter (fun x => x.2 = p) =
            (Exec.make o o.id now, p) ::
              ((app.incomingFills m o).flatMap (Fill.moves app.heap o now app.heap.orders.fresh)).filter fun x => x.2 = p := by
          rw [newMoves, ← fresh, List.filter_cons_of_pos (by simpa using here.symm), ← here]
        have start : update app.plain p₀ o p = o := by rw [here, update_self]
        rw [start] at replay
        have new : (app'.order p).id = app.view.maxId (app'.order p).marketId + 1 := by
          have same := same p
          rw [start] at same
          rw [same.id, same.marketId, incoming]
          rfl
        rw [lives.filter_reports_new inv new, List.nil_append]
        rw [first, List.map_cons] at replay ⊢
        refine ⟨o, _, _, rfl, by rw [incoming]; rfl, fun y member => ?_, replay⟩
        obtain ⟨x, inside, rfl⟩ := List.mem_map.mp member
        rw [newMoves_trade x (List.mem_filter.mp inside).1]
        rintro ⟨⟩
      · have before : (app.heap.orders.find p).isSome := by
          have present := present
          rw [live, Heap.find_newOrder, if_neg (fresh ▸ here)] at present
          exact present
        rw [update_of_ne here] at replay
        rw [filter_reports_old (old p here)]
        refine (lives.life p before).append replay fun y member => ?_
        obtain ⟨x, inside, rfl⟩ := List.mem_map.mp member
        obtain ⟨listed, own⟩ := List.mem_filter.mp inside
        have own : x.2 = p := of_decide_eq_true own
        cases List.mem_cons.mp listed with
        | inl first => exact absurd (own.symm.trans (congrArg Prod.snd first)) (fresh ▸ here)
        | inr later =>
          rw [newMoves_trade x later]
          rintro ⟨⟩
  | @changed a m change target now ps _ held live told =>
    obtain ⟨es, filed⟩ := told.filed
    have same : ∀ p, (app'.order p).Same (app.order p) := fun p => by
      have same := told.replays.same p
      exact ⟨same.accnt, same.marketId, same.id, same.ref, same.side, same.ticks⟩
    refine lives.filed filed (fun p present => ⟨(live p).trans present, same p⟩) (fun x member => ?_) fun p present => ?_
    · obtain ⟨y, listed, rfl⟩ := List.mem_map.mp member
      exact .inr ⟨y.2, told.present y listed, told.replays.reports y listed⟩
    · rw [told.filter_reports inv' present, filter_reports_old (same p)]
      refine (lives.life p ((live p).symm.trans present)).append (told.replays.single p) fun y member => ?_
      obtain ⟨x, inside, rfl⟩ := List.mem_map.mp member
      obtain ⟨-, j, made⟩ := mem_zip_reportsOf (List.mem_filter.mp inside).1
      rw [made]
      cases change with
      | revise lots => rintro ⟨⟩
      | cancel => rintro ⟨⟩

end App

/-! ## Quantities -/

/-- Every order is sound, also one that is no longer open. -/
def View.AllSound (v : View) : Prop := ∀ p, (v.heap.orders.find p).isSome → (v.heap.order p).Sound

variable {v v' : View} {a : Symbol} {m now : Int} {s : Side} {change : App.Change}

theorem View.AllSound.sound (sound : v.AllSound) : v.Sound := fun p present _ => sound p present

theorem View.AllSound.update (sound : v.AllSound) (kept : Heap.Kept v.heap v'.heap) {p : OrderPtr}
    (order : (v'.heap.order p).Sound) (others : ∀ q, q ≠ p → v'.heap.order q = v.heap.order q) : v'.AllSound := by
  intro q present
  cases eq_or_ne q p with
  | inl here => rwa [here]
  | inr differ =>
    rw [others q differ]
    exact sound q ((kept.live q).symm.trans present)

theorem Commits.allSound {xs : List Match} (commits : Commits a m s now xs v v') (sound : v.AllSound)
    (nodup : (xs.map Match.makerOrder).Nodup)
    (fits : ∀ x ∈ xs, 0 < x.lots ∧ x.lots ≤ (v.heap.order x.makerOrder).resdLots) : v'.AllSound := by
  induction commits with
  | nil => exact sound
  | cons first rest inductionHypothesis =>
    obtain ⟨differ, nodup⟩ := List.nodup_cons.mp nodup
    obtain ⟨⟨positive, enough⟩, fits⟩ := List.forall_mem_cons.mp fits
    have maker := first.maker_sound sound.sound positive enough
    refine inductionHypothesis (sound.update first.kept maker fun _ differ => first.order_ne differ) nodup
      fun y member => ?_
    rw [first.order_ne fun same => differ (same ▸ List.mem_map_of_mem member)]
    exact fits y member

namespace App

variable {app app' : App} {op : Op} {p : OrderPtr}

theorem Changes.allSound {xs : List (ExecPtr × OrderPtr)} (changes : Changes change now xs v v') (sound : v.AllSound)
    (fits : ∀ x ∈ xs, change.Fits (v.heap.order x.2)) : v'.AllSound := by
  induction changes with
  | nil => exact sound
  | cons first rest inductionHypothesis =>
    obtain ⟨fitsFirst, fits⟩ := List.forall_mem_cons.mp fits
    have order := first.order_sound sound.sound fitsFirst
    exact inductionHypothesis (sound.update first.kept order fun _ differ => first.order_ne differ)
      fun y member => first.fits fitsFirst (fits y member)

theorem Effect.allSound (inv : app.Inv) (sound : app.view.AllSound) (positive : op.Positive) (effect : Effect app op app') :
    app'.view.AllSound := by
  cases effect with
  | idle grown view execs => rw [view]; exact sound
  | posted view archived execs silent => rw [view]; exact sound
  | @created a m ref side lots ticks minLots now _ _ v checked opened commits ledger =>
    obtain ⟨o, incoming⟩ : ∃ o, o = app.incoming a m ref side lots ticks minLots now := ⟨_, rfl⟩
    rw [← incoming] at opened commits
    have placed : v.AllSound := by
      intro q present
      cases eq_or_ne q app.heap.orders.fresh with
      | inl here =>
        rw [here]
        exact opened.fresh_sound inv sound.sound positive incoming
      | inr differ =>
        rw [opened.placed.others q differ] at present
        rw [opened.placed.order_ne differ]
        exact sound q present
    exact commits.allSound placed (nodup_matches inv m o) (opened.fits inv sound.sound positive incoming)
  | changed held journaled changes execs =>
    refine changes.allSound sound fun x member => ?_
    have inside : x.2 ∈ (pairs app.execs.fresh _).map Prod.snd := List.mem_map_of_mem member
    rw [pairs_snd] at inside
    exact Change.fits_of_check (held _ inside).2
  | traded traded =>
    cases traded with
    | oneSided alone journal view matches_ execs_ execs => rw [view]; exact sound
    | twoSided paired journal view matches_ execs_ execs => rw [view]; exact sound
  | archived view archived owner execs silent => rw [view]; exact sound

/-- The listed orders are those with open lots. -/
theorem listed_iff (inv : app.Inv) (sound : app.view.AllSound) (p : OrderPtr) :
    (∃ m s, p ∈ (app.view.side m s).orders) ↔ (app.heap.orders.find p).isSome ∧ 0 < (app.order p).resdLots := by
  constructor
  · intro listed
    obtain ⟨m, s, member⟩ := listed
    have present := inv.live.present member
    exact ⟨present, lt_of_le_of_ne (sound p present).resdLots (inv.live.resdLots m s p member).symm⟩
  · intro open_
    exact ⟨_, _, inv.complete p open_.1 open_.2.ne'⟩

/-- No order goes away. -/
theorem Moves.present (moves : Moves app op app') (present : (app.heap.orders.find p).isSome) :
    (app'.heap.orders.find p).isSome := by
  cases moves with
  | still unmoved | byHand unmoved => exact (unmoved.live p).trans present
  | created incoming live told =>
    rw [live, Heap.find_newOrder, if_neg (OrdMap.ne_fresh present)]
    exact present
  | changed held live told => exact (live p).trans present

/-- No step gives an order more lots. -/
theorem Moves.lots_le (moves : Moves app op app') (present : (app.heap.orders.find p).isSome) :
    (app'.order p).lots ≤ (app.order p).lots := by
  have unmoved (unmoved : Unmoved app app') : (app'.order p).lots ≤ (app.order p).lots := by
    have plain : (app'.plain p).lots = (app.plain p).lots := by rw [unmoved.plain]
    exact plain.le
  cases moves with
  | still same idle => exact unmoved same
  | byHand same filed foreign => exact unmoved same
  | created incoming live told =>
    have replay := told.replays.single p
    rw [update_of_ne (OrdMap.ne_fresh present)] at replay
    refine replay.lots_le (le_refl (app.plain p).lots) fun x member revised => ?_
    obtain ⟨y, inside, rfl⟩ := List.mem_map.mp member
    cases List.mem_cons.mp (List.mem_filter.mp inside).1 with
    | inl first => rw [first] at revised; rw [incoming] at revised; cases revised
    | inr later => rw [newMoves_trade y later] at revised; cases revised
  | @changed a m change target now ps _ held live told =>
    refine (told.replays.single p).lots_le (le_refl (app.plain p).lots) fun x member revised => ?_
    obtain ⟨y, inside, rfl⟩ := List.mem_map.mp member
    obtain ⟨inside, own⟩ := List.mem_filter.mp inside
    obtain ⟨listed, j, made⟩ := mem_zip_reportsOf inside
    have own : y.2 = p := of_decide_eq_true own
    rw [made] at revised ⊢
    cases change with
    | cancel => cases revised
    | revise lots => exact (Change.bounds_of_check (own ▸ (held _ listed).2)).2

/-- What an order and its reports come to. -/
structure Ledgered (app : App) (p : OrderPtr) : Prop where
  /-- The first report creates the order, and each one shows what it makes of the order. -/
  life : Order.Life (app.reportsOn p) (app.plain p)
  execLots : (app.order p).execLots = tradedLots (app.reportsOn p)
  execCost : (app.order p).execCost = tradedCost (app.reportsOn p)
  balance : (app.order p).state ≠ .cancel → (app.order p).resdLots + (app.order p).execLots = (app.order p).lots
  cancelled : (app.order p).state = .cancel → (app.order p).resdLots = 0
  within : (app.order p).execLots ≤ (app.order p).lots

/-- No run gives an order more lots. -/
theorem lots_le_of_run {ops : List Op} (inv : app.Inv) (present : (app.heap.orders.find p).isSome)
    (run : Run App.step (fun _ op => op.Positive) app ops app') : 
    (app'.heap.orders.find p).isSome ∧ (app'.order p).lots ≤ (app.order p).lots := by
  have kept : app'.Inv ∧ (app'.heap.orders.find p).isSome ∧ (app'.order p).lots ≤ (app.order p).lots := by
    refine run.invariant (I := fun t => t.Inv ∧ (t.heap.orders.find p).isSome ∧ (t.order p).lots ≤ (app.order p).lots)
      (fun t op u kept _ stepped => ?_) ⟨inv, present, le_rfl⟩
    obtain ⟨inv, present, bound⟩ := kept
    have moves := step_moves inv stepped
    exact ⟨inv.step stepped, moves.present present, (moves.lots_le present).trans bound⟩
  exact kept.2

/-- From an empty engine, every order accounts for its reports, and every report for its order. -/
theorem orders_ledgered {capacity maxExecs : Nat} {ops : List Op}
    (run : Run App.step (fun _ op => op.Positive) (App.make capacity maxExecs) ops app) :
    (∀ p, (app.heap.orders.find p).isSome → app.Ledgered p ∧
      ∀ more later, Run App.step (fun _ op => op.Positive) app more later →
        (later.heap.orders.find p).isSome ∧ (later.order p).lots ≤ (app.order p).lots) ∧
    ∀ x ∈ app.execs.entries.map Prod.snd, x.orderId = 0 ∨ ∃ p, (app.heap.orders.find p).isSome ∧ x ∈ app.reportsOn p := by
  have kept : app.Inv ∧ app.view.AllSound ∧ app.Lives := by
    refine run.invariant (I := fun t => t.Inv ∧ t.view.AllSound ∧ t.Lives) (fun t op u kept positive stepped => ?_)
      ⟨.make _ _, (fun _ present => by cases present), lives_make _ _⟩
    obtain ⟨inv, sound, lives⟩ := kept
    obtain ⟨t₀, view, -, inv₀, effect, -⟩ := step_effect inv stepped
    have inv' := inv.step stepped
    exact ⟨inv', effect.allSound inv₀ (view ▸ sound) positive, lives.step inv inv' (step_moves inv stepped)⟩
  obtain ⟨inv, sound, lives⟩ := kept
  refine ⟨fun p present => ⟨?_, fun more later further => lots_le_of_run inv present further⟩, fun x member => ?_⟩
  · have life := lives.life p present
    obtain ⟨execLots, execCost⟩ := life.traded
    have own := sound p present
    exact ⟨life, execLots, execCost, own.balance, own.cancelled, own.within⟩
  · refine (lives.owned x member).imp_right fun some_order => ?_
    obtain ⟨p, present, own⟩ := some_order
    exact ⟨p, present, List.mem_filter.mpr ⟨member, decide_eq_true own⟩⟩

/-- An order that is filled in part, revised, filled again and cancelled. -/
theorem orders_ledgered_revised :
    let a : Symbol := .assign (bytes "MARAYL")
    let b : Symbol := .assign (bytes "GOSAYL")
    let m := toMarketId 1 0
    ∃ app, Run App.step (fun _ op => op.Positive) (App.make 16 16)
        [.createMarket 1 (.assign (bytes "EURUSD")) 0 0 0, .createOrder a m [] .sell 10 5 0 2 0,
          .createOrder b m [] .buy 3 5 0 3 0, .changeOrder a m (.revise 8) (.id 1) 4,
          .createOrder b m [] .buy 4 6 0 5 0, .changeOrder a m .cancel (.id 1) 6] app ∧
      app.Ledgered 0 ∧ (app.reportsOn 0).map Exec.state = [.new, .trade, .revise, .trade, .cancel] ∧
      (app.order 0).lots = 8 ∧ (app.order 0).execCost = 35 := by
  intro a b m
  have made : ∃ app ∈ Run.exec App.step (fun _ op => op.Positive) (App.make 16 16)
      [.createMarket 1 (.assign (bytes "EURUSD")) 0 0 0, .createOrder a m [] .sell 10 5 0 2 0,
        .createOrder b m [] .buy 3 5 0 3 0, .changeOrder a m (.revise 8) (.id 1) 4,
        .createOrder b m [] .buy 4 6 0 5 0, .changeOrder a m .cancel (.id 1) 6],
      (app.heap.orders.find 0).isSome ∧ (app.reportsOn 0).map Exec.state = [.new, .trade, .revise, .trade, .cancel] ∧
        (app.order 0).lots = 8 ∧ (app.order 0).execCost = 35 := by decide
  obtain ⟨app, done, present, states, lots, execCost⟩ := made
  exact ⟨app, .of_exec done, ((orders_ledgered (.of_exec done)).1 0 present).1, states, lots, execCost⟩

end App

end Swirly
