import Swirly.Verified.App.Filing

/-!
# Orders replayed from their reports

Orders and executions are changed by different functions.  Read in sequence, the reports of a call say what to do with
the orders: each of them shows its order as it is after that, and in the end the orders are as the call left them.
-/

namespace Swirly

open Function

/-- The order apart from its link to a level. -/
def Order.plain (o : Order) : Order := { o with level := none }

/-- The execution is one of the order. -/
def Exec.Reports (x : Exec) (o : Order) : Prop := x.marketId = o.marketId ∧ x.orderId = o.id

instance (x : Exec) (o : Order) : Decidable (x.Reports o) := inferInstanceAs (Decidable (_ ∧ _))

/-- No two orders share an execution. -/
theorem Ids.reports {h : Heap} {maxId : Int → Int} (ids : Ids h maxId) {x : Exec} {p q : OrderPtr}
    (presentP : (h.orders.find p).isSome) (presentQ : (h.orders.find q).isSome) (reportsP : x.Reports (h.order p))
    (reportsQ : x.Reports (h.order q)) : p = q := by
  refine ids.unique p q presentP presentQ (idKey_inj.mpr ⟨?_, ?_⟩)
  · exact reportsP.1.symm.trans reportsQ.1
  · exact reportsP.2.symm.trans reportsQ.2

/-- What a report does to its order. -/
def Order.step (o : Order) (x : Exec) : Order :=
  match x.state with
  | .none => o
  | .new => o.create x.created
  | .revise => o.revise x.lots x.created
  | .cancel => o.cancel x.created
  | .trade => o.trade x.lastLots x.lastTicks x.created

theorem Order.step_same (o : Order) (x : Exec) : (o.step x).Same o := by
  simp only [Order.step]
  cases x.state <;> exact ⟨rfl, rfl, rfl, rfl, rfl, rfl⟩

theorem Order.same_of_plain {o o' : Order} (plain : o.plain = o'.plain) : o.Same o' := by
  have same : o.plain.Same o'.plain := plain ▸ .refl _
  exact ⟨same.accnt, same.marketId, same.id, same.ref, same.side, same.ticks⟩

/-- The execution shows the order as it is. -/
structure Exec.Shows (x : Exec) (o : Order) : Prop where
  accnt : x.accnt = o.accnt
  marketId : x.marketId = o.marketId
  instr : x.instr = o.instr
  settlDay : x.settlDay = o.settlDay
  orderId : x.orderId = o.id
  ref : x.ref = o.ref
  side : x.side = o.side
  lots : x.lots = o.lots
  state : x.state = o.state
  ticks : x.ticks = o.ticks
  resdLots : x.resdLots = o.resdLots
  execLots : x.execLots = o.execLots
  execCost : x.execCost = o.execCost
  lastLots : x.lastLots = o.lastLots
  lastTicks : x.lastTicks = o.lastTicks
  minLots : x.minLots = o.minLots

/-- The reports, each with its order, lead from one state of the orders to another. -/
inductive Replays : (OrderPtr → Order) → List (Exec × OrderPtr) → (OrderPtr → Order) → Prop
  | nil {orders : OrderPtr → Order} : Replays orders [] orders
  | cons {orders orders' : OrderPtr → Order} {x : Exec} {q : OrderPtr} {xs : List (Exec × OrderPtr)}
      (shows : x.Shows ((orders q).step x)) (rest : Replays (update orders q ((orders q).step x)) xs orders') :
      Replays orders ((x, q) :: xs) orders'

/-- The reports of one order. -/
inductive Order.Replay : Order → List Exec → Order → Prop
  | nil {o : Order} : Replay o [] o
  | cons {o o' : Order} {x : Exec} {xs : List Exec} (shows : x.Shows (o.step x)) (rest : Replay (o.step x) xs o') :
      Replay o (x :: xs) o'

theorem Order.Replay.append {o o' o'' : Order} {xs ys : List Exec} (first : o.Replay xs o') (second : o'.Replay ys o'') :
    o.Replay (xs ++ ys) o'' := by
  induction first with
  | nil => exact second
  | cons shows _ inductionHypothesis => exact .cons shows (inductionHypothesis second)

namespace Replays

variable {orders orders' orders'' : OrderPtr → Order} {xs ys : List (Exec × OrderPtr)}

theorem append (first : Replays orders xs orders') (second : Replays orders' ys orders'') :
    Replays orders (xs ++ ys) orders'' := by
  induction first with
  | nil => exact second
  | cons shows _ inductionHypothesis => exact .cons shows (inductionHypothesis second)

/-- What the reports say of one order. -/
theorem single (replays : Replays orders xs orders') (q : OrderPtr) :
    (orders q).Replay ((xs.filter fun x => x.2 = q).map Prod.fst) (orders' q) := by
  induction replays with
  | nil => exact .nil
  | @cons orders _ x p xs shows _ inductionHypothesis =>
    by_cases here : p = q
    · subst here
      rw [update_self] at inductionHypothesis
      rw [List.filter_cons_of_pos (by simp)]
      exact .cons shows inductionHypothesis
    · rw [update_of_ne (Ne.symm here)] at inductionHypothesis
      rw [List.filter_cons_of_neg (by simpa using here)]
      exact inductionHypothesis

/-- Every order stays the same order. -/
theorem same (replays : Replays orders xs orders') (q : OrderPtr) : (orders' q).Same (orders q) := by
  induction replays with
  | nil => exact .refl _
  | @cons orders _ x p xs shows _ inductionHypothesis =>
    refine inductionHypothesis.trans ?_
    by_cases here : q = p
    · rw [here, update_self]
      exact Order.step_same _ _
    · rw [update_of_ne here]
      exact .refl _

/-- The reports belong to their orders. -/
theorem reports (replays : Replays orders xs orders') : ∀ x ∈ xs, x.1.Reports (orders' x.2) := by
  induction replays with
  | nil => exact fun _ member => by cases member
  | @cons orders _ x p xs shows rest inductionHypothesis =>
    refine List.forall_mem_cons.mpr ⟨?_, inductionHypothesis⟩
    have same := rest.same p
    rw [update_self] at same
    exact ⟨shows.marketId.trans same.marketId.symm, shows.orderId.trans same.id.symm⟩

end Replays

/-! ## The matches of a new order -/

/-- The taker after the matches up to some totals. -/
def Order.takenAt (o : Order) (now : Int) (sums : App.Sums) : Order :=
  o.tradeSum sums.sumLots sums.sumCost sums.lastLots sums.lastTicks now

/-- The quantities of the taker are what the totals leave of it. -/
def Order.Partly (o : Order) (sums : App.Sums) (t : Order) : Prop :=
  ∃ state lastLots lastTicks modified, t = { o with
    state, resdLots := o.resdLots - sums.sumLots, execLots := o.execLots + sums.sumLots,
    execCost := o.execCost + sums.sumCost, lastLots, lastTicks, modified }

namespace Fill

variable {h : Heap} {o t : Order} {now : Int} {sums : App.Sums} {f : Fill}

/-- The executions of a match with their orders. -/
def moves (h : Heap) (o : Order) (now : Int) (taker : OrderPtr) (f : Fill) : List (Exec × OrderPtr) :=
  [(f.makerExec h o now, f.maker), (f.takerExec h o now, taker)]

theorem takerExec_shows (h : Heap) (o : Order) (now : Int) (f : Fill) (last : f.sums.lastLots = f.lots ∧
    f.sums.lastTicks = (h.order f.maker).ticks) : (f.takerExec h o now).Shows (o.takenAt now f.sums) where
  accnt := rfl
  marketId := rfl
  instr := rfl
  settlDay := rfl
  orderId := rfl
  ref := rfl
  side := rfl
  lots := rfl
  state := rfl
  ticks := rfl
  resdLots := rfl
  execLots := rfl
  execCost := rfl
  lastLots := last.1.symm
  lastTicks := last.2.symm
  minLots := rfl

/-- The execution of the taker carries the running totals; the order takes the match alone. -/
theorem takerExec_step (partly : o.Partly sums t) (next : f.sums = sums.add f.lots (h.order f.maker).ticks) :
    t.step (f.takerExec h o now) = o.takenAt now f.sums := by
  obtain ⟨state, lastLots, lastTicks, modified, rfl⟩ := partly
  rw [next]
  show Order.tradeSum _ _ _ _ _ _ = Order.tradeSum _ _ _ _ _ _
  simp only [Order.tradeSum, App.Sums.add, Order.mk.injEq, true_and, and_true, sub_sub, add_assoc]
  exact ⟨rfl, rfl, rfl, rfl, rfl, rfl⟩

theorem makerExec_shows (h : Heap) (o : Order) (now : Int) (f : Fill) :
    (f.makerExec h o now).Shows ((h.order f.maker).plain.step (f.makerExec h o now)) :=
  ⟨rfl, rfl, rfl, rfl, rfl, rfl, rfl, rfl, rfl, rfl, rfl, rfl, rfl, rfl, rfl, rfl⟩

theorem makerExec_step (h : Heap) (o : Order) (now : Int) (f : Fill) :
    (h.order f.maker).plain.step (f.makerExec h o now) =
      ((h.order f.maker).trade f.lots (h.order f.maker).ticks now).plain := rfl

/-- The matches, one after the other. -/
theorem replays_number (now : Int) (taker : OrderPtr) (xs : List (OrderPtr × Int)) (sums : App.Sums) (id : Int) (e : ExecPtr)
    (orders : OrderPtr → Order)
    (partly : o.Partly sums (orders taker)) (makers : ∀ x ∈ xs, orders x.1 = (h.order x.1).plain)
    (nodup : (taker :: xs.map Prod.fst).Nodup) :
    ∃ orders', Replays orders ((number h sums id e xs).flatMap (moves h o now taker)) orders' ∧
      (orders' taker = match number h sums id e xs with
        | [] => orders taker
        | f :: fs => o.takenAt now (final f.sums fs)) ∧
      (∀ f ∈ number h sums id e xs, orders' f.maker = ((h.order f.maker).trade f.lots (h.order f.maker).ticks now).plain) ∧
      ∀ q, q ≠ taker → q ∉ xs.map Prod.fst → orders' q = orders q := by
  induction xs generalizing sums id e orders with
  | nil => exact ⟨orders, .nil, rfl, by simp, fun _ _ _ => rfl⟩
  | cons x xs inductionHypothesis =>
    obtain ⟨q, lots⟩ := x
    obtain ⟨⟨apart, away⟩, differ, nodup⟩ : (taker ≠ q ∧ taker ∉ xs.map Prod.fst) ∧ q ∉ xs.map Prod.fst ∧
        (xs.map Prod.fst).Nodup := by simpa [and_assoc] using nodup
    obtain ⟨makerFirst, makers⟩ := List.forall_mem_cons.mp makers
    rw [number_cons]
    obtain ⟨f, first⟩ : ∃ f : Fill, f = ⟨q, lots, sums.add lots (h.order q).ticks, id + 1, e⟩ := ⟨_, rfl⟩
    rw [← first]
    have maker : f.maker = q := by rw [first]
    have totals : f.sums = sums.add f.lots (h.order f.maker).ticks := by rw [first]
    obtain ⟨given, start⟩ : ∃ given, given = update orders q ((h.order q).trade f.lots (h.order q).ticks now).plain := ⟨_, rfl⟩
    have own : given taker = orders taker := by rw [start, update_of_ne apart]
    have taken : (given taker).step (f.takerExec h o now) = o.takenAt now f.sums := by
      rw [own]
      exact takerExec_step partly totals
    obtain ⟨orders', replays, last, matched, others⟩ := inductionHypothesis f.sums (id + 2) (e + 2)
      (update given taker (o.takenAt now f.sums))
      (by rw [update_self]; exact ⟨_, _, _, _, rfl⟩)
      (fun x member => by
        have listed : x.1 ∈ xs.map Prod.fst := List.mem_map_of_mem member
        have notTaker : x.1 ≠ taker := fun same => away (same ▸ listed)
        have notMaker : x.1 ≠ q := fun same => differ (same ▸ listed)
        rw [update_of_ne notTaker, start, update_of_ne notMaker]
        exact makers x member)
      (List.nodup_cons.mpr ⟨away, nodup⟩)
    rw [show sums.add lots (h.order q).ticks = f.sums by rw [first]]
    refine ⟨orders', ?_, ?_, ?_, ?_⟩
    · rw [List.flatMap_cons]
      show Replays orders ((f.makerExec h o now, f.maker) :: (f.takerExec h o now, taker) :: _) orders'
      have makerNow : orders f.maker = (h.order f.maker).plain := by rw [maker]; exact makerFirst
      have moved : update orders f.maker ((orders f.maker).step (f.makerExec h o now)) = given := by
        rw [makerNow, makerExec_step, start, maker]
      refine .cons (by rw [makerNow]; exact makerExec_shows h o now f) ?_
      rw [moved]
      refine .cons (by rw [taken]; exact takerExec_shows h o now f (by rw [totals]; exact ⟨rfl, rfl⟩)) ?_
      rw [taken]
      exact replays
    · rw [last]
      cases number h f.sums (id + 2) (e + 2) xs with
      | nil => exact update_self _ _ _
      | cons g gs => exact congrArg (o.takenAt now) (final_cons g f.sums gs).symm
    · refine List.forall_mem_cons.mpr ⟨?_, matched⟩
      rw [others f.maker (by rw [maker]; exact Ne.symm apart) (by rw [maker]; exact differ), update_of_ne (by rw [maker]; exact Ne.symm apart),
        start, maker, update_self]
    · intro p differP unlisted
      obtain ⟨differQ, unlisted⟩ : p ≠ q ∧ p ∉ xs.map Prod.fst := by simpa using unlisted
      rw [others p differP unlisted, update_of_ne differP, start, update_of_ne differQ]

end Fill

namespace App

variable {app app' : App} {a : Symbol} {m now : Int} {o : Order} {v : View} {op : Op}

def plain (app : App) (p : OrderPtr) : Order := (app.order p).plain

/-- The reports of a new order with the orders that they are about. -/
def newMoves (app : App) (o : Order) (now : Int) (fs : List Fill) : List (Exec × OrderPtr) :=
  (Exec.make o o.id now, app.heap.orders.fresh) :: fs.flatMap (Fill.moves app.heap o now app.heap.orders.fresh)

theorem newMoves_fst (app : App) (o : Order) (now : Int) (fs : List Fill) :
    (newMoves app o now fs).map Prod.fst = newReports app o now fs := by
  rw [newMoves, newReports, List.map_cons, List.map_flatMap]
  rfl

/-- A new order, with its matches. -/
theorem created_replays (inv : app.Inv) {s : Side} (made : o.step (.make o o.id now) = o) (unlinked : o.plain = o)
    (opened : Opened app a m o now (app.incomingFills m o) v)
    (commits : Commits a m s now ((app.incomingFills m o).map fun f => f.toMatch app.heap m) v app'.view) :
    Replays (update app.plain app.heap.orders.fresh o) (newMoves app o now (app.incomingFills m o)) app'.plain := by
  obtain ⟨xs, allocations⟩ : ∃ xs, xs = Greedy.fill o.resdLots (offers app.heap o (direct o) (app.makers m o)) := ⟨_, rfl⟩
  have fills : app.incomingFills m o =
      Fill.number app.heap ⟨0, 0, 0, 0⟩ (app.view.maxId m + 1) (app.execs.fresh + 1) xs := by rw [allocations]; rfl
  have makers : xs.map Prod.fst = (app.incomingFills m o).map Fill.maker := by
    rw [fills]
    conv_lhs => rw [← Fill.number_allocations app.heap ⟨0, 0, 0, 0⟩ (app.view.maxId m + 1) (app.execs.fresh + 1) xs]
    exact List.map_map
  have nodup : ((app.incomingFills m o).map Fill.maker).Nodup := fillsOf_nodup (inv.live.wf m _).nodup
  have old : ∀ q ∈ (app.incomingFills m o).map Fill.maker, q ≠ app.heap.orders.fresh := by
    intro q member
    obtain ⟨f, inside, rfl⟩ := List.mem_map.mp member
    exact OrdMap.ne_fresh (inv.live.present (mem_fillsOf inside).1)
  obtain ⟨orders', replays, last, matched, others⟩ := Fill.replays_number (h := app.heap) (o := o) now
    app.heap.orders.fresh xs ⟨0, 0, 0, 0⟩ (app.view.maxId m + 1) (app.execs.fresh + 1)
    (update app.plain app.heap.orders.fresh o)
    ⟨o.state, o.lastLots, o.lastTicks, o.modified, by rw [update_self]; simp⟩
    (fun x member => by
      have listed : x.1 ∈ xs.map Prod.fst := List.mem_map_of_mem member
      rw [update_of_ne (old x.1 (makers ▸ listed))]
      rfl)
    (List.nodup_cons.mpr ⟨fun member => old _ (makers ▸ member) rfl, makers ▸ nodup⟩)
  rw [← fills] at replays last matched
  have start : update app.plain app.heap.orders.fresh o app.heap.orders.fresh = o := update_self _ _ _
  have unmatched : ∀ q, q ∉ (app.incomingFills m o).map Fill.maker → app'.order q = v.heap.order q := by
    intro q apart
    refine commits.order_ne ?_
    rw [List.map_map]
    exact apart
  have kept : ∀ q, q ≠ app.heap.orders.fresh → v.heap.order q = app.heap.order q := fun _ differ =>
    opened.placed.order_ne differ
  have whole : orders' = app'.plain := by
    funext q
    by_cases here : q = app.heap.orders.fresh
    · obtain ⟨level, order⟩ := opened.placed.order
      rw [here, last, App.plain, unmatched _ fun member => old _ member rfl, order]
      cases app.incomingFills m o with
      | nil => rw [start]; exact unlinked.symm
      | cons f fs => exact congrArg (fun o : Order => o.takenAt now (Fill.final f.sums fs)) unlinked.symm
    · by_cases maker : q ∈ (app.incomingFills m o).map Fill.maker
      · obtain ⟨f, inside, rfl⟩ := List.mem_map.mp maker
        obtain ⟨level, order⟩ := commits.order (by rw [List.map_map]; exact nodup) (List.mem_map_of_mem inside)
        have traded : app'.order f.maker =
            { (app.heap.order f.maker).trade f.lots (app.heap.order f.maker).ticks now with level } := by
          rw [← kept _ here]
          exact order
        rw [matched f inside, App.plain, traded]
        rfl
      · rw [others q here (by rw [makers]; exact maker), update_of_ne here, App.plain, App.plain, unmatched q maker, kept q here]
        rfl
  rw [newMoves, ← whole]
  refine .cons ?_ ?_
  · rw [start, made]
    exact ⟨rfl, rfl, rfl, rfl, rfl, rfl, rfl, rfl, rfl, rfl, rfl, rfl, rfl, rfl, rfl, rfl⟩
  · rw [start, made, update_idem]
    exact replays

/-! ## Revision and cancellation -/

variable {change : Change}

/-- The report of a change makes the change. -/
theorem Change.step_report (change : Change) (o o' : Order) (id now : Int) :
    o.step (change.report (.make o' id now)) = change.apply o now := by
  cases change <;> rfl

theorem Change.report_shows (change : Change) (o : Order) (id now : Int) :
    (change.report (.make o id now)).Shows (change.apply o now).plain := by
  cases change <;> exact ⟨rfl, rfl, rfl, rfl, rfl, rfl, rfl, rfl, rfl, rfl, rfl, rfl, rfl, rfl, rfl, rfl⟩

/-- A change that has been made already changes nothing. -/
theorem Change.apply_twice (change : Change) (o : Order) (now : Int) :
    change.apply (change.apply o now).plain now = (change.apply o now).plain := change.apply_apply o none now

/-- The changes of a list.  An order that the list repeats is reported as it was before. -/
theorem Changes.replays {xs : List (ExecPtr × OrderPtr)} {v v' : View} (changes : Changes change now xs v v') (h : Heap)
    (id : Int) (settled : ∀ q ∈ xs.map Prod.snd, (v.heap.order q).plain = (h.order q).plain ∨
      (v.heap.order q).plain = (change.apply (h.order q) now).plain) :
    Replays (fun q => (v.heap.order q).plain) ((reportsOf h change now id (xs.map Prod.snd)).zip (xs.map Prod.snd))
      fun q => (v'.heap.order q).plain := by
  induction changes generalizing id with
  | nil => exact .nil
  | @cons x xs v v₁ _ first _ inductionHypothesis =>
    rw [List.map_cons] at settled ⊢
    obtain ⟨settledFirst, settled⟩ := List.forall_mem_cons.mp settled
    rw [reportsOf, List.zip_cons_cons]
    obtain ⟨report, made⟩ : ∃ report, report = change.report (.make (h.order x.2) (id + 1) now) := ⟨_, rfl⟩
    rw [← made]
    have step : (v.heap.order x.2).plain.step report = (change.apply (h.order x.2) now).plain := by
      rw [made, Change.step_report]
      cases settledFirst with
      | inl before => rw [before]; cases change <;> rfl
      | inr after => rw [after, Change.apply_twice]
    have own : (v₁.heap.order x.2).plain = (change.apply (h.order x.2) now).plain := by
      obtain ⟨level, order⟩ := first.order
      rw [← step, order, made, Change.step_report]
      cases change <;> rfl
    have moved : update (fun q => (v.heap.order q).plain) x.2 ((v.heap.order x.2).plain.step report) =
        fun q => (v₁.heap.order q).plain := by
      funext q
      rw [update_apply]
      split
      next here => rw [here, step, own]
      next differ => rw [first.order_ne differ]
    refine .cons (by rw [step, made]; exact change.report_shows _ _ _) ?_
    rw [moved]
    refine inductionHypothesis (id + 1) fun q member => ?_
    by_cases here : q = x.2
    · exact .inr (by rw [here, own])
    · rw [first.order_ne here]
      exact settled q member

/-! ## Steps -/

/-- What a step reports of which orders, beginning with the orders `start`. -/
structure Told (app : App) (start : OrderPtr → Order) (xs : List (Exec × OrderPtr)) (app' : App) : Prop where
  filed : ∃ es, Filed app app' (xs.map Prod.fst) es
  replays : Replays start xs app'.plain
  present : ∀ x ∈ xs, (app'.heap.orders.find x.2).isSome

/-- The step leaves the orders as they are. -/
structure Unmoved (app app' : App) : Prop where
  live : ∀ p, (app'.heap.orders.find p).isSome = (app.heap.orders.find p).isSome
  plain : app'.plain = app.plain

/-- What a step does to the orders, as its reports tell it. -/
inductive Moves (app : App) : Op → App → Prop
  | still {op : Op} {app' : App} (unmoved : Unmoved app app') (idle : app.Idle app') : Moves app op app'
  | byHand {op : Op} {app' : App} {news : List Exec} {es : List ExecPtr} (unmoved : Unmoved app app')
      (filed : Filed app app' news es) (foreign : ∀ x ∈ news, x.orderId = 0) : Moves app op app'
  | created {a : Symbol} {m : Int} {ref : Bytes} {side : Side} {lots ticks minLots now busDay : Int} {o : Order} {app' : App}
      (incoming : o = app.incoming a m ref side lots ticks minLots now)
      (live : ∀ p, (app'.heap.orders.find p).isSome = ((app.heap.newOrder o).orders.find p).isSome)
      (told : Told app (update app.plain app.heap.orders.fresh o) (newMoves app o now (app.incomingFills m o)) app') :
      Moves app (.createOrder a m ref side lots ticks minLots now busDay) app'
  | changed {a : Symbol} {m : Int} {change : Change} {target : Target} {now : Int} {ps : List OrderPtr} {app' : App}
      (held : ∀ p ∈ ps, app.Held a p ∧ change.check (app.order p) = none)
      (live : ∀ p, (app'.heap.orders.find p).isSome = (app.heap.orders.find p).isSome)
      (told : Told app app.plain ((reportsOf app.heap change now (app.view.maxId m) ps).zip ps) app') :
      Moves app (.changeOrder a m change target now) app'

theorem Unmoved.of_heap (heap : app'.heap = app.heap) : Unmoved app app' where
  live _ := by rw [heap]
  plain := by
    funext p
    rw [App.plain, App.order, heap]
    rfl

theorem incoming_step {ref : Bytes} {side : Side} {lots ticks minLots : Int}
    (incoming : o = app.incoming a m ref side lots ticks minLots now) : o.step (.make o o.id now) = o ∧ o.plain = o := by
  rw [incoming]
  exact ⟨rfl, rfl⟩

theorem zip_reportsOf (h : Heap) (change : Change) (now id : Int) (ps : List OrderPtr) :
    ((reportsOf h change now id ps).zip ps).map Prod.fst = reportsOf h change now id ps :=
  List.map_fst_zip (length_reportsOf h change now id ps).le

theorem mem_newMoves {fs : List Fill} {x : Exec × OrderPtr} (member : x ∈ newMoves app o now fs) :
    x.2 = app.heap.orders.fresh ∨ ∃ f ∈ fs, x.2 = f.maker := by
  cases List.mem_cons.mp member with
  | inl first => exact .inl (congrArg Prod.snd first)
  | inr later =>
    obtain ⟨f, inside, made⟩ := List.mem_flatMap.mp later
    cases List.mem_pair.mp made with
    | inl maker => exact .inr ⟨f, inside, congrArg Prod.snd maker⟩
    | inr taker => exact .inl (congrArg Prod.snd taker)

theorem Effect.moves (inv : app.Inv) (effect : Effect app op app') : Moves app op app' := by
  cases effect with
  | idle grown view execs => exact .still (.of_heap (congrArg View.heap view)) (.of_ids grown view execs)
  | posted view archived execs silent => exact .still (.of_heap (congrArg View.heap view)) (.of_posted view execs silent)
  | archived view archived owner execs silent => exact .still (.of_heap (congrArg View.heap view)) (.of_archived view execs silent)
  | @created a m ref side lots ticks minLots now busDay _ v checked opened commits ledger =>
    obtain ⟨filed, -, -⟩ := created_filed inv incoming_new rfl opened commits ledger
    obtain ⟨o, incoming⟩ : ∃ o, o = app.incoming a m ref side lots ticks minLots now := ⟨_, rfl⟩
    rw [← incoming] at opened commits filed
    have kept : Heap.Kept (app.heap.newOrder o) app'.heap := opened.placed.kept.trans commits.kept
    obtain ⟨step, unlinked⟩ := incoming_step incoming
    refine .created incoming kept.live ⟨?_, created_replays inv step unlinked opened commits, fun x member => ?_⟩
    · rw [newMoves_fst]
      exact ⟨_, filed⟩
    · rw [kept.live, Heap.find_newOrder]
      split
      next => rfl
      next differ =>
        obtain ⟨f, inside, maker⟩ := (mem_newMoves member).resolve_left differ
        rw [maker]
        exact inv.live.present (mem_fillsOf inside).1
  | @changed a m change target now _ ps mq held journaled changes execs =>
    obtain ⟨filed, -, -⟩ := changed_filed (fun p member => (held p member).1.accnt) journaled changes execs
    have kept : Heap.Kept app.heap app'.heap := changes.kept
    refine .changed held kept.live ⟨?_, ?_, fun x member => ?_⟩
    · rw [zip_reportsOf]
      exact ⟨_, filed⟩
    · have replays := changes.replays app.heap (app.view.maxId m) fun q _ => .inl rfl
      rw [pairs_snd] at replays
      exact replays
    · rw [kept.live]
      have listed : x.2 ∈ ps := (List.of_mem_zip (show (x.1, x.2) ∈ _ from member)).2
      exact inv.live.present (held _ listed).1.member
  | traded traded =>
    have unmoved : Unmoved app app' := by
      cases traded with
      | oneSided alone journal view => exact .of_heap (congrArg View.heap view)
      | twoSided paired journal view => exact .of_heap (congrArg View.heap view)
    cases traded.filed rfl rfl rfl rfl rfl with
    | inl alone =>
      refine .byHand unmoved alone.2.1 fun x member => ?_
      rw [List.mem_singleton.mp member]
      rfl
    | inr paired =>
      refine .byHand unmoved paired.2.2.1 fun x member => ?_
      cases List.mem_pair.mp member with
      | inl first => rw [first]; rfl
      | inr second => rw [second]; rfl

/-- Sessions that a call makes first do not matter here. -/
theorem Moves.of_view {app₀ : App} (view : app₀.view = app.view) (execs : app₀.execs = app.execs)
    (moves : Moves app₀ op app') : Moves app op app' := by
  have heap : app₀.heap = app.heap := congrArg View.heap view
  have plain : app₀.plain = app.plain := (Unmoved.of_heap heap).plain
  have unmoved : Unmoved app₀ app' → Unmoved app app' := fun unmoved =>
    ⟨fun p => by rw [unmoved.live, heap], unmoved.plain.trans plain⟩
  have told : ∀ {start xs}, Told app₀ start xs app' → Told app start xs app' := by
    intro start xs told
    obtain ⟨⟨es, filed⟩, replays, present⟩ := told
    exact ⟨⟨es, filed.of_view view execs⟩, replays, present⟩
  cases moves with
  | still same idle => exact .still (unmoved same) (idle.of_view view execs)
  | byHand same filed foreign => exact .byHand (unmoved same) (filed.of_view view execs) foreign
  | created incoming live reports =>
    rw [incoming_view view] at incoming
    rw [plain, newMoves, heap, incomingFills_view view execs] at reports
    rw [heap] at live
    exact .created incoming live (told reports)
  | changed held live reports =>
    rw [plain, heap, view] at reports
    rw [heap] at live
    refine .changed (fun p member => ?_) live (told reports)
    obtain ⟨⟨accnt, listed⟩, checked⟩ := held p member
    rw [App.order, heap] at accnt checked
    rw [App.order, heap, view] at listed
    exact ⟨⟨accnt, listed⟩, checked⟩

theorem step_moves (inv : app.Inv) (stepped : app.step op = some app') : Moves app op app' := by
  obtain ⟨app₀, view, execs, inv₀, effect, -⟩ := step_effect inv stepped
  exact (effect.moves inv₀).of_view view execs

end App

end Swirly
