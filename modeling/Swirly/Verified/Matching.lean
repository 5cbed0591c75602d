import Swirly.Verified.App.Step

/-!
# Price-time priority

`reference` is the matcher by which the engine is judged: it walks the opposite side in list order, which is price
order and then insertion order.  `createOrder_priority` says that a call of `create_order` makes exactly its deals:
it reads only the two sides of the market, so it needs no more of the state than that these are in order.
-/

namespace Swirly

open Function MarketSide

/-- A price at the taker's limit or better. -/
def Crosses (taker : Order) (ticks : Int) : Prop :=
  if taker.side = .buy then ticks ≤ taker.ticks else taker.ticks ≤ ticks

instance (taker : Order) (ticks : Int) : Decidable (Crosses taker ticks) :=
  inferInstanceAs (Decidable (if taker.side = .buy then ticks ≤ taker.ticks else taker.ticks ≤ ticks))

structure Deal where
  maker : OrderPtr
  lots : Int
  ticks : Int
  deriving DecidableEq

/-- Fill the taker from the makers in order. -/
def reference (h : Heap) (taker : Order) : Int → List OrderPtr → List Deal
  | _, [] => []
  | want, q :: qs =>
    if want = 0 then []
    else if ¬ Crosses taker (h.order q).ticks then []
    else
      let lots := min want (h.order q).resdLots
      ⟨q, lots, (h.order q).ticks⟩ :: reference h taker (want - lots) qs

theorem spread_crosses (taker maker : Order) :
    App.spread taker maker (App.direct taker) ≤ 0 ↔ Crosses taker maker.ticks := by
  unfold App.spread App.direct Crosses
  cases taker.side with
  | buy => simp
  | sell => simp

/-- The reference matcher allocates greedily. -/
theorem reference_fill (h : Heap) (taker : Order) (want : Int) (makers : List OrderPtr) :
    reference h taker want makers =
      (Greedy.fill want (offers h taker (App.direct taker) makers)).map fun x => ⟨x.1, x.2, (h.order x.1).ticks⟩ := by
  induction makers generalizing want with
  | nil => rfl
  | cons q makers inductionHypothesis =>
    rw [reference, offers_cons]
    by_cases met : want = 0
    · rw [if_pos met, met, Greedy.fill_zero]
      rfl
    · rw [if_neg met]
      by_cases crosses : Crosses taker (h.order q).ticks
      · rw [if_neg (not_not.mpr crosses), if_pos ((spread_crosses _ _).mpr crosses), Greedy.fill_cons met, List.map_cons,
          ← inductionHypothesis]
      · rw [if_pos crosses, if_neg fun crossing => crosses ((spread_crosses _ _).mp crossing)]
        rfl

section Sorted

variable {side : Side} {h : Heap} {s : MarketSide} {taker : Order}

/-- On a side in order, an order whose price does not cross is followed by none whose price does. -/
theorem takeWhile_crosses (wf : WF side h s) (opposite : taker.side.opposite = side) :
    (s.orders.takeWhile fun q => App.spread taker (h.order q) (App.direct taker) ≤ 0) =
      s.orders.filter fun q => Crosses taker (h.order q).ticks := by
  have sides : ∀ q ∈ s.orders, (h.order q).side = side := wf.orderSide
  have sorted := wf.sorted
  generalize s.orders = makers at sides sorted
  induction makers with
  | nil => rfl
  | cons q makers inductionHypothesis =>
    obtain ⟨before, sorted⟩ := List.pairwise_cons.mp sorted
    obtain ⟨qSide, sides⟩ := List.forall_mem_cons.mp sides
    rw [List.takeWhile_cons]
    by_cases crosses : Crosses taker (h.order q).ticks
    · rw [if_pos (decide_eq_true ((spread_crosses _ _).mpr crosses)), List.filter_cons_of_pos (by simpa using crosses),
        inductionHypothesis sides sorted]
    · rw [if_neg fun crossing => crosses ((spread_crosses _ _).mp (of_decide_eq_true crossing)),
        List.filter_cons_of_neg (by simpa using crosses), List.filter_eq_nil_iff.mpr]
      intro r member crossing
      have crossing : Crosses taker (h.order r).ticks := of_decide_eq_true crossing
      have le := before r member
      simp only [Heap.key, qSide, sides r member] at le
      apply crosses
      unfold Crosses at crossing ⊢
      cases makerSide : taker.side with
      | buy =>
        rw [makerSide] at opposite crossing
        subst opposite
        simp only [Side.opposite, composeKey, reduceCtorEq, if_false, if_true] at le crossing ⊢
        omega
      | sell =>
        rw [makerSide] at opposite crossing
        subst opposite
        simp only [Side.opposite, composeKey, reduceCtorEq, if_false, if_true] at le crossing ⊢
        omega

/-- What the eligible makers have open. -/
theorem total_offers (wf : WF side h s) (opposite : taker.side.opposite = side) :
    Greedy.total (offers h taker (App.direct taker) s.orders) =
      ((s.orders.filter fun q => Crosses taker (h.order q).ticks).map fun q => (h.order q).resdLots).sum := by
  rw [offers, takeWhile_crosses wf opposite, Greedy.total, List.map_map]
  rfl

end Sorted

/-! ## The fills as deals -/

namespace Fill

variable {h : Heap}

/-- The deal of a fill. -/
def deal (h : Heap) (f : Fill) : Deal := ⟨f.maker, f.lots, (h.order f.maker).ticks⟩

theorem deal_number (sums : App.Sums) (id : Int) (e : ExecPtr) (xs : List (OrderPtr × Int)) :
    (number h sums id e xs).map (deal h) = xs.map fun x => ⟨x.1, x.2, (h.order x.1).ticks⟩ := by
  rw [← number_allocations h sums id e xs, List.map_map, number_allocations]
  rfl

/-- The k-th fill carries the totals of the first k. -/
theorem number_sums (sums : App.Sums) (id : Int) (e : ExecPtr) (xs : List (OrderPtr × Int)) {k : Nat} {f : Fill}
    (at_k : (number h sums id e xs)[k]? = some f) :
    f.sums = {
      sumLots := sums.sumLots + ((((number h sums id e xs).map (deal h)).take (k + 1)).map Deal.lots).sum
      sumCost := sums.sumCost + ((((number h sums id e xs).map (deal h)).take (k + 1)).map fun d => cost d.lots d.ticks).sum
      lastLots := f.lots
      lastTicks := (h.order f.maker).ticks } := by
  induction xs generalizing sums id e k with
  | nil => cases at_k
  | cons x xs inductionHypothesis =>
    obtain ⟨q, lots⟩ := x
    rw [number_cons] at at_k ⊢
    cases k with
    | zero =>
      cases at_k
      simp [App.Sums.add, deal]
    | succ k =>
      have later := inductionHypothesis (sums.add lots (h.order q).ticks) (id + 2) (e + 2) at_k
      rw [later]
      simp only [App.Sums.add, List.map_cons, add_assoc]
      rfl

/-- The last fill carries the totals of all of them. -/
theorem final_number (sums : App.Sums) (id : Int) (e : ExecPtr) (xs : List (OrderPtr × Int)) :
    (final sums (number h sums id e xs)).sumLots =
        sums.sumLots + (((number h sums id e xs).map (deal h)).map Deal.lots).sum ∧
      (final sums (number h sums id e xs)).sumCost =
        sums.sumCost + (((number h sums id e xs).map (deal h)).map fun d => cost d.lots d.ticks).sum := by
  induction xs generalizing sums id e with
  | nil => simp [final]
  | cons x xs inductionHypothesis =>
    obtain ⟨q, lots⟩ := x
    obtain ⟨sumLots, sumCost⟩ := inductionHypothesis (sums.add lots (h.order q).ticks) (id + 2) (e + 2)
    rw [number_cons, final_cons, sumLots, sumCost]
    simp only [App.Sums.add, List.map_cons, List.sum_cons, deal, add_assoc, and_self]

/-- Ids and addresses go up in pairs. -/
theorem number_at (sums : App.Sums) (id : Int) (e : ExecPtr) (xs : List (OrderPtr × Int)) {k : Nat} {f : Fill}
    (at_k : (number h sums id e xs)[k]? = some f) : f.makerId = id + 1 + 2 * k ∧ f.makerTrade = e + 2 * k := by
  induction xs generalizing sums id e k with
  | nil => cases at_k
  | cons x xs inductionHypothesis =>
    obtain ⟨q, lots⟩ := x
    rw [number_cons] at at_k
    cases k with
    | zero =>
      cases at_k
      exact ⟨by simp, rfl⟩
    | succ k =>
      obtain ⟨makerId, makerTrade⟩ := inductionHypothesis _ _ _ at_k
      rw [makerId, makerTrade]
      constructor
      · push_cast
        ring
      · ring

theorem execs_at {taker : Order} {now : Int} {fs : List Fill} {k : Nat} {f : Fill} (at_k : fs[k]? = some f) :
    (fs.flatMap (execs h taker now))[2 * k]? = some (f.makerExec h taker now) ∧
      (fs.flatMap (execs h taker now))[2 * k + 1]? = some (f.takerExec h taker now) := by
  induction fs generalizing k with
  | nil => cases at_k
  | cons g fs inductionHypothesis =>
    rw [List.flatMap_cons]
    cases k with
    | zero =>
      cases at_k
      exact ⟨rfl, rfl⟩
    | succ k => exact inductionHypothesis at_k

end Fill

/-! ## The commit phase on one side -/

namespace Taken

variable {a : Symbol} {m now : Int} {s : Side} {x : Match} {v v' : View}

theorem wf (taken : Taken a m s now x v v') : WF s v'.heap (v'.side m s) := by
  obtain ⟨h, side, member, shrunk, rfl⟩ := taken
  simpa using shrunk.wf

theorem order (taken : Taken a m s now x v v') :
    ∃ level, v'.heap.order x.makerOrder =
      { (v.heap.order x.makerOrder).trade x.lots (v.heap.order x.makerOrder).ticks now with level } := by
  obtain ⟨h, side, member, shrunk, rfl⟩ := taken
  simpa using shrunk.order

theorem order_ne (taken : Taken a m s now x v v') {q : OrderPtr} (differ : q ≠ x.makerOrder) :
    v'.heap.order q = v.heap.order q := by
  obtain ⟨h, side, member, shrunk, rfl⟩ := taken
  simpa using shrunk.frame.order differ

theorem reports (taken : Taken a m s now x v v') : v'.reports = v.reports := by
  obtain ⟨h, side, member, shrunk, rfl⟩ := taken
  simp

/-- The other makers are still listed. -/
theorem listed (taken : Taken a m s now x v v') {q : OrderPtr} (member : q ∈ (v.side m s).orders)
    (differ : q ≠ x.makerOrder) : q ∈ (v'.side m s).orders := by
  obtain ⟨h, side, -, shrunk, rfl⟩ := taken
  simp only [View.side_fileTrade, View.side_setLast, View.side_shrink, setSide_self]
  by_cases stays : x.lots < (v.heap.order x.makerOrder).resdLots
  · rw [(shrunk.stay stays).1]
    exact member
  · rw [(shrunk.leave stays).1]
    exact (List.mem_erase_of_ne differ).mpr member

end Taken

namespace App

variable {app app' : App} {a : Symbol} {m now : Int} {s : Side}

/-- The session of a maker that is committed exists. -/
theorem known_of_commitMatch {x : Match} (wf : WF s app.heap (app.view.side m s))
    (member : x.makerOrder ∈ (app.view.side m s).orders) (done : app.commitMatch a m now x = some app') :
    (app.sesss.find (app.order x.makerOrder).accnt).isSome := by
  obtain ⟨h, side, taken, shrunk⟩ := takeOrder_spec wf member x.lots now
  obtain ⟨app₁, first, -, sesss₁, -, heap₁, -, -⟩ := onMarket_takeOrder (wf.orderSide _ member) taken
  obtain ⟨level, after⟩ := shrunk.order
  have accnt : (app₁.order x.makerOrder).accnt = (app.order x.makerOrder).accnt := by
    rw [App.order, heap₁, after]
    rfl
  simp only [commitMatch, first] at done
  cases found : app₁.sesss.find (app₁.order x.makerOrder).accnt with
  | none =>
    rw [found] at done
    cases done
  | some sess =>
    rw [← accnt, ← sesss₁, found]
    rfl

/-- What the commit loop does to the makers, for a side that is in order. -/
theorem commitAll_taken (xs : List Match) (wf : WF s app.heap (app.view.side m s)) (ready : Ready app m s xs)
    (done : xs.foldlM (fun app x => app.commitMatch a m now x) app = some app') :
    (∀ x ∈ xs, ∃ level, app'.order x.makerOrder =
      { (app.order x.makerOrder).trade x.lots (app.order x.makerOrder).ticks now with level }) ∧
    (∀ q, q ∉ xs.map Match.makerOrder → app'.order q = app.order q) ∧ app'.view.reports = app.view.reports := by
  induction xs generalizing app with
  | nil =>
    obtain rfl : app = app' := Option.some.inj done
    exact ⟨by simp, fun _ _ => rfl, rfl⟩
  | cons x xs inductionHypothesis =>
    rw [List.foldlM_cons] at done
    obtain ⟨next, first, rest⟩ := Option.bind_eq_some_iff.mp done
    have member := ready.listed x List.mem_cons_self
    obtain ⟨next', again, taken, present, -⟩ := commitMatch_taken a now wf member (ready.posn x List.mem_cons_self)
      (ready.makerTrade x List.mem_cons_self) (ready.takerTrade x List.mem_cons_self) (known_of_commitMatch wf member first)
    obtain rfl : next' = next := Option.some.inj (again.symm.trans first)
    obtain ⟨different, nodup⟩ := List.nodup_cons.mp ready.nodup
    have differ : ∀ y ∈ xs, y.makerOrder ≠ x.makerOrder := fun y inside same =>
      different (same ▸ List.mem_map_of_mem inside)
    have order : ∀ y ∈ xs, next'.order y.makerOrder = app.order y.makerOrder := fun y inside =>
      taken.order_ne (differ y inside)
    have later : Ready next' m s xs :=
      { nodup
        listed := fun y inside => taken.listed (ready.listed y (List.mem_cons_of_mem _ inside)) (differ y inside)
        lots := fun y inside => by rw [order y inside]; exact ready.lots y (List.mem_cons_of_mem _ inside)
        posn := fun y inside => by rw [order y inside]; exact ready.posn y (List.mem_cons_of_mem _ inside)
        makerTrade := fun y inside => by rw [present]; exact ready.makerTrade y (List.mem_cons_of_mem _ inside)
        takerTrade := fun y inside => by rw [present]; exact ready.takerTrade y (List.mem_cons_of_mem _ inside) }
    obtain ⟨makers, others, reports⟩ := inductionHypothesis taken.wf later rest
    refine ⟨List.forall_mem_cons.mpr ⟨?_, fun y inside => ?_⟩, fun q outside => ?_, reports.trans taken.reports⟩
    · obtain ⟨level, order⟩ := taken.order
      exact ⟨level, (others _ different).trans order⟩
    · rw [← order y inside]
      exact makers y inside
    · obtain ⟨differX, outside⟩ := not_or.mp (mt List.mem_cons.mpr outside)
      exact (others q outside).trans (taken.order_ne differX)

/-! ## The whole call -/

/-- Both sides of the market are in order, their orders have open lots, and no call is under way. -/
structure InOrder (app : App) (m : Int) : Prop where
  wf : ∀ s, WF s app.heap (app.view.side m s)
  resdLots : ∀ s, ∀ q ∈ (app.view.side m s).orders, 0 < (app.order q).resdLots
  matches_ : app.matches_ = []
  execs_ : app.execs_ = []

variable {ref : Bytes} {side : Side} {lots ticks minLots busDay : Int} {resp : Response} {o : Order} {fs : List Fill}

/-- Where the commit loop starts. -/
structure Ripe (app : App) (m : Int) (o : Order) (now : Int) (fs : List Fill) (app₅ : App) : Prop where
  execs : app₅.execs = app.execs.allocs (newReports app o now fs)
  reports : app₅.view.reports = app.view.reports.allocs (newReports app o now fs)
  order : ∃ level, app₅.order app.heap.orders.fresh = { filled o now fs with level }
  others : ∀ q, q ≠ app.heap.orders.fresh → app₅.order q = app.order q
  wf : WF o.side.opposite app₅.heap (app₅.view.side m o.side.opposite)
  makers : (app₅.view.side m o.side.opposite).orders = app.makers m o

theorem Ripe.of_eq {now : Int} {app₃ app₅ : App} (ripe : Ripe app m o now fs app₃) (execs : app₅.execs = app₃.execs)
    (heap : app₅.heap = app₃.heap) (markets : app₅.markets = app₃.markets) : Ripe app m o now fs app₅ := by
  obtain ⟨execs₃, reports, order, others, wf, makers⟩ := ripe
  have side : app₅.view.side = app₃.view.side := by simp only [view, market, markets]
  have orders : app₅.order = app₃.order := by
    funext q
    rw [App.order, heap]
    rfl
  refine ⟨execs.trans execs₃, ?_, ?_, ?_, ?_, ?_⟩
  · rw [← reports]
    simp only [view, execs]
  · rwa [orders]
  · rwa [orders]
  · rwa [heap, side]
  · rwa [side]

/-- Resting the new order leaves the opposite side alone. -/
theorem rest_ripe (inOrder : app.InOrder m) {app₂ app₃ : App} (staged : Staged app m o now fs app₂)
    (rested : app₂.rest m app.heap.orders.fresh = some app₃) :
    Ripe app m o now fs app₃ ∧ app₃.matches_ = app₂.matches_ := by
  have heap₂ : app₂.heap = app.heap.newOrder (filled o now fs) := congrArg View.heap staged.view
  have side₂ : app₂.view.side = app.view.side := by rw [staged.view]
  have order₂ : app₂.order app.heap.orders.fresh = filled o now fs := by rw [App.order, heap₂, Heap.order_newOrder_self]
  have outside : ∀ s, app.heap.orders.fresh ∉ (app.view.side m s).orders := fun s member =>
    OrdMap.ne_fresh ((inOrder.wf s).orderLive _ member) rfl
  have wf₂ : ∀ s, WF s (app.heap.newOrder (filled o now fs)) (app.view.side m s) := fun s =>
    (inOrder.wf s).frame (Heap.frame_setOrder (L := fun _ => False) app.heap app.heap.orders.fresh (filled o now fs))
      (fun q member same => outside s (same ▸ member)) fun _ _ => id
  unfold rest at rested
  rw [order₂] at rested
  split at rested
  next =>
    obtain rfl : app₂ = app₃ := Option.some.inj rested
    refine ⟨⟨staged.execs, by rw [staged.view]; rfl, ⟨_, order₂⟩, fun q differ => ?_, ?_, by rw [side₂]; rfl⟩, rfl⟩
    · rw [App.order, heap₂, Heap.order_newOrder_ne _ _ differ]
      rfl
    · rw [heap₂, side₂]
      exact wf₂ _
  next =>
    have ownSide : ((app.heap.newOrder (filled o now fs)).order app.heap.orders.fresh).side = o.side := by
      rw [Heap.order_newOrder_self]
      exact filled_same.side
    obtain ⟨h, x, lp, inserted, -, -, order, -, frame⟩ := insertOrder_spec (wf₂ o.side) (outside o.side) ownSide
    simp only [Market.insertOrder] at rested
    rw [onMarket_onSide, order₂, show (filled o now fs).side = o.side from filled_same.side, heap₂, side₂, inserted] at rested
    obtain rfl := Option.some.inj rested
    have side₃ : ({ app₂ with heap := h }.setMarket m ((app₂.market m).setSide o.side x)).view.side m o.side.opposite =
        app.view.side m o.side.opposite := by
      rw [view_setSide]
      show setSide app₂.view.side m o.side x m o.side.opposite = _
      rw [setSide_other fun here => o.side.opposite_ne here.2, side₂]
    rw [Heap.order_newOrder_self] at order
    refine ⟨⟨staged.execs, ?_, ⟨_, order⟩, fun q differ => ?_, ?_, by rw [side₃]; rfl⟩, rfl⟩
    · rw [view_setSide, View.setSide, staged.view]
      rfl
    · exact (frame.order differ).trans (Heap.order_newOrder_ne _ _ differ)
    · rw [side₃]
      -- The levels of the two sides are apart, since no order is on both.
      refine (wf₂ _).frame frame (fun q member same => outside _ (same ▸ member)) ?_
      rintro lp ⟨k, found⟩ ⟨j, ownFound⟩
      have first := ((wf₂ _).first_mem found).1
      have ownFirst := ((wf₂ _).first_mem ownFound).1
      exact o.side.opposite_ne (((wf₂ _).orderSide _ first).symm.trans ((wf₂ _).orderSide _ ownFirst))

/-- The phases of a call that succeeds. -/
theorem createOrder_phases (inOrder : app.InOrder m) (incoming : o = app.incoming a m ref side lots ticks minLots now)
    (done : app.createOrder a m ref side lots ticks minLots now busDay = .ok resp app') :
    ∃ app₅ app₆, Ripe app m o now (app.incomingFills m o) app₅ ∧
      ((app.incomingFills m o).map fun f => f.toMatch app.heap m).foldlM (fun app x => app.commitMatch a m now x) app₅ =
        some app₆ ∧ app' = app₆.clearScratch := by
  rw [createOrder] at done
  cases checked : app.admission a m ref lots minLots busDay with
  | some e =>
    rw [checked] at done
    cases done
  | none =>
    obtain ⟨app₁, place, view₁, execs₁, matches₁, pointers₁⟩ := place_spec ⟨inOrder.matches_, inOrder.execs_⟩ incoming
    simp only [checked, place] at done
    cases matched : app₁.matchOrders a m app.heap.orders.fresh now
        ((Response.empty.insertOrder app.heap.orders.fresh).insertExec app.execs.fresh) with
    | none =>
      simp only [matched] at done
      cases done
    | some result =>
      have order₁ : app₁.order app.heap.orders.fresh = o := by
        rw [App.order, show app₁.heap = app.heap.newOrder o from congrArg View.heap view₁, Heap.order_newOrder_self]
      have present : ∀ q ∈ app.makers m o, (app.heap.orders.find q).isSome := fun q member =>
        (inOrder.wf _).orderLive q member
      have fills₁ : app₁.fills m o = app.incomingFills m o := by
        have makers₁ : app₁.makers m o = app.makers m o := by simp only [makers, view₁]; rfl
        have maxId₁ : app₁.view.maxId m = app.view.maxId m + 1 := by rw [view₁]; exact update_self _ _ _
        rw [fills, incomingFills, makers₁, maxId₁, execs₁, OrdMap.fresh_alloc,
          show app₁.heap = app.heap.newOrder o from congrArg View.heap view₁]
        exact fillsOf_congr fun q member => Heap.order_newOrder_ne _ _ (OrdMap.ne_fresh (present q member))
      have known := known_of_matchOrders matched
      rw [order₁, fills₁] at known
      obtain ⟨app₂, resp₂, again, staged, -⟩ := staged (a := a) present view₁ execs₁ matches₁ pointers₁
        (fun f member => by
          have differ := OrdMap.ne_fresh (present f.maker (mem_fillsOf member).1)
          have same : app₁.order f.maker = app.order f.maker := by
            rw [App.order, show app₁.heap = app.heap.newOrder o from congrArg View.heap view₁, Heap.order_newOrder_ne _ _ differ]
            rfl
          rw [← same]
          exact known f member)
        ((Response.empty.insertOrder app.heap.orders.fresh).insertExec app.execs.fresh)
      simp only [again] at done
      obtain ⟨prepared, made⟩ : ∃ prepared, prepared =
        if (!app₂.matches_.isEmpty) = true then app₂.ensurePosn a m else app₂ := ⟨_, rfl⟩
      have staged : Staged app m o now (app.incomingFills m o) prepared := by
        rw [made]
        split
        next => exact ⟨(view_ensurePosn a m).trans staged.view, staged.execs, staged.matches_, staged.execs_⟩
        next => exact staged
      rw [← made] at done
      cases rested : prepared.rest m app.heap.orders.fresh with
      | none =>
        simp only [rested] at done
        cases done
      | some app₃ =>
        obtain ⟨ripe, matches₃⟩ := rest_ripe inOrder staged rested
        simp only [rested] at done
        cases posted : app₃.mq.createExecs (app₃.execs_.map app₃.exec) with
        | none =>
          simp only [posted] at done
          split at done <;> cases done
        | some mq =>
          simp only [posted] at done
          cases committed : ({ app₃ with mq } : App).commitOrder a m app.heap.orders.fresh app.execs.fresh now with
          | none =>
            simp only [committed] at done
            cases done
          | some app₆ =>
            simp only [committed] at done
            cases done
            obtain ⟨app₅, started⟩ : ∃ app₅, app₅ = App.pushExecFront
                (if ({ app₃ with mq } : App).order app.heap.orders.fresh |>.done then { app₃ with mq }
                  else ({ app₃ with mq } : App).setSess a ((({ app₃ with mq } : App).sess a).insertOrder app.heap.orders.fresh
                    (({ app₃ with mq } : App).order app.heap.orders.fresh))) a app.execs.fresh := ⟨_, rfl⟩
            rw [commitOrder, ← started, commitMatches,
              show app₅.matches_ = app₃.matches_ by rw [started]; split <;> rfl, matches₃, staged.matches_] at committed
            refine ⟨app₅, app₆, ripe.of_eq ?_ ?_ ?_, committed, rfl⟩
            · rw [started]; split <;> rfl
            · rw [started]; split <;> rfl
            · rw [started]; split <;> rfl

/-- The makers are where the match phase found them. -/
theorem Ripe.ready {app₅ : App} (inOrder : app.InOrder m) (ripe : Ripe app m o now (app.incomingFills m o) app₅) :
    Ready app₅ m o.side.opposite ((app.incomingFills m o).map fun f => f.toMatch app.heap m) := by
  have order : ∀ f ∈ app.incomingFills m o, app₅.order f.maker = app.order f.maker := fun f member =>
    ripe.others _ (OrdMap.ne_fresh ((inOrder.wf _).orderLive _ (mem_fillsOf member).1))
  have trades : ∀ f ∈ app.incomingFills m o, ∀ e ∈ f.trades, (app₅.execs.find e).isSome := fun f member e trade => by
    rw [ripe.execs]
    exact isSome_trades member trade
  exact
    { nodup := by
        rw [List.map_map]
        exact fillsOf_nodup (inOrder.wf _).nodup
      listed := List.forall_mem_map.mpr fun f member => by
        rw [ripe.makers]
        exact (mem_fillsOf member).1
      lots := List.forall_mem_map.mpr fun f member => by
        show f.lots ≤ (app₅.order f.maker).resdLots
        rw [order f member]
        exact (mem_fillsOf member).2.1
      posn := List.forall_mem_map.mpr fun f member => by
        show ((app.heap.order f.maker).accnt, m) = ((app₅.order f.maker).accnt, m)
        rw [order f member]
        rfl
      makerTrade := List.forall_mem_map.mpr fun f member => trades f member _ (by simp [Fill.trades, Fill.toMatch])
      takerTrade := List.forall_mem_map.mpr fun f member => trades f member _ (by simp [Fill.trades, Fill.toMatch]) }

/-- The deals of the reference matcher for a new order. -/
def deals (app : App) (m : Int) (o : Order) : List Deal := reference app.heap o o.lots (app.makers m o)

/-- The makers that the taker's limit allows. -/
def eligible (app : App) (m : Int) (o : Order) : List OrderPtr :=
  (app.makers m o).filter fun q => Crosses o (app.order q).ticks

/-- The engine has made the given deals for a new order, and no others. -/
structure ByPriority (app app' : App) (m : Int) (o : Order) (now : Int) (deals : List Deal) : Prop where
  limit : ∀ d ∈ deals, Crosses o d.ticks
  positive : ∀ d ∈ deals, 0 < d.lots
  inOrder : deals.map Deal.maker <+: app.makers m o
  /-- A maker is touched only if those before it are filled. -/
  usedUp : ∀ k d, k + 1 < deals.length → deals[k]? = some d → d.lots = (app.order d.maker).resdLots
  total : (deals.map Deal.lots).sum = min o.lots ((app.eligible m o).map fun q => (app.order q).resdLots).sum
  /-- Each deal makes two executions, after that of the order itself. -/
  count : app'.execs.fresh = app.execs.fresh + 1 + 2 * deals.length
  makerTrade : ∀ k d, deals[k]? = some d →
    (app'.exec (app.execs.fresh + 1 + 2 * k)).unstamped =
      (Exec.make (app.order d.maker) (app.view.maxId m + 2 + 2 * k) now).trade d.lots d.ticks
        (app.view.maxId m + 3 + 2 * k) .maker o.accnt
  takerTrade : ∀ k d, deals[k]? = some d →
    (app'.exec (app.execs.fresh + 2 + 2 * k)).unstamped =
      { Exec.make o (app.view.maxId m + 3 + 2 * k) now with
        state := .trade
        resdLots := o.lots - ((deals.take (k + 1)).map Deal.lots).sum
        execLots := ((deals.take (k + 1)).map Deal.lots).sum
        execCost := ((deals.take (k + 1)).map fun d => cost d.lots d.ticks).sum
        lastLots := d.lots
        lastTicks := d.ticks
        matchId := app.view.maxId m + 2 + 2 * k
        liqInd := .taker
        cpty := (app.order d.maker).accnt }
  makers : ∀ d ∈ deals, ∃ level, app'.order d.maker =
    { (app.order d.maker).trade d.lots d.ticks now with level }
  others : ∀ q, q ≠ app.heap.orders.fresh → q ∉ deals.map Deal.maker → app'.order q = app.order q
  taker : (app'.order app.heap.orders.fresh).execLots = (deals.map Deal.lots).sum ∧
    (app'.order app.heap.orders.fresh).execCost = (deals.map fun d => cost d.lots d.ticks).sum ∧
    (app'.order app.heap.orders.fresh).resdLots = o.lots - (deals.map Deal.lots).sum

theorem deals_allocations (app : App) (m : Int) (o : Order) :
    (app.deals m o).map (fun d => (d.maker, d.lots)) =
      Greedy.fill o.lots (offers app.heap o (direct o) (app.makers m o)) := by
  rw [deals, reference_fill, List.map_map]
  exact List.map_id _

theorem sum_deals (app : App) (m : Int) (o : Order) :
    ((app.deals m o).map Deal.lots).sum =
      Greedy.total (Greedy.fill o.lots (offers app.heap o (direct o) (app.makers m o))) := by
  rw [← deals_allocations, Greedy.total, List.map_map]
  rfl

/-- The fills of a new order are its deals. -/
theorem deals_eq (o : Order) (open_ : o.resdLots = o.lots) :
    app.deals m o = (app.incomingFills m o).map (Fill.deal app.heap) := by
  rw [deals, reference_fill, incomingFills, fillsOf, Fill.deal_number, open_]

/-- The totals of the taker are those of its deals. -/
theorem filled_sums (o : Order) (now : Int) (fs : List Fill) :
    (filled o now fs).execLots = o.execLots + (Fill.final ⟨0, 0, 0, 0⟩ fs).sumLots ∧
    (filled o now fs).execCost = o.execCost + (Fill.final ⟨0, 0, 0, 0⟩ fs).sumCost ∧
    (filled o now fs).resdLots = o.resdLots - (Fill.final ⟨0, 0, 0, 0⟩ fs).sumLots := by
  cases fs with
  | nil => simp [filled, Fill.final]
  | cons f fs =>
    rw [Fill.final_cons]
    exact ⟨rfl, rfl, rfl⟩

theorem incoming_filled (o : Order) (now : Int) (incoming : o = app.incoming a m ref side lots ticks minLots now) :
    (filled o now (app.incomingFills m o)).execLots = ((app.deals m o).map Deal.lots).sum ∧
    (filled o now (app.incomingFills m o)).execCost = ((app.deals m o).map fun d => cost d.lots d.ticks).sum ∧
    (filled o now (app.incomingFills m o)).resdLots = o.lots - ((app.deals m o).map Deal.lots).sum := by
  obtain ⟨execLots, execCost, resdLots⟩ := filled_sums o now (app.incomingFills m o)
  obtain ⟨sumLots, sumCost⟩ := Fill.final_number (h := app.heap) ⟨0, 0, 0, 0⟩ (app.view.maxId m + 1) (app.execs.fresh + 1)
    (Greedy.fill o.resdLots (offers app.heap o (direct o) (app.makers m o)))
  have fresh : o.resdLots = o.lots ∧ o.execLots = 0 ∧ o.execCost = 0 := by rw [incoming]; exact ⟨rfl, rfl, rfl⟩
  rw [execLots, execCost, resdLots, deals_eq o fresh.1, fresh.1, fresh.2.1, fresh.2.2]
  rw [show Fill.number app.heap ⟨0, 0, 0, 0⟩ (app.view.maxId m + 1) (app.execs.fresh + 1)
    (Greedy.fill o.resdLots (offers app.heap o (direct o) (app.makers m o))) = app.incomingFills m o from rfl] at sumLots sumCost
  rw [sumLots, sumCost]
  simp only [Int.zero_add, and_self]

/-- A call that succeeds makes the deals of the reference matcher. -/
theorem createOrder_priority (inOrder : app.InOrder m) (positive : 0 < lots)
    (done : app.createOrder a m ref side lots ticks minLots now busDay = .ok resp app') :
    ByPriority app app' m (app.incoming a m ref side lots ticks minLots now) now
      (app.deals m (app.incoming a m ref side lots ticks minLots now)) := by
  obtain ⟨o, incoming⟩ : ∃ o, o = app.incoming a m ref side lots ticks minLots now := ⟨_, rfl⟩
  have fresh : o.resdLots = o.lots ∧ o.lots = lots := by rw [incoming]; exact ⟨rfl, rfl⟩
  obtain ⟨app₅, app₆, ripe, committed, rfl⟩ := createOrder_phases inOrder incoming done
  rw [← incoming]
  obtain ⟨filledLots, filledCost, filledResd⟩ := incoming_filled o now incoming
  have same := @deals_eq app m o fresh.1
  obtain ⟨makers, others, reports⟩ := commitAll_taken _ ripe.wf (ripe.ready inOrder) committed
  have opposite : WF o.side.opposite app.heap (app.view.side m o.side.opposite) := inOrder.wf _
  have openLots : ∀ x ∈ offers app.heap o (direct o) (app.makers m o), 0 < x.2 := fun x inside => by
    obtain ⟨member, lots, -⟩ := mem_offers (show (x.1, x.2) ∈ _ from inside)
    rw [lots]
    exact inOrder.resdLots _ _ member
  have wanted : 0 ≤ o.lots := by omega
  have allocations := app.deals_allocations m o
  have kept : ∀ f ∈ app.incomingFills m o, app₅.order f.maker = app.order f.maker := fun f member =>
    ripe.others _ (OrdMap.ne_fresh (opposite.orderLive _ (mem_fillsOf member).1))
  have matched : ((app.incomingFills m o).map fun f => f.toMatch app.heap m).map Match.makerOrder =
      (app.deals m o).map Deal.maker := by
    rw [same, List.map_map, List.map_map]
    rfl
  have outside : app.heap.orders.fresh ∉ (app.deals m o).map Deal.maker := fun member => by
    rw [same, List.map_map] at member
    obtain ⟨f, inside, atFresh⟩ := List.mem_map.mp member
    exact OrdMap.ne_fresh (opposite.orderLive _ (mem_fillsOf inside).1) atFresh
  -- What the call reports, by the place of the report.
  have reported : ∀ i e, (newReports app o now (app.incomingFills m o))[i]? = some e →
      (app₆.clearScratch.exec (app.execs.fresh + i)).unstamped = e := fun i e at_i => by
    rw [← report_view, view_clearScratch, View.report, reports, ripe.reports,
      show app.execs.fresh = app.view.reports.fresh from (OrdMap.fresh_map _ _).symm]
    exact OrdMap.get_of_find (OrdMap.find_allocs_fresh _ _ at_i)
  have numbered : ∀ (k : Nat) d, (app.deals m o)[k]? = some d → ∃ f, (app.incomingFills m o)[k]? = some f ∧
      d = f.deal app.heap ∧ f.makerId = app.view.maxId m + 2 + 2 * k ∧
      f.sums.sumLots = (((app.deals m o).take (k + 1)).map Deal.lots).sum ∧
      f.sums.sumCost = (((app.deals m o).take (k + 1)).map fun d => cost d.lots d.ticks).sum := fun k d at_k => by
    rw [same, List.getElem?_map] at at_k
    obtain ⟨f, found, rfl⟩ := Option.map_eq_some_iff.mp at_k
    have sums := Fill.number_sums _ _ _ _ found
    rw [Int.zero_add, Int.zero_add] at sums
    refine ⟨f, found, rfl, (Fill.number_at _ _ _ _ found).1.trans (by ring), ?_, ?_⟩
    · rw [same, sums]
      rfl
    · rw [same, sums]
      rfl
  exact
    { limit := fun d member => by
        rw [same] at member
        obtain ⟨f, inside, rfl⟩ := List.mem_map.mp member
        exact (spread_crosses _ _).mp (mem_fillsOf inside).2.2
      positive := fun d member => by
        have inside := List.mem_map_of_mem (f := fun d : Deal => (d.maker, d.lots)) member
        rw [allocations] at inside
        exact Greedy.fill_positive wanted openLots inside
      inOrder := by
        have makers := congrArg (List.map Prod.fst) allocations
        rw [List.map_map] at makers
        rw [show (app.deals m o).map Deal.maker = _ from makers]
        refine (Greedy.fill_prefix _ _).trans ?_
        rw [offers, List.map_map]
        exact (List.map_id _).symm ▸ List.takeWhile_prefix _
      usedUp := fun k d later at_k => by
        have length := congrArg List.length allocations
        rw [List.length_map] at length
        have taken := Greedy.fill_used_up wanted openLots (length ▸ later)
        rw [← allocations, List.getElem?_map, at_k] at taken
        exact (mem_offers (List.mem_of_getElem? taken.symm)).2.1
      total := by
        rw [sum_deals]
        have total := Greedy.total_fill wanted openLots
        rw [show app.makers m o = (app.view.side m o.side.opposite).orders from rfl, total_offers opposite rfl] at total
        exact total
      count := by
        have fresh := congrArg OrdMap.fresh (reports.trans ripe.reports)
        rw [OrdMap.fresh_allocs, newReports, List.length_cons, length_execs] at fresh
        rw [same, List.length_map]
        rw [show app₆.view.reports.fresh = app₆.execs.fresh from OrdMap.fresh_map _ _,
          show app.view.reports.fresh = app.execs.fresh from OrdMap.fresh_map _ _] at fresh
        show app₆.execs.fresh = _
        omega
      makerTrade := fun k d at_k => by
        obtain ⟨f, found, rfl, makerId, -, -⟩ := numbered k d at_k
        rw [show app.execs.fresh + 1 + 2 * k = app.execs.fresh + (2 * k + 1) by ring, reported _ _ (Fill.execs_at found).1,
          Fill.makerExec, makerId, show app.view.maxId m + 2 + 2 * (k : Int) + 1 = app.view.maxId m + 3 + 2 * k by ring]
        rfl
      takerTrade := fun k d at_k => by
        obtain ⟨f, found, rfl, makerId, sumLots, sumCost⟩ := numbered k d at_k
        rw [show app.execs.fresh + 2 + 2 * k = app.execs.fresh + (2 * k + 1 + 1) by ring, reported _ _ (Fill.execs_at found).2,
          Fill.takerExec, makerId, sumLots, sumCost,
          show app.view.maxId m + 2 + 2 * (k : Int) + 1 = app.view.maxId m + 3 + 2 * k by ring]
        have clean : o.execLots = 0 ∧ o.execCost = 0 := by rw [incoming]; exact ⟨rfl, rfl⟩
        simp only [Exec.tradeSum, Exec.make, fresh.1, clean.1, clean.2, Int.zero_add]
        rfl
      makers := fun d member => by
        rw [same] at member
        obtain ⟨f, inside, rfl⟩ := List.mem_map.mp member
        obtain ⟨level, after⟩ := makers _ (List.mem_map_of_mem inside)
        rw [show app₅.order (f.toMatch app.heap m).makerOrder = app.order f.maker from kept f inside] at after
        exact ⟨level, after⟩
      others := fun q differ untouched => by
        rw [← matched] at untouched
        exact (others q untouched).trans (ripe.others q differ)
      taker := by
        rw [← matched] at outside
        obtain ⟨level, order⟩ := ripe.order
        rw [show app₆.clearScratch.order app.heap.orders.fresh = _ from (others _ outside).trans order, ← filledLots,
          ← filledCost]
        exact ⟨rfl, rfl, by rw [filledLots]; exact filledResd⟩ }

/-- A buyer at 101 meets sellers at 100 and at 102. -/
theorem createOrder_priority_buy :
    let a : Symbol := .assign (bytes "MARAYL")
    let m := toMarketId 1 0
    ∃ app resp app', Run App.step (fun _ _ => True) (App.make 16 16)
        [.createMarket 1 (.assign (bytes "EURUSD")) 0 0 0, .createOrder a m [] .sell 5 100 0 7 0,
          .createOrder a m [] .sell 5 102 0 8 0] app ∧
      app.createOrder a m [] .buy 8 101 0 9 0 = .ok resp app' ∧
      app.deals m (app.incoming a m [] .buy 8 101 0 9) = [⟨0, 5, 100⟩] ∧
      ByPriority app app' m (app.incoming a m [] .buy 8 101 0 9) 9
        (app.deals m (app.incoming a m [] .buy 8 101 0 9)) := by
  intro a m
  have made : ∃ app ∈ Run.exec App.step (fun _ _ => True) (App.make 16 16)
      [.createMarket 1 (.assign (bytes "EURUSD")) 0 0 0, .createOrder a m [] .sell 5 100 0 7 0,
        .createOrder a m [] .sell 5 102 0 8 0],
      (∀ q ∈ (app.view.side m .buy).orders, 0 < (app.order q).resdLots) ∧
      (∀ q ∈ (app.view.side m .sell).orders, 0 < (app.order q).resdLots) ∧
      app.deals m (app.incoming a m [] .buy 8 101 0 9) = [⟨0, 5, 100⟩] ∧
      ((app.createOrder a m [] .buy 8 101 0 9 0).returned).isSome := by decide
  obtain ⟨app, run, buy, sell, deals, ok⟩ := made
  obtain ⟨⟨resp, app'⟩, done⟩ := Option.isSome_iff_exists.mp ok
  have run := Run.of_exec run
  have inv := (Inv.make 16 16).run run
  have inOrder : app.InOrder m :=
    { wf := inv.live.wf m
      resdLots := fun s => by cases s; exact buy; exact sell
      matches_ := inv.matches_
      execs_ := inv.execs_ }
  exact ⟨app, resp, app', run, Outcome.eq_ok done, deals, createOrder_priority inOrder (by decide) (Outcome.eq_ok done)⟩

end App

end Swirly
