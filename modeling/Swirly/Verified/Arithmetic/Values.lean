import Swirly.Verified.Arithmetic.Steps

/-!
# What the engine computes

Each computation of an order or of a trade is within the bounds: those of the match phase by the price and the lots of the new
order, those of a level by the lots at its price, and those of the commit loop by what its matches have reserved.
-/

namespace Swirly

open Function MarketSide

variable {limit lots ticks : Int} {v : View} {a : Symbol} {m now : Int} {s : Side} {p : OrderPtr} {reserved : Symbol → Int → Int}

/-! ## Levels -/

theorem composeKey_unwrapped (price : |ticks| ≤ limit) (small : limit < 2 ^ 62) (side : Side) : Unwrapped (composeKey side ticks) := by
  have within : |composeKey side ticks| ≤ limit := by
    cases side with
    | buy =>
      show |-ticks| ≤ limit
      rwa [abs_neg]
    | sell => exact price
  exact unwrapped_of_abs within (by omega)

/-- The lots of a level are open at its price. -/
theorem Live.level_le (live : v.Live) (bounded : Bounded limit reserved v.heap v.posn) {lp : LevelPtr}
    (found : (v.side m s).levels.find (composeKey s ticks) = some lp) :
    (v.heap.level lp).lots ≤ v.heap.openLots (Order.AtPrice m s ticks) := by
  have wf := live.wf m s
  rw [(wf.summary _ _ found).lots]
  refine bounded.sum_le (wf.nodup.filter _) fun q queued => ?_
  obtain ⟨member, key⟩ := mem_queue.mp queued
  have side := wf.orderSide q member
  rw [Heap.key, side] at key
  exact ⟨live.present member, live.market m s q member, side, composeKey_injective s key⟩

/-- A level has the lots of each of its orders. -/
theorem Live.le_level (live : v.Live) (bounded : Bounded limit reserved v.heap v.posn) (member : p ∈ (v.side m s).orders)
    {lp : LevelPtr} (found : (v.side m s).levels.find (v.heap.key p) = some lp) :
    (v.heap.order p).resdLots ≤ (v.heap.level lp).lots := by
  have wf := live.wf m s
  rw [(wf.summary _ _ found).lots]
  refine List.single_le_sum (List.forall_mem_map.mpr fun q queued => ?_) _
    (List.mem_map_of_mem (mem_queue.mpr ⟨member, rfl⟩))
  exact (bounded.orders q (live.present (mem_queue.mp queued).1)).resdLots

/-- The level of an order, before and after lots are taken off the order. -/
theorem Live.level_unwrapped (live : v.Live) (bounded : Bounded limit reserved v.heap v.posn) (member : p ∈ (v.side m s).orders)
    (nonneg : 0 ≤ lots) (enough : lots ≤ (v.heap.order p).resdLots) :
    ∃ lp, (v.heap.order p).level = some lp ∧ Unwrapped ((v.heap.level lp).lots - lots) := by
  have wf := live.wf m s
  obtain ⟨lp, level, found⟩ := wf.pointer p member
  have own := live.le_level bounded member found
  rw [Heap.key, wf.orderSide p member] at found
  have whole := live.level_le bounded found
  have fits := bounded.level m s (v.heap.order p).ticks
  exact ⟨lp, level, unwrapped_iff.mpr ⟨by omega, by omega⟩⟩

theorem removeOrderValues_unwrapped (live : v.Live) (bounded : Bounded limit reserved v.heap v.posn)
    (member : p ∈ (v.side m s).orders) : ∀ x ∈ removeOrderValues v.heap p, Unwrapped x := by
  have priced := bounded.orders p (live.present member)
  obtain ⟨lp, level, rest⟩ := live.level_unwrapped bounded member priced.resdLots le_rfl
  rw [removeOrderValues, level]
  exact List.forall_mem_singleton.mpr rest

theorem takeOrderValues_unwrapped (live : v.Live) (bounded : Bounded limit reserved v.heap v.posn)
    (member : p ∈ (v.side m s).orders) (nonneg : 0 ≤ lots) (enough : lots ≤ (v.heap.order p).resdLots) :
    ∀ x ∈ takeOrderValues v.heap p lots, Unwrapped x := by
  have priced := bounded.orders p (live.present member)
  obtain ⟨lp, level, rest⟩ := live.level_unwrapped bounded member nonneg enough
  rw [takeOrderValues, List.forall_mem_append]
  constructor
  · have removed := removeOrderValues_unwrapped live bounded member
    rw [removeOrderValues, level] at removed
    rw [level]
    show ∀ x ∈ reduceLevelValues v.heap p lp lots, Unwrapped x
    rw [reduceLevelValues]
    split
    · exact List.forall_mem_singleton.mpr rest
    · exact removed
  · exact priced.tradeValues bounded.positive nonneg enough

theorem insertLevelValues_unwrapped {h : Heap} (live : v.Live) (bounded : Bounded limit reserved v.heap v.posn)
    (small : limit < 2 ^ 62) (levels : h.levels = v.heap.levels) (side : (h.order p).side = s) (price : |(h.order p).ticks| ≤ limit)
    (nonneg : 0 ≤ (h.order p).resdLots)
    (fits : v.heap.openLots (Order.AtPrice m s (h.order p).ticks) + (h.order p).resdLots < 2 ^ 63) :
    ∀ x ∈ insertLevelValues h (v.side m s) p, Unwrapped x := by
  rw [insertLevelValues, List.forall_mem_cons]
  refine ⟨composeKey_unwrapped price small _, ?_⟩
  rw [side]
  cases found : (v.side m s).levels.find (composeKey s (h.order p).ticks) with
  | none => exact List.forall_mem_nil _
  | some lp =>
    have same : h.level lp = v.heap.level lp := by rw [Heap.level, levels]; rfl
    have whole := live.level_le bounded found
    have queue := (live.wf m s).summary _ _ found
    have open_ : 0 ≤ (v.heap.level lp).lots := by
      rw [queue.lots]
      exact List.sum_nonneg (List.forall_mem_map.mpr fun q queued =>
        (bounded.orders q (live.present (mem_queue.mp queued).1)).resdLots)
    refine List.forall_mem_singleton.mpr ?_
    rw [same]
    exact unwrapped_iff.mpr ⟨by omega, by omega⟩

namespace App

variable {app : App} {o : Order}

/-! ## The match phase -/

theorem spread_unwrapped {maker : Order} (taker : |o.ticks| ≤ limit) (price : |maker.ticks| ≤ limit) (small : limit < 2 ^ 62)
    (direct : Direct) : Unwrapped (spread o maker direct) := by
  obtain ⟨above, below⟩ := abs_le.mp taker
  obtain ⟨aboveMaker, belowMaker⟩ := abs_le.mp price
  rw [spread]
  split
  · exact unwrapped_iff.mpr ⟨by omega, by omega⟩
  · exact unwrapped_iff.mpr ⟨by omega, by omega⟩

theorem matchLoopValues_unwrapped {h : Heap} (priced : o.Priced limit) (positive : 0 < limit) (small : limit < 2 ^ 62) (direct : Direct)
    {makers : List OrderPtr} (makersPriced : ∀ q ∈ makers, (h.order q).Priced limit) {sums : Sums} (nonneg : 0 ≤ sums.sumLots)
    (enough : sums.sumLots ≤ o.resdLots) (cost : |sums.sumCost| ≤ sums.sumLots * limit) :
    ∀ x ∈ matchLoopValues h o direct makers sums, Unwrapped x := by
  induction makers generalizing sums with
  | nil => exact List.forall_mem_nil _
  | cons q makers inductionHypothesis =>
    obtain ⟨maker, makersPriced⟩ := List.forall_mem_cons.mp makersPriced
    -- The cost of all lots at the highest price bounds every product and sum of the loop.
    have whole : o.resdLots * limit < 2 ^ 63 :=
      lt_of_le_of_lt (mul_le_mul_of_nonneg_right (Int.le_add_of_nonneg_right priced.execLots) positive.le) priced.fits
    have open_ := le_mul_limit positive priced.resdLots
    rw [matchLoopValues]
    dsimp only
    split
    · exact List.forall_mem_nil _
    · rw [List.forall_mem_cons]
      refine ⟨spread_unwrapped priced.ticks maker.ticks small direct, ?_⟩
      split
      · exact List.forall_mem_nil _
      · -- One match, and then the rest of the loop with its totals.
        obtain ⟨lots, matched⟩ : ∃ lots, lots = min (o.resdLots - sums.sumLots) (h.order q).resdLots := ⟨_, rfl⟩
        have makerLots := maker.resdLots
        have bounds : 0 ≤ lots ∧ lots ≤ o.resdLots - sums.sumLots ∧ lots ≤ (h.order q).resdLots := by omega
        have step := cost_within maker.ticks lots
        rw [abs_of_nonneg bounds.1] at step
        have total : |sums.sumCost + Swirly.cost lots (h.order q).ticks| ≤ (sums.sumLots + lots) * limit := by
          rw [add_mul]
          exact (abs_add_le _ _).trans (add_le_add cost step)
        have within (n : Int) (less : n ≤ o.resdLots) : n * limit < 2 ^ 63 :=
          lt_of_le_of_lt (mul_le_mul_of_nonneg_right less positive.le) whole
        rw [← matched, List.forall_mem_append, List.forall_mem_append]
        refine ⟨⟨?_, ?_⟩, inductionHypothesis makersPriced (by show 0 ≤ sums.sumLots + lots; omega)
          (by show sums.sumLots + lots ≤ o.resdLots; omega) total⟩
        · simp only [List.forall_mem_cons]
          exact ⟨unwrapped_iff.mpr ⟨by omega, by omega⟩, unwrapped_iff.mpr ⟨by omega, by omega⟩,
            unwrapped_of_abs step (within _ (by omega)), unwrapped_of_abs total (within _ (by omega)), List.forall_mem_nil _⟩
        · rw [newMatchValues, List.forall_mem_append]
          exact ⟨maker.tradeValues positive bounds.1 bounds.2.2,
            priced.tradeSumValues positive (by omega) (by omega) total⟩

/-- Nothing has been matched before the loop. -/
theorem matchOrdersValues_unwrapped {app₁ : App} (priced : o.Priced limit) (positive : 0 < limit) (small : limit < 2 ^ 62)
    (order : app₁.order p = o) (makers : app₁.makers m o = app.makers m o)
    (same : ∀ q ∈ app.makers m o, app₁.heap.order q = app.heap.order q)
    (makersPriced : ∀ q ∈ app.makers m o, (app.heap.order q).Priced limit) : ∀ x ∈ app₁.matchOrdersValues m p, Unwrapped x := by
  rw [matchOrdersValues, order]
  refine matchLoopValues_unwrapped priced positive small _ (fun q member => ?_) le_rfl priced.resdLots (by simp)
  have listed : q ∈ app.makers m o := makers ▸ member
  rw [same q listed]
  exact makersPriced q listed

/-! ## The commit loop -/

theorem fileTradeValues_view (app : App) (a : Symbol) (m : Int) (e : ExecPtr) :
    app.fileTradeValues (a, m) e = (app.view.posn a m).addTradeValues (app.view.report e).side (app.view.report e).lastLots
      (app.view.report e).lastTicks := by
  rw [report_view]
  rfl

/-- One iteration of the loop. -/
theorem commitMatchValues_unwrapped {x : Match} {more : Int} (live : app.view.Live)
    (bounded : Bounded limit (lone a m (x.lots + more)) app.view.heap app.view.posn)
    (member : x.makerOrder ∈ (app.view.side m s).orders) (nonneg : 0 ≤ x.lots) (later : 0 ≤ more)
    (enough : x.lots ≤ (app.order x.makerOrder).resdLots) (posn : x.makerPosn = ((app.order x.makerOrder).accnt, m))
    (makerTrade : (app.execs.find x.makerTrade).isSome) (dealt : x.Dealt app.view) :
    ∀ y ∈ app.commitMatchValues a m now x, Unwrapped y := by
  rw [commitMatchValues, List.forall_mem_append]
  -- The level and the maker come first, and then the positions.
  refine ⟨takeOrderValues_unwrapped live bounded member nonneg enough, ?_⟩
  obtain ⟨h, side, taken, shrunk⟩ := takeOrder_spec (live.wf m s) member x.lots now
  obtain ⟨app₁, first, view₁, sesss₁, execs₁, heap₁, -, -⟩ := onMarket_takeOrder ((live.wf m s).orderSide _ member) taken
  -- The positions before the match, with its lots reserved for both.
  have shrinks := live.shrinks_take member enough shrunk
  obtain ⟨maker, taker⟩ := bounded.taken live shrinks nonneg later enough dealt
  have price := dealt.price (bounded.orders _ (live.present member))
  have posn₁ : app₁.view.posn = app.view.posn := by
    rw [view₁]
    rfl
  have report₁ (e : ExecPtr) : app₁.view.report e = app.view.report e := by
    rw [view₁]
    rfl
  have made₁ : (app₁.execs.find x.makerTrade).isSome := by
    rw [execs₁]
    exact makerTrade
  have accnt : (app₁.order x.makerOrder).accnt = (app.order x.makerOrder).accnt := by
    rw [App.order, heap₁]
    exact shrinks.same_order.accnt
  obtain ⟨filed, booked⟩ : ∃ filed, filed =
    (app₁.stampPosn x.makerTrade x.makerPosn).fileTrade (app₁.order x.makerOrder).accnt x.makerPosn.2 x.makerTrade := ⟨_, rfl⟩
  rw [first]
  dsimp only
  rw [← booked, List.forall_mem_append, posn, fileTradeValues_view, fileTradeValues_view]
  constructor
  · rw [posn₁, report₁]
    exact maker.fileValues (fun b n => Int.add_nonneg (lone_nonneg later _ _ _ _)
      (lone_nonneg (by rw [dealt.takerLots]; exact nonneg) _ _ _ _)) (by rw [dealt.makerLots]; exact nonneg) price.1
  -- The taker's trade meets the position that the maker's trade has left, should both be of one account.
  · have view : filed.view = app₁.view.fileTrade (app.order x.makerOrder).accnt m x.makerTrade := by
      rw [booked, view_fileTrade, view_stampPosn made₁, posn, accnt]
    have report (e : ExecPtr) : filed.view.report e = app.view.report e := by
      rw [view, ← report₁]
      rfl
    have posns : filed.view.posn =
        addTrade app.view.posn (app.order x.makerOrder).accnt m (app.view.report x.makerTrade) := by
      rw [view, ← posn₁, ← report₁]
      rfl
    rw [posns, report]
    exact taker.fileValues (lone_nonneg later a · m ·) (by rw [dealt.takerLots]; exact nonneg) price.2

/-- The loop. -/
theorem commitMatchesValues_unwrapped {xs : List Match} (live : app.view.Live)
    (bounded : Bounded limit (lone a m (xs.map Match.lots).sum) app.view.heap app.view.posn) (ready : Ready app m s xs)
    (positive : ∀ x ∈ xs, 0 < x.lots) (dealt : ∀ x ∈ xs, x.Dealt app.view) :
    ∀ y ∈ commitMatchesValues a m now xs app, Unwrapped y := by
  induction xs generalizing app with
  | nil => exact List.forall_mem_nil _
  | cons x xs inductionHypothesis =>
    obtain ⟨positiveFirst, positive⟩ := List.forall_mem_cons.mp positive
    obtain ⟨dealtFirst, dealt⟩ := List.forall_mem_cons.mp dealt
    have later : 0 ≤ (xs.map Match.lots).sum :=
      List.sum_nonneg (List.forall_mem_map.mpr fun y member => (positive y member).le)
    have member := ready.listed x List.mem_cons_self
    have enough := ready.lots x List.mem_cons_self
    have posn := ready.posn x List.mem_cons_self
    have makerTrade := ready.makerTrade x List.mem_cons_self
    rw [List.map_cons, List.sum_cons] at bounded
    rw [commitMatchesValues, List.forall_mem_append]
    refine ⟨commitMatchValues_unwrapped live bounded member positiveFirst.le later enough posn makerTrade dealtFirst, ?_⟩
    -- What the other matches need still holds after this one.
    obtain ⟨next, done, committed, present, -⟩ := commitMatch_spec a now live member enough posn makerTrade
      (ready.takerTrade x List.mem_cons_self)
    rw [done]
    exact inductionHypothesis committed.next (committed.bounded bounded positiveFirst.le later enough dealtFirst)
      (ready.next committed present) positive fun y member => committed.dealt (dealt y member)

end App

end Swirly
