import Swirly.Verified.App.Filing
import Swirly.Verified.App.Sound
import Swirly.Verified.Arithmetic.Exposure

/-!
# What a step does to the bounds

The match phase reserves the lots that are filled, and the commit loop files them match by match.
-/

namespace Swirly

open Function MarketSide

variable {limit : Int} {v v' : View} {a : Symbol} {m now : Int} {s : Side}

/-- The trades of a match are for its lots, at the price of the maker. -/
structure Match.Dealt (x : Match) (v : View) : Prop where
  makerLots : (v.report x.makerTrade).lastLots = x.lots
  makerTicks : (v.report x.makerTrade).lastTicks = (v.heap.order x.makerOrder).ticks
  takerLots : (v.report x.takerTrade).lastLots = x.lots
  takerTicks : (v.report x.takerTrade).lastTicks = (v.heap.order x.makerOrder).ticks

theorem Committed.dealt {x y : Match} (committed : Committed a m s now x v v') (dealt : y.Dealt v) : y.Dealt v' := by
  have report (e : ExecPtr) : v'.report e = v.report e := by
    rw [View.report, committed.reports]
    rfl
  have ticks := (committed.kept.same y.makerOrder).ticks
  exact ⟨by rw [report, dealt.makerLots], by rw [report, ticks, dealt.makerTicks], by rw [report, dealt.takerLots],
    by rw [report, ticks, dealt.takerTicks]⟩

theorem Match.Dealt.price {x : Match} (dealt : x.Dealt v) (priced : (v.heap.order x.makerOrder).Priced limit) :
    |(v.report x.makerTrade).lastTicks| ≤ limit ∧ |(v.report x.takerTrade).lastTicks| ≤ limit := by
  rw [dealt.makerTicks, dealt.takerTicks]
  exact ⟨priced.ticks, priced.ticks⟩

/-- The lots of a match leave the maker's order for the two positions, the maker's first. -/
theorem Bounded.taken {x : Match} {more : Int} {stays : Prop} {h : Heap} {side : MarketSide}
    (bounded : Bounded limit (lone a m (x.lots + more)) v.heap v.posn) (live : v.Live)
    (shrinks : Shrinks v m s x.makerOrder stays ((v.heap.order x.makerOrder).trade x.lots (v.heap.order x.makerOrder).ticks now) h side)
    (nonneg : 0 ≤ x.lots) (later : 0 ≤ more) (enough : x.lots ≤ (v.heap.order x.makerOrder).resdLots) (dealt : x.Dealt v) :
    Bounded limit (lone a m more + lone a m (v.report x.takerTrade).lastLots +
        lone (v.heap.order x.makerOrder).accnt m (v.report x.makerTrade).lastLots) h v.posn ∧
      Bounded limit (lone a m more + lone a m (v.report x.takerTrade).lastLots) h
        (addTrade v.posn (v.heap.order x.makerOrder).accnt m (v.report x.makerTrade)) := by
  have present := live.present shrinks.member
  have priced := bounded.orders _ present
  obtain ⟨level, order⟩ := shrinks.order
  -- The lots are reserved for the taker, who has brought them, and for the maker, who has offered them.
  have both : ∀ b n, 0 ≤ (lone a m more + lone a m x.lots) b n := fun b n =>
    Int.add_nonneg (lone_nonneg later _ _ _ _) (lone_nonneg nonneg _ _ _ _)
  have shrunk : Bounded limit (lone a m more + lone a m x.lots + lone (v.heap.order x.makerOrder).accnt m x.lots) h v.posn := by
    have market : (v.heap.order x.makerOrder).marketId = m := (live.home shrinks.member).1
    rw [Int.add_comm, ← lone_add] at bounded
    have shrunk := bounded.shrink present ((shrinks.kept live).alters present fun q differ => shrinks.order_ne differ)
      shrinks.same_order (by rw [order]; exact (priced.trade nonneg enough now).withLevel level) nonneg ?_
    · rwa [market] at shrunk
    · rw [order]
      show (v.heap.order x.makerOrder).resdLots - x.lots + x.lots ≤ (v.heap.order x.makerOrder).resdLots
      omega
  rw [dealt.takerLots]
  refine ⟨by rwa [dealt.makerLots], ?_⟩
  rw [← dealt.makerLots] at shrunk both
  rw [← dealt.makerLots] at nonneg ⊢
  exact shrunk.file both nonneg (dealt.price priced).1

/-- The lots of a match, and then those of the matches that follow. -/
theorem Committed.bounded {x : Match} {more : Int} (committed : Committed a m s now x v v')
    (bounded : Bounded limit (lone a m (x.lots + more)) v.heap v.posn) (nonneg : 0 ≤ x.lots) (later : 0 ≤ more)
    (enough : x.lots ≤ (v.heap.order x.makerOrder).resdLots) (dealt : x.Dealt v) :
    Bounded limit (lone a m more) v'.heap v'.posn := by
  obtain ⟨live, h, side, shrinks, view⟩ := committed
  obtain ⟨-, first⟩ := bounded.taken live shrinks nonneg later enough dealt
  have second := first.file (lone_nonneg later a · m ·) (by rw [dealt.takerLots]; exact nonneg)
    (dealt.price (bounded.orders _ (live.present shrinks.member))).2
  have heap : v'.heap = h := by rw [view]; simp
  have posn : v'.posn = addTrade (addTrade v.posn (v.heap.order x.makerOrder).accnt m (v.report x.makerTrade)) a m
      (v.report x.takerTrade) := by
    obtain ⟨filed, shape⟩ : ∃ filed, filed =
      (v.shrink m s x.makerOrder h side).setLast m x.lots (v.heap.order x.makerOrder).ticks now := ⟨_, rfl⟩
    have report (e : ExecPtr) : filed.report e = v.report e := by
      rw [View.report, shape, View.reports_setLast, View.reports_shrink]
      rfl
    have posn : filed.posn = v.posn := by rw [shape, View.posn_setLast, View.posn_shrink]
    rw [view, ← shape, ← posn, ← report, ← report]
    rfl
  rw [heap, posn]
  exact second

theorem Commits.bounded {xs : List Match} (commits : Commits a m s now xs v v')
    (bounded : Bounded limit (lone a m (xs.map Match.lots).sum) v.heap v.posn) (nodup : (xs.map Match.makerOrder).Nodup)
    (fits : ∀ x ∈ xs, 0 < x.lots ∧ x.lots ≤ (v.heap.order x.makerOrder).resdLots) (dealt : ∀ x ∈ xs, x.Dealt v) :
    Bounded limit 0 v'.heap v'.posn := by
  induction commits with
  | nil =>
    rw [List.map_nil, List.sum_nil, lone_zero] at bounded
    exact bounded
  | @cons x xs v next last first rest inductionHypothesis =>
    obtain ⟨differ, nodup⟩ := List.nodup_cons.mp nodup
    obtain ⟨⟨positive, enough⟩, fits⟩ := List.forall_mem_cons.mp fits
    obtain ⟨dealtFirst, dealt⟩ := List.forall_mem_cons.mp dealt
    have later : 0 ≤ (xs.map Match.lots).sum :=
      List.sum_nonneg (List.forall_mem_map.mpr fun y member => (fits y member).1.le)
    rw [List.map_cons, List.sum_cons] at bounded
    refine inductionHypothesis (first.bounded bounded positive.le later enough dealtFirst) nodup (fun y member => ?_)
      fun y member => first.dealt (dealt y member)
    rw [first.order_ne fun same => differ (same ▸ List.mem_map_of_mem member)]
    exact fits y member

namespace App

variable {app app' : App} {ref : Bytes} {side : Side} {lots ticks minLots busDay : Int} {o : Order}

/-- The cost of some deals. -/
theorem sumCost_within {ds : List Deal} (nonneg : ∀ d ∈ ds, 0 ≤ d.lots) (price : ∀ d ∈ ds, |d.ticks| ≤ limit) :
    |(ds.map fun d => cost d.lots d.ticks).sum| ≤ (ds.map Deal.lots).sum * limit := by
  induction ds with
  | nil => simp
  | cons d ds inductionHypothesis =>
    obtain ⟨nonnegFirst, nonneg⟩ := List.forall_mem_cons.mp nonneg
    obtain ⟨priceFirst, price⟩ := List.forall_mem_cons.mp price
    have first := cost_within priceFirst d.lots
    rw [abs_of_nonneg nonnegFirst] at first
    rw [List.map_cons, List.map_cons, List.sum_cons, List.sum_cons, add_mul]
    exact (abs_add_le _ _).trans (add_le_add first (inductionHypothesis nonneg price))

/-- The makers of an order are present, and their orders are within the limit. -/
theorem Inv.makers_priced (inv : app.Inv) {reserved : Symbol → Int → Int} (bounded : Bounded limit reserved app.heap app.view.posn)
    {q : OrderPtr} (member : q ∈ app.makers m o) : (app.heap.order q).Priced limit :=
  bounded.orders q (inv.live.present member)

/-- A new order, before and after its fills. -/
theorem incoming_priced (nonneg : 0 ≤ lots) (price : |ticks| ≤ limit) (fits : lots * limit < 2 ^ 63)
    (incoming : o = app.incoming a m ref side lots ticks minLots now) : o.Priced limit := by
  subst incoming
  refine ⟨price, nonneg, le_rfl, ?_, ?_⟩
  · show |(0 : Int)| ≤ 0 * limit
    simp
  · show (lots + 0) * limit < 2 ^ 63
    rwa [Int.add_zero]

theorem filled_priced (inv : app.Inv) (sound : app.view.Sound) (bounded : Bounded limit 0 app.heap app.view.posn) (positive : 0 < lots)
    (price : |ticks| ≤ limit) (fits : lots * limit < 2 ^ 63) (incoming : o = app.incoming a m ref side lots ticks minLots now) :
    (filled o now (app.incomingFills m o)).Priced limit := by
  have fresh : o.resdLots = o.lots ∧ o.lots = lots ∧ o.ticks = ticks := by rw [incoming]; exact ⟨rfl, rfl, rfl⟩
  obtain ⟨execLots, execCost, resdLots⟩ := incoming_filled o now incoming
  obtain ⟨filledLots, nonneg, enough⟩ := Sound.fills (m := m) inv sound fresh.1 (by omega)
  have same : app.deals m o = (app.incomingFills m o).map (Fill.deal app.heap) := deals_eq o fresh.1
  -- Each deal is at the price of a maker.
  have deals : ∀ d ∈ app.deals m o, 0 ≤ d.lots ∧ |d.ticks| ≤ limit := by
    rw [same]
    exact List.forall_mem_map.mpr fun f member =>
      ⟨(filledLots f member).le, (inv.makers_priced bounded (mem_fillsOf member).1).ticks⟩
  refine ⟨?_, by omega, by omega, ?_, ?_⟩
  · rw [show (filled o now (app.incomingFills m o)).ticks = o.ticks from filled_same.ticks, fresh.2.2]
    exact price
  · rw [execCost, execLots]
    exact sumCost_within (fun d member => (deals d member).1) fun d member => (deals d member).2
  · have whole : (filled o now (app.incomingFills m o)).resdLots + (filled o now (app.incomingFills m o)).execLots = lots := by omega
    rwa [whole]

/-- The lots that an account has bought, sold and offered in a market. -/
def exposure (app : App) (a : Symbol) (m : Int) : Int :=
  (app.view.posn a m).grossLots + app.heap.openLots (Order.OfAccnt a m)

/-- The lots of a new order, for its account and for its price. -/
structure Fits (app : App) (limit : Int) (a : Symbol) (m : Int) (side : Side) (lots ticks : Int) : Prop where
  positive : 0 < lots
  price : |ticks| ≤ limit
  account : (app.exposure a m + lots) * limit < 2 ^ 63
  level : app.heap.openLots (Order.AtPrice m side ticks) + lots < 2 ^ 63

/-- The lots of a trade, for its account and for its counter-party. -/
structure FitsTrade (app : App) (limit : Int) (a : Symbol) (m lots ticks : Int) (cpty : Symbol) : Prop where
  nonneg : 0 ≤ lots
  price : |ticks| ≤ limit
  account : (app.exposure a m + lots) * limit < 2 ^ 63
  paired : cpty.isEmpty = false → (app.exposure cpty m + if cpty = a then 2 * lots else lots) * limit < 2 ^ 63

/-- What the arithmetic asks of a call. -/
def Limited (limit : Int) (app : App) : Op → Prop
  | .createOrder a m _ side lots ticks _ _ _ => app.Fits limit a m side lots ticks
  | .createTrade a m _ _ lots ticks _ cpty _ => app.FitsTrade limit a m lots ticks cpty
  | _ => True

section Congr

variable (same : app'.view = app.view)

include same

theorem exposure_congr (a : Symbol) (m : Int) : app'.exposure a m = app.exposure a m := by
  have heap : app'.heap = app.heap := congrArg View.heap same
  rw [exposure, exposure, same, heap]

theorem Fits.congr (fits : app.Fits limit a m side lots ticks) : app'.Fits limit a m side lots ticks where
  positive := fits.positive
  price := fits.price
  account := by
    rw [exposure_congr same]
    exact fits.account
  level := by
    have heap : app'.heap = app.heap := congrArg View.heap same
    rw [heap]
    exact fits.level

theorem FitsTrade.congr {cpty : Symbol} (fits : app.FitsTrade limit a m lots ticks cpty) :
    app'.FitsTrade limit a m lots ticks cpty where
  nonneg := fits.nonneg
  price := fits.price
  account := by
    rw [exposure_congr same]
    exact fits.account
  paired present := by
    rw [exposure_congr same]
    exact fits.paired present

theorem Limited.congr {op : Op} (within : Limited limit app op) : Limited limit app' op := by
  cases op with
  | createOrder => exact Fits.congr same within
  | createTrade => exact FitsTrade.congr same within
  | sess | createMarket | updateMarket | changeOrder | archiveExec | archiveTrade | archiveTrades | pop => trivial

end Congr

theorem Limited.positive {op : Op} (within : Limited limit app op) : op.Positive := by
  cases op with
  | createOrder => exact Fits.positive within
  | sess | createMarket | updateMarket | changeOrder | createTrade | archiveExec | archiveTrade | archiveTrades | pop => trivial

theorem Fits.alone (fits : app.Fits limit a m side lots ticks) {reserved : Symbol → Int → Int}
    (bounded : Bounded limit reserved app.heap app.view.posn) : lots * limit < 2 ^ 63 := by
  have gross := (bounded.posns a m).grossLots
  have openLots := bounded.openLots_nonneg (Order.OfAccnt a m)
  have exposure : app.exposure a m = (app.view.posn a m).grossLots + app.heap.openLots (Order.OfAccnt a m) := rfl
  exact lt_of_le_of_lt (mul_le_mul_of_nonneg_right (by omega) bounded.positive.le) fits.account

/-- The lots that are filled are reserved, and the others rest in the book. -/
theorem Placed.bounded (inv : app.Inv) (sound : app.view.Sound) (bounded : Bounded limit 0 app.heap app.view.posn)
    (fits : app.Fits limit a m side lots ticks) (incoming : o = app.incoming a m ref side lots ticks minLots now)
    {h : Heap} {sides : Int → Side → MarketSide} (placed : Placed app a m o now (app.incomingFills m o) h sides) :
    Bounded limit (lone a m ((app.deals m o).map Deal.lots).sum) h app.view.posn := by
  have fresh : o.resdLots = o.lots ∧ o.lots = lots ∧ o.accnt = a ∧ o.marketId = m ∧ o.side = side ∧ o.ticks = ticks := by
    rw [incoming]
    exact ⟨rfl, rfl, rfl, rfl, rfl, rfl⟩
  obtain ⟨-, -, resdLots⟩ := incoming_filled o now incoming
  obtain ⟨-, nonneg, enough⟩ := Sound.fills (m := m) inv sound fresh.1 (by rw [fresh.2.1]; exact fits.positive)
  obtain ⟨level, order⟩ := placed.order
  have same : (h.order app.heap.orders.fresh).Same o := by
    rw [order]
    have same : (filled o now (app.incomingFills m o)).Same o := filled_same
    exact ⟨same.accnt, same.marketId, same.id, same.ref, same.side, same.ticks⟩
  have left : (h.order app.heap.orders.fresh).resdLots = lots - ((app.deals m o).map Deal.lots).sum := by
    rw [order]
    show (filled o now (app.incomingFills m o)).resdLots = _
    rw [resdLots, fresh.2.1]
  -- The call brings its lots: some are filled, and the others are left open.
  have brought : Bounded limit (lone a m ((app.deals m o).map Deal.lots).sum +
      lone a m (lots - ((app.deals m o).map Deal.lots).sum)) app.heap app.view.posn := by
    have both : ((app.deals m o).map Deal.lots).sum + (lots - ((app.deals m o).map Deal.lots).sum) = lots := by omega
    rw [lone_add, both, ← zero_add (lone a m lots)]
    refine bounded.reserve fits.positive.le ?_
    rw [Pi.zero_apply, Pi.zero_apply, Int.add_zero]
    exact fits.account
  have alters : app.heap.Alters h app.heap.orders.fresh :=
    ⟨placed.others, by rw [placed.kept.live, Heap.find_newOrder, if_pos rfl]; rfl⟩
  refine brought.enter (lone_nonneg nonneg a · m ·) (OrdMap.find_fresh _) alters ?_ left ?_ ?_
  · exact ⟨same.accnt.trans fresh.2.2.1, same.marketId.trans fresh.2.2.2.1⟩
  · rw [order]
    exact (filled_priced inv sound bounded fits.positive fits.price (fits.alone bounded) incoming).withLevel level
  · rw [same.side, same.ticks, fresh.2.2.2.2.1, fresh.2.2.2.2.2]
    have less := fits.level
    omega

/-- The trades of the matches, as they are reported. -/
theorem Opened.dealt (inv : app.Inv) (opened : Opened app a m o now (app.incomingFills m o) v) :
    ∀ x ∈ (app.incomingFills m o).map fun f => f.toMatch app.heap m, x.Dealt v := by
  have reports : v.reports = app.view.reports.allocs (newReports app o now (app.incomingFills m o)) := by
    rw [opened.view]
    rfl
  have same : app.view.reports.fresh = app.execs.fresh := OrdMap.fresh_map _ _
  have read := OrdMap.map_get_allocs app.view.reports (newReports app o now (app.incomingFills m o))
  rw [← reports, same] at read
  have trades := incoming_trades app m o now
  rw [newAddresses] at trades
  rw [trades, newReports, List.map_cons] at read
  obtain ⟨-, read⟩ := List.cons.inj read
  -- A maker is not the new order, and its price is the one that was reported.
  refine List.forall_mem_map.mpr fun f member => ?_
  obtain ⟨maker, taker⟩ := Fill.exec_trades read f member
  have ticks : (v.heap.order f.maker).ticks = (app.heap.order f.maker).ticks := by
    rw [opened.placed.order_ne (OrdMap.ne_fresh (inv.live.present (mem_fillsOf member).1))]
  have makerReport : v.report f.makerTrade = f.makerExec app.heap o now := maker
  have takerReport : v.report (f.makerTrade + 1) = f.takerExec app.heap o now := taker
  exact
    { makerLots := congrArg Exec.lastLots makerReport
      makerTicks := (congrArg Exec.lastTicks makerReport).trans ticks.symm
      takerLots := congrArg Exec.lastLots takerReport
      takerTicks := (congrArg Exec.lastTicks takerReport).trans ticks.symm }

theorem sum_matches (o : Order) (open_ : o.resdLots = o.lots) :
    (((app.incomingFills m o).map fun f => f.toMatch app.heap m).map Match.lots).sum = ((app.deals m o).map Deal.lots).sum := by
  rw [deals_eq o open_, List.map_map, List.map_map]
  rfl

theorem Opened.bounded (inv : app.Inv) (sound : app.view.Sound) (bounded : Bounded limit 0 app.view.heap app.view.posn)
    (fits : app.Fits limit a m side lots ticks) (incoming : o = app.incoming a m ref side lots ticks minLots now)
    (opened : Opened app a m o now (app.incomingFills m o) v) :
    Bounded limit (lone a m (((app.incomingFills m o).map fun f => f.toMatch app.heap m).map Match.lots).sum) v.heap v.posn := by
  have posn : v.posn = app.view.posn := by rw [opened.view]
  rw [posn, sum_matches o (by rw [incoming]; rfl)]
  exact Placed.bounded inv sound bounded fits incoming opened.placed

/-! ## Changes of orders -/

variable {change : Change}

theorem Changed.bounded {p : OrderPtr} {e : ExecPtr} (changed : Changed change now p e v v')
    (bounded : Bounded limit 0 v.heap v.posn) (fits : change.Fits (v.heap.order p))
    (less : (change.apply (v.heap.order p) now).resdLots ≤ (v.heap.order p).resdLots) : Bounded limit 0 v'.heap v'.posn := by
  have kept := changed.kept
  have orders (q : OrderPtr) (differ : q ≠ p) : v'.heap.order q = v.heap.order q := changed.order_ne differ
  obtain ⟨level, order⟩ := changed.order
  obtain ⟨live, h, x, shrinks, view⟩ := changed
  have present := live.present shrinks.member
  have priced := (bounded.orders p present).change bounded.positive fits less (live.balance _ _ p shrinks.member)
  have posn : v'.posn = v.posn := by rw [view, View.posn_pushExec, View.posn_shrink]
  have shrunk := bounded.shrink present (kept.alters present orders) (kept.same p)
    (by rw [order]; exact priced.withLevel level) (le_refl (0 : Int)) (by rw [order, Int.add_zero]; exact less)
  rwa [lone_zero, add_zero, ← posn] at shrunk

theorem Changes.bounded {xs : List (ExecPtr × OrderPtr)} (changes : Changes change now xs v v')
    (bounded : Bounded limit 0 v.heap v.posn) (fits : ∀ x ∈ xs, change.Fits (v.heap.order x.2))
    (less : ∀ x ∈ xs, (change.apply (v.heap.order x.2) now).resdLots ≤ (v.heap.order x.2).resdLots) :
    Bounded limit 0 v'.heap v'.posn := by
  induction changes with
  | nil => exact bounded
  | @cons x xs v next last first rest inductionHypothesis =>
    obtain ⟨fitsFirst, fits⟩ := List.forall_mem_cons.mp fits
    obtain ⟨lessFirst, less⟩ := List.forall_mem_cons.mp less
    refine inductionHypothesis (first.bounded bounded fitsFirst lessFirst)
      (fun y member => first.fits fitsFirst (fits y member)) fun y member => ?_
    cases eq_or_ne y.2 x.2 with
    | inl here =>
      -- The same change a second time changes nothing.
      obtain ⟨level, order⟩ := first.order
      rw [here, order, Change.apply_apply]
    | inr differ =>
      rw [first.order_ne differ]
      exact less y member

theorem less_of_check {o : Order} (checked : change.check o = none) (open_ : 0 ≤ o.resdLots) (now : Int) :
    (change.apply o now).resdLots ≤ o.resdLots := by
  cases change with
  | cancel => exact open_
  | revise lots =>
    have bounds := Change.bounds_of_check checked
    show o.resdLots - (o.lots - lots) ≤ o.resdLots
    omega

/-! ## Runs -/

variable {op : Op}

/-- A trade with itself counts twice. -/
theorem FitsTrade.reserve {cpty : Symbol} (fits : app.FitsTrade limit a m lots ticks cpty) (paired : cpty.isEmpty = false)
    (bounded : Bounded limit (lone a m lots) app.view.heap app.view.posn) :
    Bounded limit (lone a m lots + lone cpty m lots) app.view.heap app.view.posn := by
  refine bounded.reserve fits.nonneg ?_
  have fits := fits.paired paired
  rw [exposure] at fits
  rw [lone, Int.add_assoc]
  refine lt_of_eq_of_lt (congrArg (· * limit) (congrArg _ ?_)) fits
  by_cases own : cpty = a
  · rw [if_pos ⟨own, rfl⟩, if_pos own]
    omega
  · rw [if_neg fun here => own here.1, if_neg own, Int.zero_add]

theorem FitsTrade.bounded {cpty : Symbol} (fits : app.FitsTrade limit a m lots ticks cpty)
    (bounded : Bounded limit 0 app.view.heap app.view.posn) : Bounded limit (lone a m lots) app.view.heap app.view.posn := by
  rw [← zero_add (lone a m lots)]
  refine bounded.reserve fits.nonneg ?_
  rw [Pi.zero_apply, Pi.zero_apply, Int.add_zero]
  exact fits.account

theorem Traded.bounded {trade : Exec} {cpty : Symbol} {result : ExecPtr × Option ExecPtr}
    (traded : Traded app a m trade cpty (.ok result app')) (bounded : Bounded limit 0 app.view.heap app.view.posn)
    (fits : app.FitsTrade limit a m trade.lastLots trade.lastTicks cpty) : Bounded limit 0 app'.view.heap app'.view.posn := by
  have fresh : app.view.reports.fresh = app.execs.fresh := OrdMap.fresh_map _ _
  have one := fits.bounded bounded
  cases traded with
  | oneSided alone journal view matches_ execs_ execs =>
    have reserved : Bounded limit (0 + lone a m trade.unstamped.lastLots) app.view.heap app.view.posn := by
      rw [zero_add]
      exact one
    have filed := reserved.file (fun _ _ => le_rfl) fits.nonneg fits.price
    have report : (app.view.reports.alloc trade.unstamped).get app.execs.fresh = trade.unstamped := by
      rw [← fresh]
      exact OrdMap.get_put_self _ _ _
    rw [view]
    rw [← report] at filed
    exact filed
  | twoSided paired journal view matches_ execs_ execs =>
    obtain ⟨other, opposite⟩ : ∃ other, other = (trade.opposite (app.view.maxId m + 2)).unstamped := ⟨_, rfl⟩
    have lots : other.lastLots = trade.lastLots ∧ other.lastTicks = trade.lastTicks := by
      rw [opposite]
      exact ⟨rfl, rfl⟩
    -- The counter-party's trade is filed first.
    have both := fits.reserve paired one
    rw [← lots.1] at both
    have first := both.file (lone_nonneg (by rw [lots.1]; exact fits.nonneg) a · m ·) (by rw [lots.1]; exact fits.nonneg)
      (by rw [lots.2]; exact fits.price)
    rw [lots.1, ← zero_add (lone a m trade.lastLots)] at first
    have second := Bounded.file first (fun _ _ => le_rfl) fits.nonneg fits.price
    rw [← opposite] at view
    obtain ⟨reports, made⟩ : ∃ reports, reports = app.view.reports.allocs [trade.unstamped, other] := ⟨_, rfl⟩
    have read : reports.get app.execs.fresh = trade.unstamped ∧ reports.get (app.execs.fresh + 1) = other := by
      rw [made, ← fresh]
      exact ⟨OrdMap.get_of_find (OrdMap.find_allocs_fresh _ _ (i := 0) rfl),
        OrdMap.get_of_find (OrdMap.find_allocs_fresh _ _ (i := 1) rfl)⟩
    have filed : Bounded limit 0 app.view.heap (addTrade (addTrade app.view.posn cpty m (reports.get (app.execs.fresh + 1))) a m
        (reports.get app.execs.fresh)) := by
      rw [read.1, read.2]
      exact second
    rw [view, ← made]
    exact filed

theorem Effect.bounded (inv : app.Inv) (sound : app.view.Sound) (bounded : Bounded limit 0 app.view.heap app.view.posn)
    (within : Limited limit app op) (effect : Effect app op app') : Bounded limit 0 app'.view.heap app'.view.posn := by
  cases effect with
  | idle grown view execs =>
    rw [view]
    exact bounded
  | posted view archived execs silent =>
    rw [view]
    exact bounded
  | created checked opened commits ledger =>
    exact commits.bounded (opened.bounded inv sound bounded within rfl) (nodup_matches inv _ _)
      (opened.fits inv sound within.positive rfl) (opened.dealt inv)
  | @changed a m change target now _ ps mq held journaled changes execs =>
    have listed (x : ExecPtr × OrderPtr) (member : x ∈ pairs app.execs.fresh ps) : x.2 ∈ ps := by
      have inside := List.mem_map_of_mem (f := Prod.snd) member
      rwa [pairs_snd] at inside
    refine changes.bounded bounded (fun x member => Change.fits_of_check (held x.2 (listed x member)).2) fun x member => ?_
    obtain ⟨holds, checked⟩ := held x.2 (listed x member)
    exact less_of_check checked (bounded.orders _ (inv.live.present holds.member)).resdLots now
  | traded traded => exact traded.bounded bounded within
  | archived view archived owner execs silent =>
    rw [view]
    exact bounded

/-- What holds in every state of a run whose calls stay within the limit. -/
structure Exact (limit : Int) (app : App) : Prop where
  inv : app.Inv
  sound : app.view.Sound
  bounded : Bounded limit 0 app.view.heap app.view.posn

theorem Exact.make (positive : 0 < limit) (capacity maxExecs : Nat) : Exact limit (.make capacity maxExecs) where
  inv := .make capacity maxExecs
  sound := sound_make capacity maxExecs
  bounded := .empty positive

theorem Exact.step (kept : Exact limit app) (within : Limited limit app op) (stepped : app.step op = some app') :
    Exact limit app' where
  inv := kept.inv.step stepped
  sound := kept.inv.sound_step kept.sound within.positive stepped
  bounded := by
    obtain ⟨app₀, view, -, inv, effect, -⟩ := step_effect kept.inv stepped
    exact effect.bounded inv (view ▸ kept.sound) (view ▸ kept.bounded) (within.congr view)

theorem Exact.run {ops : List Op} (kept : Exact limit app) (run : Run App.step (Limited limit) app ops app') : Exact limit app' :=
  run.invariant (I := Exact limit) (fun _ _ _ kept within stepped => kept.step within stepped) kept

end App

end Swirly
