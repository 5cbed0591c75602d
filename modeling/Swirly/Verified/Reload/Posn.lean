import Mathlib
import Swirly.Db.ReadPosn

/-!
# Reloading a position

A live position takes its trades one at a time, and forgets what it has paid whenever it is flattened or reversed.  The
position that is read back is made from the totals of the two sides.  The two have the same net cost exactly when the
results that were realised on the way add up to nothing.
-/

namespace Swirly

namespace TradeRow

/-- The change of the net lots. -/
def delta (t : TradeRow) : Int := if t.side = .buy then t.lastLots else -t.lastLots

end TradeRow

/-- The live position after the trades. -/
def livePosn (trades : List TradeRow) : Posn :=
  trades.foldl (fun posn t => posn.addTrade t.side t.lastLots t.lastTicks) .make

/-- The results of the trades that flatten or reverse a position of `net` lots, which has cost `paid`: what the position
is worth at the price of the trade, less what it has cost. -/
def realised : Int → Int → List TradeRow → Int
  | _, _, [] => 0
  | net, paid, t :: ts =>
    if (net < 0 ∧ 0 ≤ net + t.delta) ∨ (0 < net ∧ net + t.delta ≤ 0) then
      net * t.lastTicks - paid + realised (net + t.delta) ((net + t.delta) * t.lastTicks) ts
    else realised (net + t.delta) (paid + t.delta * t.lastTicks) ts

namespace Posn

/-- What the totals of the two sides say about the net cost. -/
def balance (posn : Posn) : Int := posn.buyCost - posn.sellCost

variable (posn : Posn) (t : TradeRow)

theorem netLots_addTrade (side : Side) (lots ticks : Int) :
    (posn.addTrade side lots ticks).netLots = posn.netLots + if side = .buy then lots else -lots := by
  cases side with
  | buy =>
    simp only [addTrade, addBuy, netLots, if_true]
    ring
  | sell =>
    simp only [addTrade, addSell, netLots, reduceCtorEq, if_false]
    ring

theorem balance_addTrade :
    (posn.addTrade t.side t.lastLots t.lastTicks).balance = posn.balance + t.delta * t.lastTicks := by
  unfold TradeRow.delta
  cases t.side with
  | buy =>
    simp only [addTrade, addBuy, balance, cost, if_true]
    ring
  | sell =>
    simp only [addTrade, addSell, balance, cost, reduceCtorEq, if_false]
    ring

/-- The net cost starts again when a trade flattens or reverses the position. -/
theorem netCost_addTrade (positive : 0 < t.lastLots) :
    (posn.addTrade t.side t.lastLots t.lastTicks).netCost =
      if (posn.netLots < 0 ∧ 0 ≤ posn.netLots + t.delta) ∨ (0 < posn.netLots ∧ posn.netLots + t.delta ≤ 0) then
        (posn.netLots + t.delta) * t.lastTicks
      else posn.netCost + t.delta * t.lastTicks := by
  unfold TradeRow.delta
  cases t.side with
  | buy =>
    simp only [addTrade, addBuy, cost, if_true]
    split
    next extends_ => rw [if_neg (by omega)]
    next closes =>
      have reached : posn.netLots < 0 ∧ 0 ≤ posn.netLots + t.lastLots := by omega
      rw [if_pos (Or.inl reached)]
      split
      next => rfl
      next flat => rw [show posn.netLots + t.lastLots = 0 by omega, zero_mul]
  | sell =>
    simp only [addTrade, addSell, cost, reduceCtorEq, if_false, ← sub_eq_add_neg]
    split
    next extends_ =>
      rw [if_neg (by omega)]
      ring
    next closes =>
      have reached : 0 < posn.netLots ∧ posn.netLots - t.lastLots ≤ 0 := by omega
      rw [if_pos (Or.inr reached)]
      split
      next => rfl
      next flat => rw [show posn.netLots - t.lastLots = 0 by omega, zero_mul]

end Posn

/-- Each realised result sets the live net cost apart from the totals. -/
theorem netCost_foldl (trades : List TradeRow) (posn : Posn) (positive : ∀ t ∈ trades, 0 < t.lastLots) :
    let live := trades.foldl (fun posn t => posn.addTrade t.side t.lastLots t.lastTicks) posn
    live.netCost = live.balance - posn.balance + posn.netCost + realised posn.netLots posn.netCost trades := by
  induction trades generalizing posn with
  | nil => simp [realised]
  | cons t trades inductionHypothesis =>
    obtain ⟨positiveFirst, positive⟩ := List.forall_mem_cons.mp positive
    have later := inductionHypothesis (posn.addTrade t.side t.lastLots t.lastTicks) positive
    have netLots : (posn.addTrade t.side t.lastLots t.lastTicks).netLots = posn.netLots + t.delta :=
      posn.netLots_addTrade _ _ _
    simp only [List.foldl_cons] at later ⊢
    rw [later, posn.balance_addTrade, posn.netCost_addTrade t positiveFirst, netLots, realised]
    split
    next => ring
    next => ring

/-- A flat position has no net cost. -/
theorem netCost_flat (trades : List TradeRow) (positive : ∀ t ∈ trades, 0 < t.lastLots)
    (flat : (livePosn trades).netLots = 0) : (livePosn trades).netCost = 0 := by
  suffices kept : ∀ (trades : List TradeRow) (posn : Posn), (∀ t ∈ trades, 0 < t.lastLots) →
      (posn.netLots = 0 → posn.netCost = 0) →
      let live := trades.foldl (fun posn t => posn.addTrade t.side t.lastLots t.lastTicks) posn
      live.netLots = 0 → live.netCost = 0 from kept trades .make positive (fun _ => rfl) flat
  intro trades
  induction trades with
  | nil => exact fun posn _ start => start
  | cons t trades inductionHypothesis =>
    intro posn positive start
    obtain ⟨positiveFirst, positive⟩ := List.forall_mem_cons.mp positive
    refine inductionHypothesis _ positive fun flat => ?_
    rw [posn.netLots_addTrade, show (if t.side = .buy then t.lastLots else -t.lastLots) = t.delta from rfl] at flat
    have nonzero : t.delta ≠ 0 := by
      unfold TradeRow.delta
      split <;> omega
    rw [posn.netCost_addTrade t positiveFirst, if_pos (by omega), flat, zero_mul]

/-- The totals of the live position. -/
theorem totals_foldl (trades : List TradeRow) (posn : Posn) :
    let live := trades.foldl (fun posn t => posn.addTrade t.side t.lastLots t.lastTicks) posn
    live.buyLots = posn.buyLots + ((trades.filter fun t => t.side = .buy).map TradeRow.lastLots).sum ∧
    live.buyCost = posn.buyCost + ((trades.filter fun t => t.side = .buy).map fun t => t.lastLots * t.lastTicks).sum ∧
    live.sellLots = posn.sellLots + ((trades.filter fun t => t.side = .sell).map TradeRow.lastLots).sum ∧
    live.sellCost = posn.sellCost + ((trades.filter fun t => t.side = .sell).map fun t => t.lastLots * t.lastTicks).sum := by
  induction trades generalizing posn with
  | nil => simp
  | cons t trades inductionHypothesis =>
    obtain ⟨buyLots, buyCost, sellLots, sellCost⟩ := inductionHypothesis (posn.addTrade t.side t.lastLots t.lastTicks)
    simp only [List.foldl_cons]
    rw [buyLots, buyCost, sellLots, sellCost]
    cases side : t.side with
    | buy => simp [Posn.addTrade, Posn.addBuy, side, cost, Int.add_assoc]
    | sell => simp [Posn.addTrade, Posn.addSell, side, cost, Int.add_assoc]

/-- What is read back does not depend on the order of the rows. -/
theorem readPosn_perm {rows rows' : List PosnRow} (delivered : rows.Perm rows') : readPosn rows = readPosn rows' := by
  apply delivered.foldl_eq'
  intro row _ row' _ posn
  cases row.side with
  | buy =>
    cases row'.side with
    | buy =>
      simp only [if_true, Posn.addBuyCost, Posn.mk.injEq, true_and]
      exact ⟨Int.add_right_comm _ _ _, Int.add_right_comm _ _ _, by rw [Int.add_right_comm]⟩
    | sell =>
      simp only [if_true, reduceCtorEq, if_false, Posn.addBuyCost, Posn.addSellCost]
  | sell =>
    cases row'.side with
    | buy =>
      simp only [if_true, reduceCtorEq, if_false, Posn.addBuyCost, Posn.addSellCost]
    | sell =>
      simp only [reduceCtorEq, if_false, Posn.addSellCost, Posn.mk.injEq, true_and]
      exact ⟨Int.add_right_comm _ _ _, Int.add_right_comm _ _ _, by rw [Int.add_right_comm]⟩

/-- A side without trades has no row, and one without a row adds nothing. -/
theorem readPosn_posnView (trades : List TradeRow) :
    readPosn (posnView trades) = { livePosn trades with netCost := (livePosn trades).balance } := by
  obtain ⟨buyLots, buyCost, sellLots, sellCost⟩ := totals_foldl trades .make
  change _ = Posn.mk (livePosn trades).buyLots (livePosn trades).buyCost (livePosn trades).sellLots
    (livePosn trades).sellCost ((livePosn trades).buyCost - (livePosn trades).sellCost)
  rw [show (livePosn trades).buyLots = _ from buyLots, show (livePosn trades).buyCost = _ from buyCost,
    show (livePosn trades).sellLots = _ from sellLots, show (livePosn trades).sellCost = _ from sellCost]
  cases buys : trades.filter fun t => t.side = .buy with
  | nil =>
    cases sells : trades.filter fun t => t.side = .sell with
    | nil => simp [readPosn, posnView, buys, sells, Posn.make]
    | cons => simp [readPosn, posnView, buys, sells, Posn.make, Posn.addSellCost]
  | cons =>
    cases sells : trades.filter fun t => t.side = .sell with
    | nil => simp [readPosn, posnView, buys, sells, Posn.make, Posn.addBuyCost]
    | cons => simp [readPosn, posnView, buys, sells, Posn.make, Posn.addBuyCost, Posn.addSellCost]

/-- A position that is read back is the live one, and a flat one has no net cost, exactly when the results of the trades
that flattened or reversed the live position add up to nothing. -/
theorem readPosn_eq_livePosn_iff (trades : List TradeRow) (rows : List PosnRow) (positive : ∀ t ∈ trades, 0 < t.lastLots)
    (delivered : rows.Perm (posnView trades)) :
    (readPosn rows = livePosn trades ∧
      ((livePosn trades).netLots = 0 → (livePosn trades).netCost = 0 ∧ (readPosn rows).netCost = 0)) ↔
      realised 0 0 trades = 0 := by
  have netCost : (livePosn trades).netCost = (livePosn trades).balance + realised 0 0 trades := by
    have folded := netCost_foldl trades .make positive
    simpa [livePosn, Posn.balance, Posn.make, Posn.netLots] using folded
  rw [readPosn_perm delivered, readPosn_posnView]
  constructor
  next =>
    intro ⟨same, _⟩
    have sameCost : (livePosn trades).balance = (livePosn trades).netCost := congrArg Posn.netCost same
    omega
  next =>
    intro nothing
    have sameCost : (livePosn trades).balance = (livePosn trades).netCost := by omega
    rw [sameCost]
    exact ⟨rfl, fun flat => ⟨netCost_flat trades positive flat, netCost_flat trades positive flat⟩⟩

/-- Part of a long position is sold at a profit, with the rows delivered sell side first. -/
theorem readPosn_reduced :
    (readPosn [⟨.sell, 4, 440⟩, ⟨.buy, 10, 1000⟩] = livePosn [⟨.buy, 10, 100⟩, ⟨.sell, 4, 110⟩] ∧
      ((livePosn [⟨.buy, 10, 100⟩, ⟨.sell, 4, 110⟩]).netLots = 0 →
        (livePosn [⟨.buy, 10, 100⟩, ⟨.sell, 4, 110⟩]).netCost = 0 ∧
        (readPosn [⟨.sell, 4, 440⟩, ⟨.buy, 10, 1000⟩]).netCost = 0)) ∧
    realised 0 0 [⟨.buy, 10, 100⟩, ⟨.sell, 4, 110⟩] = 0 := by
  have agrees := readPosn_eq_livePosn_iff [⟨.buy, 10, 100⟩, ⟨.sell, 4, 110⟩] [⟨.sell, 4, 440⟩, ⟨.buy, 10, 1000⟩]
    (by decide) (by decide)
  exact ⟨agrees.mpr (by decide), by decide⟩

/-- Ten lots are bought at 100 and sold at 110: the live position is flat and costs nothing, but what is read back of it
costs -100. -/
theorem readPosn_round_trip :
    (∀ t ∈ [(⟨.buy, 10, 100⟩ : TradeRow), ⟨.sell, 10, 110⟩], 0 < t.lastLots) ∧
    (livePosn [⟨.buy, 10, 100⟩, ⟨.sell, 10, 110⟩]).netLots = 0 ∧
    (livePosn [⟨.buy, 10, 100⟩, ⟨.sell, 10, 110⟩]).netCost = 0 ∧
    (readPosn (posnView [⟨.buy, 10, 100⟩, ⟨.sell, 10, 110⟩])).netCost = -100 := by
  decide

end Swirly
