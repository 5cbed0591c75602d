import Swirly.Lob.Arithmetic
import Swirly.Verified.App.Change

/-!
# Bounds on lots and costs

With prices within a limit, costs are within the limit times the lots.  What an account has bought, sold and offered in a market
is counted in lots: trading takes lots off orders and adds them to positions, and nothing else makes more of them than an order
or a trade brings.
-/

namespace Swirly

open Function

variable {limit lots ticks v bound : Int}

theorem unwrapped_iff : Unwrapped v ↔ -2 ^ 63 ≤ v ∧ v < 2 ^ 63 := by
  rw [Unwrapped, Int.bmod_def]
  omega

theorem unwrapped_of_abs (within : |v| ≤ bound) (fits : bound < 2 ^ 63) : Unwrapped v := by
  obtain ⟨above, below⟩ := abs_le.mp within
  exact unwrapped_iff.mpr ⟨by omega, by omega⟩

theorem cost_within (price : |ticks| ≤ limit) (lots : Int) : |cost lots ticks| ≤ |lots| * limit := by
  rw [cost, abs_mul]
  exact mul_le_mul_of_nonneg_left price (abs_nonneg lots)

theorem le_mul_limit (positive : 0 < limit) (nonneg : 0 ≤ lots) : lots ≤ lots * limit :=
  le_mul_of_one_le_right nonneg positive

/-! ## Orders -/

/-- The quantities of an order, with its price and those of its trades within the limit. -/
structure Order.Priced (limit : Int) (o : Order) : Prop where
  ticks : |o.ticks| ≤ limit
  resdLots : 0 ≤ o.resdLots
  execLots : 0 ≤ o.execLots
  execCost : |o.execCost| ≤ o.execLots * limit
  fits : (o.resdLots + o.execLots) * limit < 2 ^ 63

namespace Order.Priced

variable {o : Order} {sumLots sumCost now : Int}

theorem withLevel (priced : o.Priced limit) (level : Option LevelPtr) : ({ o with level } : Order).Priced limit :=
  ⟨priced.ticks, priced.resdLots, priced.execLots, priced.execCost, priced.fits⟩

/-- The cost of an order and of a trade of it. -/
theorem sumCost_within (priced : o.Priced limit) (cost : |sumCost| ≤ sumLots * limit) :
    |o.execCost + sumCost| ≤ (o.execLots + sumLots) * limit := by
  rw [add_mul]
  exact (abs_add_le _ _).trans (add_le_add priced.execCost cost)

theorem tradeSum (priced : o.Priced limit) (nonneg : 0 ≤ sumLots) (enough : sumLots ≤ o.resdLots)
    (cost : |sumCost| ≤ sumLots * limit) (lastLots lastTicks now : Int) :
    (o.tradeSum sumLots sumCost lastLots lastTicks now).Priced limit where
  ticks := priced.ticks
  resdLots := Int.sub_nonneg_of_le enough
  execLots := Int.add_nonneg priced.execLots nonneg
  execCost := priced.sumCost_within cost
  fits := by
    have same : o.resdLots - sumLots + (o.execLots + sumLots) = o.resdLots + o.execLots := by omega
    show (o.resdLots - sumLots + (o.execLots + sumLots)) * limit < 2 ^ 63
    rw [same]
    exact priced.fits

theorem trade (priced : o.Priced limit) (nonneg : 0 ≤ lots) (enough : lots ≤ o.resdLots) (now : Int) :
    (o.trade lots o.ticks now).Priced limit := by
  refine priced.tradeSum nonneg enough ?_ _ _ _
  have within := cost_within priced.ticks lots
  rwa [abs_of_nonneg nonneg] at within

/-- A revision or a cancellation of an order that is open. -/
theorem change (priced : o.Priced limit) (positive : 0 < limit) {change : App.Change} (fits : change.Fits o)
    (less : (change.apply o now).resdLots ≤ o.resdLots) (balance : o.resdLots + o.execLots = o.lots) :
    (change.apply o now).Priced limit := by
  have within : ((change.apply o now).resdLots + o.execLots) * limit ≤ (o.resdLots + o.execLots) * limit :=
    mul_le_mul_of_nonneg_right (by omega) positive.le
  cases change with
  | cancel => exact ⟨priced.ticks, le_rfl, priced.execLots, priced.execCost, lt_of_le_of_lt within priced.fits⟩
  | revise lots =>
    have fits : o.execLots ≤ lots := fits
    have open_ : 0 ≤ o.resdLots - (o.lots - lots) := by omega
    exact ⟨priced.ticks, open_, priced.execLots, priced.execCost, lt_of_le_of_lt within priced.fits⟩

/-- What the order computes when it trades. -/
theorem tradeSumValues (priced : o.Priced limit) (positive : 0 < limit) (nonneg : 0 ≤ sumLots) (enough : sumLots ≤ o.resdLots)
    (cost : |sumCost| ≤ sumLots * limit) : ∀ v ∈ o.tradeSumValues sumLots sumCost, Unwrapped v := by
  have resdLots := priced.resdLots
  have execLots := priced.execLots
  have whole := le_mul_limit positive (Int.add_nonneg resdLots execLots)
  have fits := priced.fits
  have within : (o.execLots + sumLots) * limit ≤ (o.resdLots + o.execLots) * limit :=
    mul_le_mul_of_nonneg_right (by omega) positive.le
  simp only [Order.tradeSumValues, List.forall_mem_cons]
  refine ⟨?_, ?_, ?_, List.forall_mem_nil _⟩
  · exact unwrapped_iff.mpr ⟨by omega, by omega⟩
  · exact unwrapped_iff.mpr ⟨by omega, by omega⟩
  · exact unwrapped_of_abs (priced.sumCost_within cost) (lt_of_le_of_lt within fits)

theorem tradeValues (priced : o.Priced limit) (positive : 0 < limit) (nonneg : 0 ≤ lots) (enough : lots ≤ o.resdLots) :
    ∀ v ∈ o.tradeValues lots o.ticks, Unwrapped v := by
  have cost := cost_within priced.ticks lots
  rw [abs_of_nonneg nonneg] at cost
  have execLots := priced.execLots
  have within : lots * limit ≤ (o.resdLots + o.execLots) * limit := mul_le_mul_of_nonneg_right (by omega) positive.le
  rw [Order.tradeValues, List.forall_mem_cons]
  exact ⟨unwrapped_of_abs cost (lt_of_le_of_lt within priced.fits), priced.tradeSumValues positive nonneg enough cost⟩

end Order.Priced

/-! ## Positions -/

/-- What has been bought and sold. -/
def Posn.grossLots (posn : Posn) : Int := posn.buyLots + posn.sellLots

structure Posn.Priced (limit : Int) (posn : Posn) : Prop where
  buyLots : 0 ≤ posn.buyLots
  sellLots : 0 ≤ posn.sellLots
  buyCost : |posn.buyCost| ≤ posn.buyLots * limit
  sellCost : |posn.sellCost| ≤ posn.sellLots * limit
  netCost : |posn.netCost| ≤ posn.grossLots * limit

namespace Posn

variable {posn : Posn}

theorem grossLots_addTrade (posn : Posn) (side : Side) (lots ticks : Int) :
    (posn.addTrade side lots ticks).grossLots = posn.grossLots + lots := by
  cases side with
  | buy =>
    show posn.buyLots + lots + posn.sellLots = posn.buyLots + posn.sellLots + lots
    omega
  | sell =>
    show posn.buyLots + (posn.sellLots + lots) = posn.buyLots + posn.sellLots + lots
    omega

namespace Priced

theorem make : Posn.make.Priced limit := by
  constructor <;> simp [Posn.make, grossLots]

theorem grossLots (priced : posn.Priced limit) : 0 ≤ posn.grossLots := Int.add_nonneg priced.buyLots priced.sellLots

/-- The three ways in which the net cost moves on. -/
theorem netCost_within (priced : posn.Priced limit) (positive : 0 < limit) (nonneg : 0 ≤ lots) (price : |ticks| ≤ limit) :
    |posn.netCost + Swirly.cost lots ticks| ≤ (posn.grossLots + lots) * limit ∧
      |posn.netCost - Swirly.cost lots ticks| ≤ (posn.grossLots + lots) * limit ∧
      |Swirly.cost (posn.netLots + lots) ticks| ≤ (posn.grossLots + lots) * limit ∧
      |Swirly.cost (posn.netLots - lots) ticks| ≤ (posn.grossLots + lots) * limit := by
  obtain ⟨buyLots, sellLots, -, -, netCost⟩ := priced
  have cost := cost_within price lots
  rw [abs_of_nonneg nonneg] at cost
  have reversed (net : Int) (less : |net| ≤ posn.grossLots + lots) : |Swirly.cost net ticks| ≤ (posn.grossLots + lots) * limit :=
    (cost_within price net).trans (mul_le_mul_of_nonneg_right less positive.le)
  refine ⟨?_, ?_, reversed _ ?_, reversed _ ?_⟩
  · rw [add_mul]
    exact (abs_add_le _ _).trans (add_le_add netCost cost)
  · rw [add_mul]
    exact (abs_sub _ _).trans (add_le_add netCost cost)
  · rw [netLots, Posn.grossLots, abs_le]
    omega
  · rw [netLots, Posn.grossLots, abs_le]
    omega

theorem addTrade (priced : posn.Priced limit) (positive : 0 < limit) (nonneg : 0 ≤ lots) (price : |ticks| ≤ limit)
    (side : Side) : (posn.addTrade side lots ticks).Priced limit := by
  obtain ⟨bought, sold, closedLong, closedShort⟩ := priced.netCost_within positive nonneg price
  have whole : 0 ≤ (posn.grossLots + lots) * limit := (abs_nonneg _).trans bought
  have cost := cost_within price lots
  rw [abs_of_nonneg nonneg] at cost
  have grossLots := posn.grossLots_addTrade side lots ticks
  -- A position that changes sides is worth its lots at the last price.
  cases side with
  | buy =>
    refine ⟨Int.add_nonneg priced.buyLots nonneg, priced.sellLots, ?_, priced.sellCost, ?_⟩
    · show |posn.buyCost + Swirly.cost lots ticks| ≤ (posn.buyLots + lots) * limit
      rw [add_mul]
      exact (abs_add_le _ _).trans (add_le_add priced.buyCost cost)
    · rw [grossLots]
      show |if _ then _ else _| ≤ _
      split
      · exact bought
      · split
        · exact closedLong
        · simpa using whole
  | sell =>
    refine ⟨priced.buyLots, Int.add_nonneg priced.sellLots nonneg, priced.buyCost, ?_, ?_⟩
    · show |posn.sellCost + Swirly.cost lots ticks| ≤ (posn.sellLots + lots) * limit
      rw [add_mul]
      exact (abs_add_le _ _).trans (add_le_add priced.sellCost cost)
    · rw [grossLots]
      show |if _ then _ else _| ≤ _
      split
      · exact sold
      · split
        · exact closedShort
        · simpa using whole

/-- What a position computes when a trade is added. -/
theorem addTradeValues (priced : posn.Priced limit) (positive : 0 < limit) (nonneg : 0 ≤ lots) (price : |ticks| ≤ limit)
    (fits : (posn.grossLots + lots) * limit < 2 ^ 63) (side : Side) :
    ∀ v ∈ posn.addTradeValues side lots ticks, Unwrapped v := by
  obtain ⟨bought, sold, closedLong, closedShort⟩ := priced.netCost_within positive nonneg price
  obtain ⟨buyCost, sellCost⟩ :=
    And.intro (priced.addTrade positive nonneg price .buy).buyCost (priced.addTrade positive nonneg price .sell).sellCost
  obtain ⟨buyLots, sellLots, -, -, -⟩ := priced
  have whole := le_mul_limit positive (Int.add_nonneg (Int.add_nonneg buyLots sellLots) nonneg)
  have gross : posn.grossLots = posn.buyLots + posn.sellLots := rfl
  have net : posn.netLots = posn.buyLots - posn.sellLots := rfl
  rw [← gross] at whole
  have cost : |Swirly.cost lots ticks| ≤ (posn.grossLots + lots) * limit := by
    have within := cost_within price lots
    rw [abs_of_nonneg nonneg] at within
    exact within.trans (mul_le_mul_of_nonneg_right (by omega) positive.le)
  -- Every quantity is at most the gross lots, and every cost at most these at the limit.
  have lots_ (n : Int) (less : |n| ≤ posn.grossLots + lots) : Unwrapped n := unwrapped_of_abs (less.trans whole) fits
  have costs (c : Int) (less : |c| ≤ (posn.grossLots + lots) * limit) : Unwrapped c := unwrapped_of_abs less fits
  cases side with
  | buy =>
    have bought_ : |posn.buyCost + Swirly.cost lots ticks| ≤ (posn.grossLots + lots) * limit :=
      buyCost.trans (mul_le_mul_of_nonneg_right (by show posn.buyLots + lots ≤ _; omega) positive.le)
    rw [Posn.addTradeValues, if_pos rfl, addBuyValues, List.forall_mem_append]
    constructor
    · simp only [List.forall_mem_cons]
      exact ⟨costs _ cost, lots_ _ (abs_le.mpr ⟨by omega, by omega⟩), lots_ _ (abs_le.mpr ⟨by omega, by omega⟩),
        lots_ _ (abs_le.mpr ⟨by omega, by omega⟩), costs _ bought_, List.forall_mem_nil _⟩
    · split
      · exact List.forall_mem_singleton.mpr (costs _ bought)
      · split
        · exact List.forall_mem_singleton.mpr (costs _ closedLong)
        · exact List.forall_mem_nil _
  | sell =>
    have sold_ : |posn.sellCost + Swirly.cost lots ticks| ≤ (posn.grossLots + lots) * limit :=
      sellCost.trans (mul_le_mul_of_nonneg_right (by show posn.sellLots + lots ≤ _; omega) positive.le)
    rw [Posn.addTradeValues, if_neg (by decide), addSellValues, List.forall_mem_append]
    constructor
    · simp only [List.forall_mem_cons]
      exact ⟨costs _ cost, lots_ _ (abs_le.mpr ⟨by omega, by omega⟩), lots_ _ (abs_le.mpr ⟨by omega, by omega⟩),
        lots_ _ (abs_le.mpr ⟨by omega, by omega⟩), costs _ sold_, lots_ _ (abs_le.mpr ⟨by omega, by omega⟩),
        List.forall_mem_nil _⟩
    · split
      · exact List.forall_mem_singleton.mpr (costs _ sold)
      · split
        · exact List.forall_mem_singleton.mpr (costs _ closedShort)
        · exact List.forall_mem_nil _

end Priced

end Posn

end Swirly
