import Swirly.Verified.Conservation

/-!
# Laws of positions

What a list of trades makes of an empty position.  One step is said without the two directions: the net cost is zero when
the position is flat, the cost of what is beyond zero when its sign changes, and otherwise the cost of the trade is added.
-/

namespace Swirly

namespace Posn

/-- A trade, as a position sees it. -/
structure Lot where
  side : Side
  lots : Int
  ticks : Int

namespace Lot

def signed (t : Lot) : Int := signedLots t.side t.lots

def flip (t : Lot) : Lot := { t with side := t.side.opposite }

end Lot

def add (posn : Posn) (t : Lot) : Posn := posn.addTrade t.side t.lots t.ticks

/-- The position after the trades. -/
def after (ts : List Lot) : Posn := ts.foldl add make

def net (ts : List Lot) : Int := (ts.map Lot.signed).sum

@[simp] theorem after_snoc (ts : List Lot) (t : Lot) : after (ts ++ [t]) = (after ts).add t := by
  simp [after]

@[simp] theorem net_snoc (ts : List Lot) (t : Lot) : net (ts ++ [t]) = net ts + t.signed := by
  simp [net]

theorem netLots_add (posn : Posn) (t : Lot) : (posn.add t).netLots = posn.netLots + t.signed :=
  additive_netLots.2 _ _ _ _

theorem netLots_after (ts : List Lot) : (after ts).netLots = net ts := by
  induction ts using List.reverseRecOn with
  | nil => rfl
  | append_singleton ts t inductionHypothesis => rw [after_snoc, net_snoc, netLots_add, inductionHypothesis]

/-! ## One trade -/

/-- The position is flat after the trade, or on the other side of zero. -/
def Crosses (before now : Int) : Prop := now = 0 ∨ before < 0 ∧ 0 < now ∨ 0 < before ∧ now < 0

instance (before now : Int) : Decidable (Crosses before now) := inferInstanceAs (Decidable (_ ∨ _))

theorem netCost_addBuy (posn : Posn) {lots : Int} (positive : 0 < lots) (ticks : Int) :
    (posn.addBuy lots ticks).netCost =
      if Crosses posn.netLots (posn.netLots + lots) then Swirly.cost (posn.netLots + lots) ticks
      else posn.netCost + Swirly.cost lots ticks := by
  simp only [addBuy]
  by_cases extended : posn.netLots + lots < 0 ∨ lots ≤ posn.netLots + lots
  · have stays : ¬ Crosses posn.netLots (posn.netLots + lots) := by
      rw [Crosses]
      omega
    rw [if_pos extended, if_neg stays]
  · -- A long position is never closed by a buy.
    have crosses : Crosses posn.netLots (posn.netLots + lots) := by
      rw [Crosses]
      omega
    rw [if_neg extended, if_pos crosses]
    by_cases opened : 0 < posn.netLots + lots
    · rw [if_pos opened]
    · have flat : posn.netLots + lots = 0 := by omega
      rw [if_neg opened, flat, Swirly.cost, Int.zero_mul]

/-- A position with its sides exchanged. -/
def mirror (posn : Posn) : Posn :=
  { buyLots := posn.sellLots, buyCost := posn.sellCost, sellLots := posn.buyLots, sellCost := posn.buyCost,
    netCost := -posn.netCost }

theorem netLots_mirror (posn : Posn) : posn.mirror.netLots = -posn.netLots := by
  simp only [netLots, mirror]
  omega

theorem addSell_mirror (posn : Posn) (lots ticks : Int) :
    posn.mirror.addSell lots ticks = (posn.addBuy lots ticks).mirror := by
  have net : posn.mirror.netLots = -posn.netLots := netLots_mirror posn
  simp only [addSell, addBuy, net]
  simp only [mirror, mk.injEq, true_and]
  by_cases extended : posn.netLots + lots < 0 ∨ lots ≤ posn.netLots + lots
  · rw [if_pos extended, if_pos (by omega)]
    omega
  · rw [if_neg extended, if_neg (by omega)]
    by_cases opened : 0 < posn.netLots + lots
    · rw [if_pos opened, if_pos (by omega), Swirly.cost, Swirly.cost, ← Int.neg_mul]
      congr 1
      omega
    · rw [if_neg opened, if_neg (by omega), Int.neg_zero]

@[simp] theorem mirror_mirror (posn : Posn) : posn.mirror.mirror = posn := by
  simp [mirror]

theorem add_flip (posn : Posn) (t : Lot) : posn.mirror.add t.flip = (posn.add t).mirror := by
  obtain ⟨side, lots, ticks⟩ := t
  cases side with
  | buy => exact addSell_mirror posn lots ticks
  | sell =>
    have mirrored := addSell_mirror posn.mirror lots ticks
    rw [mirror_mirror] at mirrored
    show posn.mirror.addBuy lots ticks = (posn.addSell lots ticks).mirror
    rw [mirrored, mirror_mirror]

theorem netCost_add (posn : Posn) {t : Lot} (positive : 0 < t.lots) :
    (posn.add t).netCost =
      if Crosses posn.netLots (posn.netLots + t.signed) then Swirly.cost (posn.netLots + t.signed) t.ticks
      else posn.netCost + Swirly.cost t.signed t.ticks := by
  obtain ⟨side, lots, ticks⟩ := t
  cases side with
  | buy => exact netCost_addBuy posn positive ticks
  | sell =>
    -- A sell is a buy of the mirrored position.
    have mirrored := addSell_mirror posn.mirror lots ticks
    rw [mirror_mirror] at mirrored
    have some_ : 0 < lots := positive
    have bought := netCost_addBuy posn.mirror some_ ticks
    have crosses : Crosses posn.mirror.netLots (posn.mirror.netLots + lots) ↔ Crosses posn.netLots (posn.netLots + -lots) := by
      rw [netLots_mirror]
      simp only [Crosses]
      omega
    show (posn.addSell lots ticks).netCost = if Crosses posn.netLots (posn.netLots + -lots) then
        Swirly.cost (posn.netLots + -lots) ticks else posn.netCost + Swirly.cost (-lots) ticks
    rw [mirrored]
    show -(posn.mirror.addBuy lots ticks).netCost = _
    rw [bought, netLots_mirror]
    by_cases crossed : Crosses posn.netLots (posn.netLots + -lots)
    · rw [if_pos crossed, if_pos (by rw [← netLots_mirror]; exact crosses.mpr crossed), Swirly.cost, Swirly.cost,
        ← Int.neg_mul]
      congr 1
      omega
    · rw [if_neg crossed, if_neg (by rw [← netLots_mirror]; exact fun held => crossed (crosses.mp held)), Swirly.cost,
        Swirly.cost, Int.neg_mul]
      show -(-posn.netCost + lots * ticks) = posn.netCost + -(lots * ticks)
      omega

theorem ext_totals {p q : Posn} (buyLots : p.buyLots = q.buyLots) (buyCost : p.buyCost = q.buyCost)
    (sellLots : p.sellLots = q.sellLots) (sellCost : p.sellCost = q.sellCost) (netCost : p.netCost = q.netCost) : p = q := by
  cases p
  cases q
  simp only [mk.injEq] at *
  exact ⟨buyLots, buyCost, sellLots, sellCost, netCost⟩

/-- Two trades at one price are one trade of their lots. -/
theorem add_split (posn : Posn) (side : Side) {a b : Int} (first : 0 < a) (second : 0 < b) (ticks : Int) :
    (posn.add ⟨side, a, ticks⟩).add ⟨side, b, ticks⟩ = posn.add ⟨side, a + b, ticks⟩ := by
  obtain ⟨m, left⟩ : ∃ m, m = signedLots side a := ⟨_, rfl⟩
  obtain ⟨n, right⟩ : ∃ n, n = signedLots side b := ⟨_, rfl⟩
  have whole : signedLots side (a + b) = m + n := by
    rw [left, right]
    cases side <;> simp only [signedLots, if_true, reduceCtorEq, if_false]
    omega
  have direction : 0 < m ∧ 0 < n ∨ m < 0 ∧ n < 0 := by
    rw [left, right]
    cases side <;> simp only [signedLots, if_true, reduceCtorEq, if_false] <;> omega
  have netCost : ((posn.add ⟨side, a, ticks⟩).add ⟨side, b, ticks⟩).netCost = (posn.add ⟨side, a + b, ticks⟩).netCost := by
    have one := netCost_add posn (t := ⟨side, a, ticks⟩) first
    have two := netCost_add (posn.add ⟨side, a, ticks⟩) (t := ⟨side, b, ticks⟩) second
    have both := netCost_add posn (t := ⟨side, a + b, ticks⟩) (by show 0 < a + b; omega)
    rw [netLots_add] at two
    simp only [Lot.signed, whole, ← left, ← right, ← add_assoc] at one two both
    rw [two, one, both]
    simp only [Swirly.cost, add_mul]
    by_cases later : Crosses (posn.netLots + m) (posn.netLots + m + n)
    · have crosses : Crosses posn.netLots (posn.netLots + m + n) := by
        rw [Crosses] at later ⊢
        omega
      rw [if_pos later, if_pos crosses]
    · rw [if_neg later]
      by_cases earlier : Crosses posn.netLots (posn.netLots + m)
      · have crosses : Crosses posn.netLots (posn.netLots + m + n) := by
          rw [Crosses] at later earlier ⊢
          omega
        rw [if_pos earlier, if_pos crosses]
      · have stays : ¬ Crosses posn.netLots (posn.netLots + m + n) := by
          rw [Crosses] at later earlier ⊢
          omega
        rw [if_neg earlier, if_neg stays, add_assoc]
  apply ext_totals _ _ _ _ netCost
  all_goals
    cases side <;> simp [add, addTrade, addBuy, addSell, Swirly.cost, add_mul, add_assoc]

/-! ## All trades -/

/-- The signed cost of trades. -/
def signedCost (ts : List Lot) : Int := (ts.map fun t => Swirly.cost t.signed t.ticks).sum

/-- The position is flat after the trades, or the last of them has changed its sign. -/
def Turned (ts : List Lot) : Prop := net ts = 0 ∨ ∃ before t, ts = before ++ [t] ∧ Crosses (net before) (net ts)

/-- What is beyond zero after the trade that has flipped the position, at its price: nothing if it is flat. -/
def beyond (ts : List Lot) : Int := Swirly.cost (net ts) ((ts.getLast?.map Lot.ticks).getD 0)

theorem turned_snoc (ts : List Lot) (t : Lot) : Turned (ts ++ [t]) ↔ Crosses (net ts) (net (ts ++ [t])) := by
  constructor
  · rintro (flat | ⟨before, last, same, crosses⟩)
    · exact .inl flat
    · obtain ⟨rfl, -⟩ := List.append_inj' same rfl
      exact crosses
  · intro crosses
    exact .inr ⟨ts, t, rfl, crosses⟩

/-- The net cost is the cost of the trades since the position was last flat or has changed its sign. -/
theorem netCost_after {ts : List Lot} (positive : ∀ t ∈ ts, 0 < t.lots) :
    ∃ before recent, ts = before ++ recent ∧ Turned before ∧
      (∀ first rest, recent = first ++ rest → first ≠ [] → ¬ Turned (before ++ first)) ∧
      (after ts).netCost = beyond before + signedCost recent := by
  induction ts using List.reverseRecOn with
  | nil =>
    refine ⟨[], [], rfl, .inl rfl, ?_, rfl⟩
    intro first rest split some_
    exact absurd (List.append_eq_nil_iff.mp split.symm).1 some_
  | append_singleton ts t inductionHypothesis =>
    have step := netCost_add (after ts) (positive t (by simp))
    rw [netLots_after, ← net_snoc, ← after_snoc] at step
    by_cases turned : Turned (ts ++ [t])
    · refine ⟨ts ++ [t], [], by simp, turned, ?_, ?_⟩
      · intro first rest split some_
        exact absurd (List.append_eq_nil_iff.mp split.symm).1 some_
      · rw [step, if_pos ((turned_snoc ts t).mp turned)]
        simp [beyond, signedCost]
    · obtain ⟨before, recent, rfl, start, quiet, cost⟩ :=
        inductionHypothesis fun t member => positive t (List.mem_append_left _ member)
      refine ⟨before, recent ++ [t], by simp, start, ?_, ?_⟩
      · intro first rest split some_
        cases rest using List.reverseRecOn with
        | nil =>
          rw [List.append_nil] at split
          rw [← split, ← List.append_assoc]
          exact turned
        | append_singleton rest last =>
          rw [← List.append_assoc] at split
          obtain ⟨same, -⟩ := List.append_inj' split rfl
          exact quiet first rest same some_
      · rw [step, if_neg fun crosses => turned ((turned_snoc _ t).mpr crosses), cost]
        simp [signedCost, add_assoc]

theorem after_flip (ts : List Lot) : after (ts.map Lot.flip) = (after ts).mirror := by
  induction ts using List.reverseRecOn with
  | nil => rfl
  | append_singleton ts t inductionHypothesis =>
    rw [List.map_append, List.map_singleton, after_snoc, after_snoc, inductionHypothesis, add_flip]

theorem after_split (before later : List Lot) (side : Side) {a b : Int} (first : 0 < a) (second : 0 < b) (ticks : Int) :
    after (before ++ ⟨side, a, ticks⟩ :: ⟨side, b, ticks⟩ :: later) = after (before ++ ⟨side, a + b, ticks⟩ :: later) := by
  simp only [after, List.foldl_append, List.foldl_cons, add_split _ side first second]

theorem netCost_of_flat {ts : List Lot} (positive : ∀ t ∈ ts, 0 < t.lots) (flat : (after ts).netLots = 0) :
    (after ts).netCost = 0 := by
  rw [netLots_after] at flat
  cases ts using List.reverseRecOn with
  | nil => rfl
  | append_singleton ts t =>
    have step := netCost_add (after ts) (positive t (by simp))
    rw [netLots_after, ← net_snoc, ← after_snoc, flat, if_pos (.inl rfl)] at step
    rw [step, Swirly.cost, Int.zero_mul]

theorem laws {ts : List Lot} (positive : ∀ t ∈ ts, 0 < t.lots) :
    ((after ts).netLots = 0 → (after ts).netCost = 0) ∧
    ((after (ts.map Lot.flip)).netLots = -(after ts).netLots ∧
      (after (ts.map Lot.flip)).netCost = -(after ts).netCost ∧
      (after (ts.map Lot.flip)).buyLots = (after ts).sellLots ∧ (after (ts.map Lot.flip)).buyCost = (after ts).sellCost ∧
      (after (ts.map Lot.flip)).sellLots = (after ts).buyLots ∧
      (after (ts.map Lot.flip)).sellCost = (after ts).buyCost) ∧
    (∀ before later side a b ticks, 0 < a → 0 < b → ts = before ++ ⟨side, a + b, ticks⟩ :: later →
      after (before ++ ⟨side, a, ticks⟩ :: ⟨side, b, ticks⟩ :: later) = after ts) ∧
    ∃ before recent, ts = before ++ recent ∧ Turned before ∧
      (∀ first rest, recent = first ++ rest → first ≠ [] → ¬ Turned (before ++ first)) ∧
      (after ts).netCost = beyond before + signedCost recent := by
  refine ⟨netCost_of_flat positive, ?_, ?_, netCost_after positive⟩
  · rw [after_flip]
    exact ⟨netLots_mirror _, rfl, rfl, rfl, rfl, rfl⟩
  · intro before later side a b ticks first second whole
    rw [whole]
    exact after_split before later side first second ticks

/-- A long position of ten lots is sold through zero. -/
theorem laws_flipped :
    (after [⟨.buy, 10, 5⟩, ⟨.sell, 15, 7⟩]).netCost = -35 ∧
      after [⟨.buy, 10, 5⟩, ⟨.sell, 4, 7⟩, ⟨.sell, 11, 7⟩] = after [⟨.buy, 10, 5⟩, ⟨.sell, 15, 7⟩] := by
  have positive : ∀ t ∈ [(⟨.buy, 10, 5⟩ : Lot), ⟨.sell, 15, 7⟩], 0 < t.lots := by
    intro t member
    cases member with
    | head => decide
    | tail _ member =>
      cases member with
      | head => decide
      | tail _ member => cases member
  exact ⟨by decide, (laws positive).2.2.1 [⟨.buy, 10, 5⟩] [] .sell 4 11 7 (by decide) (by decide) rfl⟩

end Posn

end Swirly
