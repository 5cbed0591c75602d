import Swirly.Verified.Arithmetic.Bounded

/-!
# Exposure

The lots that an account has bought, sold and offered in a market.  Between an order and a position, lots are reserved: a trade
takes them off the order, or off what the call has brought, and files them later.
-/

namespace Swirly

open Function MarketSide

/-- The open lots of the orders of a kind. -/
def Heap.openLots (h : Heap) (kind : Order → Prop) [DecidablePred kind] : Int :=
  h.orders.sum fun o => if kind o then o.resdLots else 0

def Order.OfAccnt (a : Symbol) (m : Int) (o : Order) : Prop := o.accnt = a ∧ o.marketId = m

def Order.AtPrice (m : Int) (s : Side) (t : Int) (o : Order) : Prop := o.marketId = m ∧ o.side = s ∧ o.ticks = t

instance (a : Symbol) (m : Int) : DecidablePred (Order.OfAccnt a m) := fun _ => inferInstanceAs (Decidable (_ ∧ _))

instance (m : Int) (s : Side) (t : Int) : DecidablePred (Order.AtPrice m s t) := fun _ => inferInstanceAs (Decidable (_ ∧ _))

namespace Order.Same

variable {o o' : Order}

theorem ofAccnt (same : o'.Same o) (a : Symbol) (m : Int) : o'.OfAccnt a m ↔ o.OfAccnt a m := by
  rw [OfAccnt, OfAccnt, same.accnt, same.marketId]

theorem atPrice (same : o'.Same o) (m : Int) (s : Side) (t : Int) : o'.AtPrice m s t ↔ o.AtPrice m s t := by
  rw [AtPrice, AtPrice, same.marketId, same.side, same.ticks]

end Order.Same

variable {limit : Int} {h h' : Heap} {p : OrderPtr} {kind : Order → Prop} [DecidablePred kind]

/-- The other orders are the same. -/
structure Heap.Alters (h h' : Heap) (p : OrderPtr) : Prop where
  others : ∀ q, q ≠ p → h'.orders.find q = h.orders.find q
  present : (h'.orders.find p).isSome

theorem Heap.Alters.orders (alters : h.Alters h' p) : h'.orders = h.orders.put p (h'.order p) := by
  refine OrdMap.ext_find fun q => ?_
  cases eq_or_ne q p with
  | inl here =>
    rw [here, OrdMap.find_put_self]
    exact OrdMap.find_eq_some_get alters.present
  | inr differ => rw [OrdMap.find_put_ne _ _ differ, alters.others q differ]

theorem Heap.Alters.order_ne (alters : h.Alters h' p) {q : OrderPtr} (differ : q ≠ p) : h'.order q = h.order q := by
  simp only [Heap.order, OrdMap.get, alters.others q differ]

/-- An order in place of another of the same kind. -/
theorem Heap.Alters.openLots (alters : h.Alters h' p) (present : (h.orders.find p).isSome)
    (same : kind (h'.order p) ↔ kind (h.order p)) :
    h'.openLots kind = h.openLots kind - if kind (h.order p) then (h.order p).resdLots - (h'.order p).resdLots else 0 := by
  rw [Heap.openLots, alters.orders, OrdMap.sum_put_of_some (OrdMap.find_eq_some_get present), Heap.openLots]
  have current : h.orders.get p = h.order p := rfl
  simp only [current, same]
  split <;> omega

theorem Heap.Alters.openLots_new (alters : h.Alters h' p) (absent : h.orders.find p = none) :
    h'.openLots kind = h.openLots kind + if kind (h'.order p) then (h'.order p).resdLots else 0 := by
  rw [Heap.openLots, alters.orders, OrdMap.sum_put_of_none absent, Heap.openLots]

/-- A heap keeps the same orders but one. -/
theorem Heap.Kept.alters (kept : Heap.Kept h h') (present : (h.orders.find p).isSome)
    (others : ∀ q, q ≠ p → h'.order q = h.order q) : h.Alters h' p where
  others q differ := by
    have live := kept.live q
    cases found : h.orders.find q with
    | none =>
      rw [found] at live
      exact Option.isNone_iff_eq_none.mp (by rw [← Option.not_isSome, live]; rfl)
    | some o =>
      rw [found] at live
      rw [OrdMap.find_eq_some_get live]
      exact congrArg some ((others q differ).trans (OrdMap.get_of_find found))
  present := (kept.live p).trans present

/-- The lots of one account in one market. -/
def lone (a : Symbol) (m : Int) (lots : Int) : Symbol → Int → Int := fun b n => if b = a ∧ n = m then lots else 0

theorem lone_zero (a : Symbol) (m : Int) : lone a m 0 = 0 := by
  funext b n
  exact ite_self 0

theorem lone_add (a : Symbol) (m x y : Int) : lone a m x + lone a m y = lone a m (x + y) := by
  funext b n
  show lone a m x b n + lone a m y b n = lone a m (x + y) b n
  rw [lone, lone, lone]
  split <;> simp

theorem lone_self (a : Symbol) (m lots : Int) : lone a m lots a m = lots := if_pos ⟨rfl, rfl⟩

theorem lone_nonneg {lots : Int} (nonneg : 0 ≤ lots) (a b : Symbol) (m n : Int) : 0 ≤ lone a m lots b n := by
  rw [lone]
  split
  · exact nonneg
  · exact le_rfl

/-- What holds of the orders, the positions and the reserved lots. -/
structure Bounded (limit : Int) (reserved : Symbol → Int → Int) (h : Heap) (posn : Symbol → Int → Posn) : Prop where
  positive : 0 < limit
  orders : ∀ p, (h.orders.find p).isSome → (h.order p).Priced limit
  posns : ∀ a m, (posn a m).Priced limit
  nonneg : ∀ a m, 0 ≤ reserved a m
  account : ∀ a m, ((posn a m).grossLots + h.openLots (Order.OfAccnt a m) + reserved a m) * limit < 2 ^ 63
  level : ∀ m s t, h.openLots (Order.AtPrice m s t) < 2 ^ 63

namespace Bounded

variable {reserved : Symbol → Int → Int} {posn : Symbol → Int → Posn} {a : Symbol} {m lots : Int}

theorem empty (positive : 0 < limit) : Bounded limit 0 ⟨∅, ∅⟩ fun _ _ => .make where
  positive := positive
  orders _ present := by cases present
  posns _ _ := .make
  nonneg _ _ := le_rfl
  account _ _ := by simp [Posn.grossLots, Posn.make, Heap.openLots]
  level _ _ _ := by simp [Heap.openLots]

/-- The open lots of some orders of a kind. -/
theorem sum_le (bounded : Bounded limit reserved h posn) {ps : List OrderPtr} (nodup : ps.Nodup)
    (listed : ∀ q ∈ ps, (h.orders.find q).isSome ∧ kind (h.order q)) :
    (ps.map fun q => (h.order q).resdLots).sum ≤ h.openLots kind := by
  have same : (ps.map fun q => (h.order q).resdLots) = ps.map fun q => if kind (h.orders.get q) then (h.orders.get q).resdLots else 0 :=
    List.map_congr_left fun q member => (if_pos (listed q member).2).symm
  rw [same]
  refine OrdMap.sum_le (f := fun o => if kind o then o.resdLots else 0) nodup (fun q member => (listed q member).1) fun q o found => ?_
  have priced := bounded.orders q (by rw [found]; rfl)
  rw [show h.order q = o from OrdMap.get_of_find found] at priced
  split
  · exact priced.resdLots
  · exact le_rfl

theorem openLots_nonneg (bounded : Bounded limit reserved h posn) (kind : Order → Prop) [DecidablePred kind] :
    0 ≤ h.openLots kind := bounded.sum_le .nil (List.forall_mem_nil _)

/-- Lots that a trade takes off an order are reserved, and a change may make them fewer. -/
theorem shrink (bounded : Bounded limit reserved h posn) (present : (h.orders.find p).isSome) (alters : h.Alters h' p)
    (same : (h'.order p).Same (h.order p)) (priced : (h'.order p).Priced limit) (nonneg : 0 ≤ lots)
    (less : (h'.order p).resdLots + lots ≤ (h.order p).resdLots) :
    Bounded limit (reserved + lone (h.order p).accnt (h.order p).marketId lots) h' posn where
  positive := bounded.positive
  orders q live := by
    cases eq_or_ne q p with
    | inl here => rwa [here]
    | inr differ =>
      rw [alters.order_ne differ]
      rw [alters.others q differ] at live
      exact bounded.orders q live
  posns := bounded.posns
  nonneg b n := Int.add_nonneg (bounded.nonneg b n) (lone_nonneg nonneg _ _ _ _)
  account b n := by
    have openLots := alters.openLots present (same.ofAccnt b n)
    -- What the order gives up is reserved for its own account.
    have smaller : h'.openLots (Order.OfAccnt b n) + lone (h.order p).accnt (h.order p).marketId lots b n ≤
        h.openLots (Order.OfAccnt b n) := by
      rw [openLots, lone]
      by_cases own : (h.order p).OfAccnt b n
      · rw [if_pos own, if_pos ⟨own.1.symm, own.2.symm⟩]
        omega
      · rw [if_neg own, if_neg fun other => own ⟨other.1.symm, other.2.symm⟩]
        omega
    refine lt_of_le_of_lt (mul_le_mul_of_nonneg_right ?_ bounded.positive.le) (bounded.account b n)
    show _ + _ + (reserved b n + lone _ _ _ b n) ≤ _
    omega
  level n s t := by
    have openLots := alters.openLots present (same.atPrice n s t)
    have before := bounded.level n s t
    rw [openLots]
    split <;> omega

/-- Reserved lots go to the position. -/
theorem file {trade : Exec} (bounded : Bounded limit (reserved + lone a m trade.lastLots) h posn)
    (rest : ∀ b n, 0 ≤ reserved b n) (nonneg : 0 ≤ trade.lastLots) (price : |trade.lastTicks| ≤ limit) :
    Bounded limit reserved h (addTrade posn a m trade) where
  positive := bounded.positive
  orders := bounded.orders
  posns b n := by
    rw [addTrade, update_apply]
    split
    next =>
      rw [update_apply]
      split
      next => exact (bounded.posns a m).addTrade bounded.positive nonneg price trade.side
      next => exact bounded.posns a n
    next => exact bounded.posns b n
  nonneg := rest
  account b n := by
    have before := bounded.account b n
    -- Only the position that the trade is added to changes.
    have gross : (addTrade posn a m trade b n).grossLots = (posn b n).grossLots + lone a m trade.lastLots b n := by
      rw [addTrade, update_apply, lone]
      by_cases account : b = a
      · rw [if_pos account, update_apply, account]
        by_cases market : n = m
        · rw [if_pos market, if_pos ⟨rfl, market⟩, Posn.grossLots_addTrade, market]
        · rw [if_neg market, if_neg fun here => market here.2, Int.add_zero]
      · rw [if_neg account, if_neg fun here => account here.1, Int.add_zero]
    rw [gross]
    have same : (posn b n).grossLots + lone a m trade.lastLots b n + h.openLots (Order.OfAccnt b n) + reserved b n =
        (posn b n).grossLots + h.openLots (Order.OfAccnt b n) + (reserved b n + lone a m trade.lastLots b n) := by omega
    rw [same]
    exact before
  level := bounded.level

/-- What the position computes then. -/
theorem fileValues {trade : Exec} (bounded : Bounded limit (reserved + lone a m trade.lastLots) h posn)
    (rest : ∀ b n, 0 ≤ reserved b n) (nonneg : 0 ≤ trade.lastLots) (price : |trade.lastTicks| ≤ limit) :
    ∀ v ∈ (posn a m).addTradeValues trade.side trade.lastLots trade.lastTicks, Unwrapped v := by
  refine (bounded.posns a m).addTradeValues bounded.positive nonneg price ?_ trade.side
  have whole := bounded.account a m
  have openLots := bounded.openLots_nonneg (Order.OfAccnt a m)
  have others := rest a m
  refine lt_of_le_of_lt (mul_le_mul_of_nonneg_right ?_ bounded.positive.le) whole
  show _ ≤ _ + _ + (reserved a m + lone a m trade.lastLots a m)
  rw [lone_self]
  omega

/-- A call brings lots. -/
theorem reserve (bounded : Bounded limit reserved h posn) (nonneg : 0 ≤ lots)
    (fits : ((posn a m).grossLots + h.openLots (Order.OfAccnt a m) + reserved a m + lots) * limit < 2 ^ 63) :
    Bounded limit (reserved + lone a m lots) h posn where
  positive := bounded.positive
  orders := bounded.orders
  posns := bounded.posns
  nonneg b n := Int.add_nonneg (bounded.nonneg b n) (lone_nonneg nonneg _ _ _ _)
  account b n := by
    show ((posn b n).grossLots + h.openLots (Order.OfAccnt b n) + (reserved b n + lone a m lots b n)) * limit < 2 ^ 63
    rw [lone]
    split
    next here =>
      rw [here.1, here.2, ← Int.add_assoc]
      exact fits
    next =>
      rw [Int.add_zero]
      exact bounded.account b n
  level := bounded.level

/-- Reserved lots go to a new order. -/
theorem enter (bounded : Bounded limit (reserved + lone a m lots) h posn) (rest : ∀ b n, 0 ≤ reserved b n)
    (absent : h.orders.find p = none) (alters : h.Alters h' p) (own : (h'.order p).OfAccnt a m) (open_ : (h'.order p).resdLots = lots)
    (priced : (h'.order p).Priced limit)
    (fits : h.openLots (Order.AtPrice m (h'.order p).side (h'.order p).ticks) + lots < 2 ^ 63) :
    Bounded limit reserved h' posn where
  positive := bounded.positive
  orders q live := by
    cases eq_or_ne q p with
    | inl here => rwa [here]
    | inr differ =>
      rw [alters.order_ne differ]
      rw [alters.others q differ] at live
      exact bounded.orders q live
  posns := bounded.posns
  nonneg := rest
  account b n := by
    have before := bounded.account b n
    -- The reserved lots are now those of the order.
    have openLots : h'.openLots (Order.OfAccnt b n) = h.openLots (Order.OfAccnt b n) + lone a m lots b n := by
      rw [alters.openLots_new absent, lone]
      congr 1
      refine if_congr ⟨fun here => ?_, fun here => ?_⟩ open_ rfl
      · exact ⟨here.1.symm.trans own.1, here.2.symm.trans own.2⟩
      · exact ⟨own.1.trans here.1.symm, own.2.trans here.2.symm⟩
    rw [openLots]
    have same : (posn b n).grossLots + (h.openLots (Order.OfAccnt b n) + lone a m lots b n) + reserved b n =
        (posn b n).grossLots + h.openLots (Order.OfAccnt b n) + (reserved b n + lone a m lots b n) := by omega
    rw [same]
    exact before
  level n s t := by
    rw [alters.openLots_new absent]
    split
    next here =>
      obtain ⟨market, side, price⟩ := here
      rw [← market, own.2, ← side, ← price, open_]
      exact fits
    next =>
      rw [Int.add_zero]
      exact bounded.level n s t

end Bounded

end Swirly
