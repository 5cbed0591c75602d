import Swirly.Verified.Side.Insert

/-!
# Undoing an insertion

`remove_order` takes back what `insert_order` did: the list, the level set and every level are the same as
before, also when the order had a level of its own.
-/

namespace Swirly.MarketSide

variable {side : Side} {h h' : Heap} {s s' : MarketSide} {p : OrderPtr}

theorem erase_ordersWith (wf : WF side h s) (absent : p ∉ s.orders) : (ordersWith h s p).erase p = s.orders := by
  have low : p ∉ s.orders.filter fun q => h.key q ≤ h.key p := fun member => absent (List.mem_filter.mp member).1
  rw [ordersWith, List.erase_append_right _ low, List.erase_cons_head]
  exact (List.sorted_split wf.sorted (h.key p)).symm

theorem Level.subOrder_addOrder (l : Level) (o o' : Order) (same : o'.resdLots = o.resdLots) :
    (l.addOrder o).subOrder o' = l := by
  obtain ⟨firstOrder, key, ticks, lots, count⟩ := l
  simp only [Level.addOrder, Level.subOrder, same, Level.mk.injEq, true_and]
  omega

/-- Removing the only order of a level. -/
theorem removeFromLevel_last {lp : LevelPtr} (member : p ∈ s.orders) (single : (h.level lp).count = 1)
    (linked : s.levels.find (h.level lp).key = some lp) :
    removeFromLevel h s lp p =
      some ((h.freeLevel lp).setOrder p { h.order p with level := none },
        { levels := s.levels.erase (h.level lp).key, orders := s.orders.erase p }) := by
  have none_left : (h.level lp).count - 1 = 0 := by omega
  have freed : (h.setLevel lp ((h.level lp).subOrder (h.order p))).freeLevel lp = h.freeLevel lp := by
    simp only [Heap.freeLevel, Heap.setLevel, OrdMap.erase_put]
  simp only [removeFromLevel, member, not_true_eq_false, if_false, Heap.level_setLevel_self]
  rw [if_pos (by exact none_left), if_pos (by exact linked), freed]
  rfl

/-- Removing an order that is not the first of its level. -/
theorem removeFromLevel_behind {lp : LevelPtr} (member : p ∈ s.orders) (more : (h.level lp).count ≠ 1)
    (behind : (h.level lp).firstOrder ≠ p) :
    removeFromLevel h s lp p =
      some ((h.setLevel lp ((h.level lp).subOrder (h.order p))).setOrder p { h.order p with level := none },
        { s with orders := s.orders.erase p }) := by
  have some_left : (h.level lp).count - 1 ≠ 0 := by omega
  simp only [removeFromLevel, member, not_true_eq_false, if_false, Heap.level_setLevel_self]
  rw [if_neg (by exact some_left), if_neg (by exact behind)]
  rfl

theorem removeOrder_insertOrder (wf : WF side h s) (absent : p ∉ s.orders) (orderSide : (h.order p).side = side)
    (present : (h.orders.find p).isSome) (unlinked : (h.order p).level = none)
    (inserted : insertOrder h s p = some (h', s')) : removeOrder h' s' p = some (h, s) := by
  obtain ⟨h₁, s₁, lp, level, linked⟩ := insertLevel_spec wf orderSide
  obtain ⟨rfl, rfl⟩ : h₁ = h' ∧ { s₁ with orders := ordersWith h s p } = s' := by
    have explicit := insertOrder_orders wf linked level
    rw [inserted] at explicit
    cases explicit
    exact ⟨rfl, rfl⟩
  have listed : p ∈ ordersWith h s p := mem_ordersWith.mpr (.inl rfl)
  have order : h₁.order p = { h.order p with level := some lp } := linked.order
  have back : { h₁.order p with level := none } = h.order p := by rw [order, ← unlinked]
  have unfolded : s.levels.find (composeKey (h.order p).side (h.order p).ticks) = s.levels.find (h.key p) := rfl
  simp only [removeOrder, order]
  cases missing : s.levels.find (h.key p) with
  | none =>
    -- The level was new: it goes with its only order.
    simp only [insertLevel, unfolded, missing] at level
    cases level
    obtain rfl : h.levels.fresh = lp := by
      rw [Heap.order_setOrder_self] at order
      exact Option.some.inj (congrArg Order.level order)
    have newLevel : (({ h with levels := h.levels.alloc (.make p (h.order p)) } : Heap).setOrder p
        { h.order p with level := some h.levels.fresh }).level h.levels.fresh = .make p (h.order p) :=
      OrdMap.get_put_self _ _ _
    have heap : (((({ h with levels := h.levels.alloc (.make p (h.order p)) } : Heap).setOrder p
        { h.order p with level := some h.levels.fresh }).freeLevel h.levels.fresh).setOrder p (h.order p)) = h := by
      simp only [Heap.setOrder, Heap.freeLevel, OrdMap.put_put, OrdMap.erase_alloc, Heap.order, OrdMap.put_get present]
    have levels : (s.levels.put (h.key p) h.levels.fresh).erase (h.key p) = s.levels := by
      rw [OrdMap.erase_put, OrdMap.erase_of_none missing]
    rw [removeFromLevel_last listed (by rw [newLevel]; rfl) (by rw [newLevel]; exact OrdMap.find_put_self _ _ _), back,
      newLevel, heap, erase_ordersWith wf absent]
    exact congrArg (fun levels => some (h, ({ levels, orders := s.orders } : MarketSide))) levels
  | some kp =>
    simp only [insertLevel, unfolded, missing] at level
    cases level
    obtain rfl : kp = lp := by
      rw [Heap.order_setOrder_self] at order
      exact Option.some.inj (congrArg Order.level order)
    have old : ((h.setLevel kp ((h.level kp).addOrder (h.order p))).setOrder p
        { h.order p with level := some kp }).level kp = (h.level kp).addOrder (h.order p) :=
      OrdMap.get_put_self _ _ _
    have summary := wf.summary _ _ missing
    have first := wf.first_mem missing
    have more : ((h.level kp).addOrder (h.order p)).count ≠ 1 := by
      have positive := List.length_pos_of_mem (mem_queue.mpr first)
      have count := summary.count
      simp only [Level.addOrder]
      omega
    have behind : ((h.level kp).addOrder (h.order p)).firstOrder ≠ p := fun same => absent (same ▸ first.1)
    have undone : ((h.level kp).addOrder (h.order p)).subOrder
        (((h.setLevel kp ((h.level kp).addOrder (h.order p))).setOrder p { h.order p with level := some kp }).order p) =
          h.level kp := Level.subOrder_addOrder _ _ _ (by rw [Heap.order_setOrder_self])
    have heap : (((h.setLevel kp ((h.level kp).addOrder (h.order p))).setOrder p
        { h.order p with level := some kp }).setLevel kp (h.level kp)).setOrder p (h.order p) = h := by
      simp only [Heap.setOrder, Heap.setLevel, OrdMap.put_put, Heap.order, Heap.level, OrdMap.put_get present,
        OrdMap.put_get (wf.levelLive _ _ missing)]
    rw [removeFromLevel_behind listed (by rw [old]; exact more) (by rw [old]; exact behind), back, old, undone, heap,
      erase_ordersWith wf absent]

end Swirly.MarketSide
