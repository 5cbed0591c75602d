import Swirly.Verified.Side.Invariant

/-!
# Inserting an order

`insert_order` finds or makes the level of the order's price and links the order before the first
order of the next level, that is, behind every order whose price is at least as good.
-/

namespace Swirly.MarketSide

open Swirly

variable {side : Side} {h h' : Heap} {s s' : MarketSide} {p : OrderPtr} {lp : LevelPtr}

/-- What `insert_level` leaves behind: the level `lp` of the price of `p` counts `p`, which is not yet
in the list, and nothing else has changed. -/
structure LevelLinked (side : Side) (h : Heap) (s : MarketSide) (p : OrderPtr) (h' : Heap) (s' : MarketSide)
    (lp : LevelPtr) : Prop where
  orders : s'.orders = s.orders
  found : s'.levels.find (h.key p) = some lp
  others : ∀ k, k ≠ h.key p → s'.levels.find k = s.levels.find k
  fresh : ∀ k, k ≠ h.key p → s.levels.find k ≠ some lp
  frame : Heap.Frame h h' (· = p) (· = lp)
  order : h'.order p = { h.order p with level := some lp }
  orderLive : (h'.orders.find p).isSome
  live : (h'.levels.find lp).isSome
  levelKey : (h'.level lp).key = h.key p ∧ composeKey side (h'.level lp).ticks = h.key p
  summary : Summary h (s.queue h (h.key p) ++ [p]) (h'.level lp)
  own : (h.levels.find lp).isSome → s.HasLevel lp
  kept : ∀ kp, s.levels.find (h.key p) = some kp → kp = lp

theorem insertLevel_spec (wf : WF side h s) (orderSide : (h.order p).side = side) :
    ∃ h' s' lp, insertLevel h s p = (h', s', h.key p) ∧ LevelLinked side h s p h' s' lp := by
  cases found : s.levels.find (h.key p) with
  | none =>
    -- A new level for the price; its address is not in use.
    have empty : s.queue h (h.key p) = [] := by
      refine List.filter_eq_nil_iff.mpr fun q member => ?_
      intro same
      have present := wf.level_iff.mpr ⟨q, member, of_decide_eq_true same⟩
      simp [found] at present
    have unfolded := found
    unfold Heap.key at unfolded
    refine ⟨_, _, h.levels.fresh, by simp only [insertLevel, unfolded]; rfl, ?_⟩
    exact
      { orders := rfl
        found := OrdMap.find_put_self _ _ _
        others := fun k differ => OrdMap.find_put_ne _ _ differ
        fresh := fun k _ other => OrdMap.ne_fresh (wf.levelLive k _ other) rfl
        frame := (Heap.frame_allocLevel h _).trans (Heap.frame_setOrder _ p _)
        order := Heap.order_setOrder_self _ _ _
        orderLive := by simp [Heap.setOrder]
        live := by simp [OrdMap.alloc]
        levelKey := by simp [Heap.level, OrdMap.alloc, Level.make, Heap.key, orderSide]
        summary := by
          rw [empty, List.nil_append]
          exact
            { lots := by simp [Heap.level, OrdMap.alloc, Level.make]
              count := by simp [Heap.level, OrdMap.alloc, Level.make]
              first := by simp [Heap.level, OrdMap.alloc, Level.make] }
        own := fun present => absurd rfl (OrdMap.ne_fresh present)
        kept := fun kp other => by simp [found] at other }
  | some lp =>
    have unfolded := found
    unfold Heap.key at unfolded
    refine ⟨_, _, lp, by simp only [insertLevel, unfolded]; rfl, ?_⟩
    have summary := wf.summary _ _ found
    exact
      { orders := rfl
        found := found
        others := fun _ _ => rfl
        fresh := fun k differ other => differ (wf.key_of_find other found)
        frame := (Heap.frame_setLevel (L := (· = lp)) h _ rfl).trans (Heap.frame_setOrder _ p _)
        order := by simp
        orderLive := by simp [Heap.setOrder]
        live := by simp [Heap.setLevel]
        levelKey := by simpa [Level.addOrder] using wf.levelKey _ _ found
        summary :=
          { lots := by simp [Level.addOrder, summary.lots]
            count := by simp [Level.addOrder, summary.count]
            first := by simp [Level.addOrder, List.head?_append, summary.first] }
        own := fun _ => ⟨_, found⟩
        kept := fun kp other => Option.some.inj (other.symm.trans found) }

/-- The list with `p` behind every order of a price at least as good. -/
def ordersWith (h : Heap) (s : MarketSide) (p : OrderPtr) : List OrderPtr :=
  (s.orders.filter fun q => h.key q ≤ h.key p) ++ p :: s.orders.filter fun q => h.key p < h.key q

theorem mem_ordersWith {q : OrderPtr} : q ∈ ordersWith h s p ↔ q = p ∨ q ∈ s.orders := List.mem_arrive

theorem ordersWith_perm (wf : WF side h s) : (ordersWith h s p).Perm (p :: s.orders) := List.arrive_perm wf.sorted p

theorem ordersWith_filter (wf : WF side h s) (k : Int) :
    ((ordersWith h s p).filter fun q => h.key q = k) = if k = h.key p then s.queue h k ++ [p] else s.queue h k :=
  List.arrive_filter wf.sorted p k

/-- The list that `insert_order` builds around the level it linked. -/
theorem insertOrder_orders (wf : WF side h s) (linked : LevelLinked side h s p h' s' lp) (inserted : insertLevel h s p = (h', s', h.key p)) :
    insertOrder h s p = some (h', { s' with orders := ordersWith h s p }) := by
  have sorted := List.sorted_split wf.sorted (h.key p)
  simp only [insertOrder, inserted]
  cases following : s'.levels.next (h.key p) with
  | none =>
    -- No level is worse, so nothing in the list is behind the order.
    have high : (s.orders.filter fun q => h.key p < h.key q) = [] := by
      refine List.filter_eq_nil_iff.mpr fun q member => ?_
      obtain ⟨kp, -, found⟩ := wf.pointer q member
      by_cases same : h.key q = h.key p
      · simp [same]
      · have worst := OrdMap.next_eq_none following ((linked.others _ same).trans found)
        simpa using worst
    rw [high, List.append_nil] at sorted
    simp only [ordersWith, high, linked.orders, ← sorted]
  | some entry =>
    obtain ⟨k, next⟩ := entry
    obtain ⟨above, found, least⟩ := OrdMap.next_eq_some following
    have found : s.levels.find k = some next := (linked.others k above.ne') ▸ found
    have different : next ≠ lp := fun same => linked.fresh k above.ne' (same ▸ found)
    have first : (s.orders.filter fun q => h.key q = k).head? = some (h.level next).firstOrder :=
      (wf.summary k next found).first
    have behind : ∀ q ∈ s.orders, h.key p < h.key q → k ≤ h.key q := by
      intro q member worse
      obtain ⟨kp, -, qFound⟩ := wf.pointer q member
      exact least _ kp ((linked.others _ worse.ne').trans qFound) worse
    obtain ⟨rest, high⟩ := List.head?_eq_some_iff.mp (List.sorted_head_above wf.sorted above behind first)
    have notLow : (h.level next).firstOrder ∉ s.orders.filter fun q => h.key q ≤ h.key p := by
      intro member
      have low := (List.mem_filter.mp member).2
      have same := (wf.first_mem found).2
      simp only [same, decide_eq_true_eq] at low
      omega
    have level : h'.level next = h.level next := linked.frame.level (wf.levelLive k next found) different
    simp only [level, linked.orders, ordersWith]
    nth_rewrite 1 [sorted]
    rw [high, List.insertBefore_append notLow, Option.map_some]

theorem insertOrder_spec (wf : WF side h s) (absent : p ∉ s.orders) (orderSide : (h.order p).side = side) :
    ∃ h' s' lp, insertOrder h s p = some (h', s') ∧ WF side h' s' ∧ s'.orders = ordersWith h s p ∧
      h'.order p = { h.order p with level := some lp } ∧ (h'.orders.find p).isSome ∧
      Heap.Frame h h' (· = p) s.HasLevel := by
  obtain ⟨h', s', lp, inserted, linked⟩ := insertLevel_spec wf orderSide
  refine ⟨h', _, lp, insertOrder_orders wf linked inserted, ?_, rfl, linked.order, linked.orderLive, ?_⟩
  · have order : ∀ q ∈ s.orders, h'.order q = h.order q := fun q member =>
      linked.frame.order fun same => absent (same ▸ member)
    have pKey : h'.key p = h.key p := by simp only [Heap.key, linked.order]
    have key : ∀ q ∈ s.orders, h'.key q = h.key q := fun q member => by simp only [Heap.key, order q member]
    have keyWith : ∀ q ∈ ordersWith h s p, h'.key q = h.key q := fun q member => by
      rcases mem_ordersWith.mp member with rfl | member
      · exact pKey
      · exact key q member
    have level : ∀ k kp, k ≠ h.key p → s.levels.find k = some kp → h'.level kp = h.level kp := fun k kp differ found =>
      linked.frame.level (wf.levelLive k kp found) fun same => linked.fresh k differ (same ▸ found)
    have queueWith : ∀ k, ({ s' with orders := ordersWith h s p } : MarketSide).queue h' k =
        if k = h.key p then s.queue h k ++ [p] else s.queue h k := fun k => by
      rw [← ordersWith_filter wf]
      exact List.filter_congr fun q member => by rw [keyWith q member]
    exact
      { nodup := (ordersWith_perm wf).nodup_iff.mpr (List.nodup_cons.mpr ⟨absent, wf.nodup⟩)
        sorted := (List.arrive_sorted wf.sorted p).imp_of_mem
          fun qMember rMember le => by rwa [keyWith _ qMember, keyWith _ rMember]
        orderLive := fun q member => by
          rcases mem_ordersWith.mp member with rfl | member
          · exact linked.orderLive
          · rw [linked.frame.orders q fun same => absent (same ▸ member)]
            exact wf.orderLive q member
        orderSide := fun q member => by
          rcases mem_ordersWith.mp member with rfl | member
          · rw [linked.order]; exact orderSide
          · rw [order q member]; exact wf.orderSide q member
        pointer := fun q member => by
          rcases mem_ordersWith.mp member with rfl | member
          · exact ⟨lp, by rw [linked.order], by rw [pKey]; exact linked.found⟩
          · obtain ⟨kp, pointer, found⟩ := wf.pointer q member
            rw [order q member, key q member]
            by_cases same : h.key q = h.key p
            · -- The level of the price was there already, so it is the one linked.
              rw [same] at found ⊢
              obtain rfl := linked.kept kp found
              exact ⟨kp, pointer, linked.found⟩
            · exact ⟨kp, pointer, (linked.others _ same).trans found⟩
        levelLive := fun k kp found => by
          by_cases same : k = h.key p
          · subst same
            obtain rfl : lp = kp := Option.some.inj (linked.found.symm.trans found)
            exact linked.live
          · have found := (linked.others k same) ▸ found
            rw [linked.frame.levels kp (wf.levelLive k kp found) fun eq => linked.fresh k same (eq ▸ found)]
            exact wf.levelLive k kp found
        levelKey := fun k kp found => by
          by_cases same : k = h.key p
          · subst same
            obtain rfl : lp = kp := Option.some.inj (linked.found.symm.trans found)
            exact linked.levelKey
          · have found := (linked.others k same) ▸ found
            rw [level k kp same found]
            exact wf.levelKey k kp found
        summary := fun k kp found => by
          rw [queueWith k]
          by_cases same : k = h.key p
          · subst same
            obtain rfl : lp = kp := Option.some.inj (linked.found.symm.trans found)
            rw [if_pos rfl]
            refine linked.summary.congr fun q member => ?_
            rcases List.mem_append.mp member with member | member
            · rw [order q (mem_queue.mp member).1]
            · obtain rfl := List.mem_singleton.mp member
              rw [linked.order]
          · have found := (linked.others k same) ▸ found
            rw [if_neg same, level k kp same found]
            exact (wf.summary k kp found).congr fun q member => by rw [order q (mem_queue.mp member).1] }
  · exact
      { orders := linked.frame.orders
        levels := fun kp present outside =>
          linked.frame.levels kp present fun same => outside (same ▸ linked.own (same ▸ present)) }

end Swirly.MarketSide
