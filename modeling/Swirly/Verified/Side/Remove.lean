import Swirly.Verified.Side.Insert

/-!
# Removing and reducing an order

`remove_order` takes an order out of its level and out of the list, and drops the level with its last
order.  `revise_order` and `take_order` reduce the level when the order keeps open lots and remove the
order otherwise; `cancel_order` always removes it.
-/

namespace Swirly.MarketSide

variable {side : Side} {h h' : Heap} {s s' : MarketSide} {p : OrderPtr} {lp : LevelPtr}

theorem queue_erase (nodup : s.orders.Nodup) (k : Int) :
    ((s.orders.erase p).filter fun q => h.key q = k) = (s.queue h k).erase p := by
  have queueNodup : (s.queue h k).Nodup := nodup.filter _
  rw [nodup.erase_eq_filter, queueNodup.erase_eq_filter, queue, List.filter_filter, List.filter_filter]
  exact List.filter_congr fun q _ => Bool.and_comm _ _

theorem sum_erase {α : Type} [DecidableEq α] {xs : List α} {a : α} (member : a ∈ xs) (f : α → Int) :
    (xs.map f).sum = f a + ((xs.erase a).map f).sum := by
  rw [((List.perm_cons_erase member).map f).sum_eq, List.map_cons, List.sum_cons]

/-- What `remove_order` leaves behind: `p` is out of the list, and its level is gone or summarises the
orders that remain at the price. -/
structure Removed (side : Side) (h : Heap) (s : MarketSide) (p : OrderPtr) (lp : LevelPtr) (h' : Heap)
    (s' : MarketSide) : Prop where
  orders : s'.orders = s.orders.erase p
  order : h'.order p = { h.order p with level := none }
  orderLive : (h'.orders.find p).isSome
  frame : Heap.Frame h h' (· = p) (· = lp)
  others : ∀ k, k ≠ h.key p → s'.levels.find k = s.levels.find k
  level : (s'.levels.find (h.key p) = none ∧ (s.queue h (h.key p)).erase p = []) ∨
    (s'.levels.find (h.key p) = some lp ∧ (h'.levels.find lp).isSome ∧
      ((h'.level lp).key = h.key p ∧ composeKey side (h'.level lp).ticks = h.key p) ∧
      Summary h ((s.queue h (h.key p)).erase p) (h'.level lp))

theorem removeFromLevel_removed (wf : WF side h s) (member : p ∈ s.orders) (found : s.levels.find (h.key p) = some lp) :
    ∃ h' s', removeFromLevel h s lp p = some (h', s') ∧ Removed side h s p lp h' s' := by
  have inQueue : p ∈ s.queue h (h.key p) := mem_queue.mpr ⟨member, rfl⟩
  have queueNodup : (s.queue h (h.key p)).Nodup := wf.nodup.filter _
  obtain ⟨lots, count, first⟩ := wf.summary _ _ found
  obtain ⟨levelKey, levelTicks⟩ := wf.levelKey _ _ found
  have rest : ((s.queue h (h.key p)).erase p).length = (s.queue h (h.key p)).length - 1 :=
    List.length_erase_of_mem inQueue
  have positive := List.length_pos_of_mem inQueue
  have restLots := sum_erase inQueue fun q => (h.order q).resdLots
  have restCount : (h.level lp).count - 1 = ((s.queue h (h.key p)).erase p).length := by omega
  have restSum : (h.level lp).lots - (h.order p).resdLots =
      (((s.queue h (h.key p)).erase p).map fun q => (h.order q).resdLots).sum := by omega
  simp only [removeFromLevel, member, not_true_eq_false, if_false, Heap.level_setLevel_self, Heap.order_setLevel]
  by_cases last : (h.level lp).count - 1 = 0
  · -- The order was alone at its price: the level goes with it.
    rw [if_pos (by exact last), if_pos (by simpa [Level.subOrder, levelKey] using found)]
    have empty : (s.queue h (h.key p)).erase p = [] := List.eq_nil_of_length_eq_zero (by omega)
    refine ⟨_, _, rfl, ?_⟩
    exact
      { orders := rfl
        order := by simp
        orderLive := by simp [Heap.setOrder]
        frame := ((Heap.frame_setLevel (L := (· = lp)) h _ rfl).trans (Heap.frame_freeLevel _ rfl)).trans
          (Heap.frame_setOrder _ p _)
        others := fun k differ => OrdMap.find_erase_ne _ (by simpa [Level.subOrder, levelKey] using differ)
        level := .inl ⟨by simp [Level.subOrder, levelKey], empty⟩ }
  · rw [if_neg (by exact last)]
    by_cases isFirst : (h.level lp).firstOrder = p
    · -- The first order leaves: the next one in the list has the same price and takes its place.
      rw [if_pos (by exact isFirst)]
      obtain ⟨tail, queue⟩ := List.head?_eq_some_iff.mp (isFirst ▸ first)
      cases tail with
      | nil => simp [queue] at rest restCount; omega
      | cons b tail =>
        have following := List.sorted_successor_first wf.sorted wf.nodup queue
        rw [following, Option.map_some]
        refine ⟨_, _, rfl, ?_⟩
        exact
          { orders := rfl
            order := by simp
            orderLive := by simp [Heap.setOrder]
            frame := ((Heap.frame_setLevel (L := (· = lp)) h _ rfl).trans (Heap.frame_setLevel _ _ rfl)).trans
              (Heap.frame_setOrder _ p _)
            others := fun _ _ => rfl
            level := .inr
              ⟨found, by simp [Heap.setLevel], by simp [Level.subOrder, levelKey, levelTicks],
                { lots := by simpa [Level.subOrder] using restSum
                  count := by simpa [Level.subOrder] using restCount
                  first := by simp [queue] }⟩ }
    · rw [if_neg (by exact isFirst)]
      refine ⟨_, _, rfl, ?_⟩
      exact
        { orders := rfl
          order := by simp
          orderLive := by simp [Heap.setOrder]
          frame := (Heap.frame_setLevel (L := (· = lp)) h _ rfl).trans (Heap.frame_setOrder _ p _)
          others := fun _ _ => rfl
          level := .inr
            ⟨found, by simp [Heap.setLevel], by simp [Level.subOrder, levelKey, levelTicks],
              { lots := by simpa [Level.subOrder] using restSum
                count := by simpa [Level.subOrder] using restCount
                first := by
                  obtain ⟨tail, queue⟩ := List.head?_eq_some_iff.mp first
                  simp [queue, isFirst, Level.subOrder] }⟩ }

theorem Removed.wf (wf : WF side h s) (found : s.levels.find (h.key p) = some lp)
    (removed : Removed side h s p lp h' s') : WF side h' s' := by
  have mem : ∀ q, q ∈ s'.orders ↔ q ≠ p ∧ q ∈ s.orders := fun q => by
    rw [removed.orders]; exact wf.nodup.mem_erase_iff
  have order : ∀ q ∈ s'.orders, h'.order q = h.order q := fun q member =>
    removed.frame.order ((mem q).mp member).1
  have key : ∀ q ∈ s'.orders, h'.key q = h.key q := fun q member => by simp only [Heap.key, order q member]
  have level : ∀ k kp, k ≠ h.key p → s.levels.find k = some kp → h'.levels.find kp = h.levels.find kp :=
    fun k kp differ other =>
      removed.frame.levels kp (wf.levelLive k kp other) fun same => differ (wf.key_of_find (same ▸ other) found)
  have queue : ∀ k, s'.queue h' k = (s.queue h k).erase p := fun k => by
    rw [← queue_erase wf.nodup, ← removed.orders]
    exact List.filter_congr fun q member => by rw [key q member]
  -- Levels of other prices are untouched; the level of the price is as `removed.level` says.
  have levels : ∀ k kp, s'.levels.find k = some kp →
      (k = h.key p ∧ kp = lp ∧ (h'.levels.find lp).isSome ∧
        ((h'.level lp).key = h.key p ∧ composeKey side (h'.level lp).ticks = h.key p) ∧
        Summary h ((s.queue h (h.key p)).erase p) (h'.level lp)) ∨
      (k ≠ h.key p ∧ s.levels.find k = some kp) := by
    intro k kp other
    by_cases same : k = h.key p
    · subst same
      cases removed.level with
      | inl gone => simp [gone.1] at other
      | inr kept =>
        obtain rfl : lp = kp := Option.some.inj (kept.1.symm.trans other)
        exact .inl ⟨rfl, rfl, kept.2⟩
    · exact .inr ⟨same, (removed.others k same) ▸ other⟩
  exact
    { nodup := removed.orders ▸ wf.nodup.erase p
      sorted := by
        have sorted : s'.orders.Pairwise fun q r => h.key q ≤ h.key r := by
          rw [removed.orders]
          exact wf.sorted.sublist List.erase_sublist
        exact sorted.imp_of_mem fun qMember rMember le => by rwa [key _ qMember, key _ rMember]
      orderLive := fun q member => by
        rw [removed.frame.orders q ((mem q).mp member).1]
        exact wf.orderLive q ((mem q).mp member).2
      orderSide := fun q member => by
        rw [order q member]; exact wf.orderSide q ((mem q).mp member).2
      pointer := fun q member => by
        obtain ⟨kp, pointer, other⟩ := wf.pointer q ((mem q).mp member).2
        rw [order q member, key q member]
        refine ⟨kp, pointer, ?_⟩
        by_cases same : h.key q = h.key p
        · cases removed.level with
          | inl gone =>
            -- The queue would be empty, but `q` is still in it.
            have remaining : q ∈ (s.queue h (h.key p)).erase p :=
              (List.mem_erase_of_ne ((mem q).mp member).1).mpr (mem_queue.mpr ⟨((mem q).mp member).2, same⟩)
            simp [gone.2] at remaining
          | inr kept =>
            rw [same] at other ⊢
            rw [kept.1, ← other, found]
        · rw [removed.others _ same, other]
      levelLive := fun k kp other => by
        rcases levels k kp other with ⟨-, rfl, live, -⟩ | ⟨differ, other⟩
        · exact live
        · rw [level k kp differ other]; exact wf.levelLive k kp other
      levelKey := fun k kp other => by
        rcases levels k kp other with ⟨rfl, rfl, -, keys, -⟩ | ⟨differ, other⟩
        · exact keys
        · simp only [Heap.level, OrdMap.get, level k kp differ other]
          exact wf.levelKey k kp other
      summary := fun k kp other => by
        rw [queue k]
        rcases levels k kp other with ⟨rfl, rfl, -, -, summary⟩ | ⟨differ, other⟩
        · refine summary.congr fun q member => ?_
          have queueNodup : (s.queue h (h.key p)).Nodup := wf.nodup.filter _
          have differ := (queueNodup.mem_erase_iff.mp member).1
          rw [removed.frame.order differ]
        · have notHere : p ∉ s.queue h k := fun here => differ (mem_queue.mp here).2.symm
          rw [List.erase_of_not_mem notHere]
          simp only [Heap.level, OrdMap.get, level k kp differ other]
          refine (wf.summary k kp other).congr fun q member => ?_
          rw [removed.frame.order fun same => notHere (same ▸ member)] }

theorem removeFromLevel_spec (wf : WF side h s) (member : p ∈ s.orders) (linked : (h.order p).level = some lp) :
    ∃ h' s', removeFromLevel h s lp p = some (h', s') ∧ WF side h' s' ∧ s'.orders = s.orders.erase p ∧
      h'.order p = { h.order p with level := none } ∧ (h'.orders.find p).isSome ∧
      Heap.Frame h h' (· = p) s.HasLevel := by
  obtain ⟨kp, pointer, found⟩ := wf.pointer p member
  obtain rfl : lp = kp := Option.some.inj (linked.symm.trans pointer)
  obtain ⟨h', s', done, removed⟩ := removeFromLevel_removed wf member found
  exact ⟨h', s', done, removed.wf wf found, removed.orders, removed.order, removed.orderLive,
    removed.frame.mono (fun _ same => same) fun kp same => ⟨_, same ▸ found⟩⟩

end Swirly.MarketSide
