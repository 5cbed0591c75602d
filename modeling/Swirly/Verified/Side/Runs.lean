import Swirly.Lib.Run
import Swirly.Verified.Side.Reduce

/-!
# The book after any sequence of operations

`Book` is what a market side promises its readers: the levels are the distinct prices, best first, each
with the lots, the count and the first of its orders, and the orders are sorted by price and then by the
time they were inserted.  It holds after every run of the six operations that starts from an empty side.
-/

namespace Swirly.MarketSide

inductive Op where
  | insert (p : OrderPtr)
  | remove (p : OrderPtr)
  | create (p : OrderPtr) (now : Int)
  | revise (p : OrderPtr) (lots : Int) (now : Int)
  | cancel (p : OrderPtr) (now : Int)
  | take (p : OrderPtr) (lots : Int) (now : Int)

def step : Heap × MarketSide → Op → Option (Heap × MarketSide)
  | (h, s), .insert p => insertOrder h s p
  | (h, s), .remove p => removeOrder h s p
  | (h, s), .create p now => createOrder h s p now
  | (h, s), .revise p lots now => reviseOrder h s p lots now
  | (h, s), .cancel p now => cancelOrder h s p now
  | (h, s), .take p lots now => takeOrder h s p lots now

/-- What `insert_order` asserts of an order, for one that has `resdLots` open lots. -/
structure Insertable (side : Side) (h : Heap) (p : OrderPtr) (resdLots : Int) : Prop where
  live : (h.orders.find p).isSome
  side : (h.order p).side = side
  unlinked : (h.order p).level = none
  lots : 0 < (h.order p).lots
  resdLots : 0 < resdLots
  ticks : (h.order p).ticks ≠ 0
  minLots : 0 ≤ (h.order p).minLots

/-- The asserted precondition of each operation. -/
def Asserted (side : Side) : Heap × MarketSide → Op → Prop
  | (h, _), .insert p => Insertable side h p (h.order p).resdLots
  | (_, s), .remove p => p ∈ s.orders
  | (h, _), .create p _ => Insertable side h p (h.order p).lots ∧ (h.order p).minLots ≤ (h.order p).lots
  | (h, s), .revise p lots _ =>
    p ∈ s.orders ∧ 0 < lots ∧ lots ≤ (h.order p).lots ∧ (h.order p).execLots ≤ lots ∧ (h.order p).minLots ≤ lots
  | (_, s), .cancel p _ => p ∈ s.orders
  | (h, s), .take p lots _ => p ∈ s.orders ∧ 0 < lots ∧ lots ≤ (h.order p).resdLots

def arrive (log : List OrderPtr) : Op → List OrderPtr
  | .insert p | .create p _ => log.erase p ++ [p]
  | _ => log

/-- The orders inserted so far, each at the place of its last insertion. -/
def arrivals (ops : List Op) : List OrderPtr := ops.foldl arrive []

/-- The prices of the levels, in level order. -/
def prices (h : Heap) (s : MarketSide) : List Int := s.levels.entries.map fun e => (h.level e.2).ticks

/-- The listed orders at a price, in list order. -/
def ordersAt (h : Heap) (s : MarketSide) (ticks : Int) : List OrderPtr :=
  s.orders.filter fun p => (h.order p).ticks = ticks

structure Book (side : Side) (h : Heap) (s : MarketSide) (log : List OrderPtr) : Prop where
  prices : ∀ ticks, ticks ∈ s.prices h ↔ ∃ p ∈ s.orders, (h.order p).ticks = ticks
  bestFirst : (s.prices h).Pairwise (better side)
  lots : ∀ lp, s.HasLevel lp →
    (h.level lp).lots = ((s.ordersAt h (h.level lp).ticks).map fun p => (h.order p).resdLots).sum
  count : ∀ lp, s.HasLevel lp → (h.level lp).count = (s.ordersAt h (h.level lp).ticks).length
  pointer : ∀ p ∈ s.orders, ∃ lp, (h.order p).level = some lp ∧ s.HasLevel lp ∧ (h.level lp).ticks = (h.order p).ticks
  first : ∀ lp, s.HasLevel lp → (s.ordersAt h (h.level lp).ticks).head? = some (h.level lp).firstOrder
  sorted : s.orders.Pairwise fun p q => ¬ better side (h.order q).ticks (h.order p).ticks
  contiguous : s.orders = (s.prices h).flatMap (s.ordersAt h)
  arrival : ∀ ticks, s.ordersAt h ticks = log.filter fun p => p ∈ s.orders ∧ (h.order p).ticks = ticks

variable {side : Side} {h h' : Heap} {s s' : MarketSide} {p : OrderPtr} {log : List OrderPtr}

namespace WF

theorem key_eq (wf : WF side h s) (member : p ∈ s.orders) : h.key p = composeKey side (h.order p).ticks := by
  rw [Heap.key, wf.orderSide p member]

theorem queue_eq (wf : WF side h s) (ticks : Int) : s.queue h (composeKey side ticks) = s.ordersAt h ticks :=
  List.filter_congr fun q member => by
    rw [wf.key_eq member]
    exact decide_eq_decide.mpr (composeKey_injective side).eq_iff

/-- The keys of the level set are the keys of the prices. -/
theorem keys_eq (wf : WF side h s) : s.levels.entries.map Prod.fst = (s.prices h).map (composeKey side) := by
  rw [prices, List.map_map]
  exact List.map_congr_left fun e member => ((wf.levelKey e.1 e.2 (OrdMap.mem_entries.mp member)).2).symm

theorem summary_at (wf : WF side h s) {lp : LevelPtr} (linked : s.HasLevel lp) :
    Summary h (s.ordersAt h (h.level lp).ticks) (h.level lp) := by
  obtain ⟨k, found⟩ := linked
  rw [← wf.queue_eq, (wf.levelKey k lp found).2]
  exact wf.summary k lp found

theorem mem_prices (wf : WF side h s) (ticks : Int) : ticks ∈ s.prices h ↔ ∃ p ∈ s.orders, (h.order p).ticks = ticks := by
  constructor
  · intro member
    obtain ⟨⟨k, lp⟩, entry, rfl⟩ := List.mem_map.mp member
    have first := (wf.summary_at ⟨k, OrdMap.mem_entries.mp entry⟩).first
    obtain ⟨inside, same⟩ := List.mem_filter.mp (List.mem_of_head? first)
    exact ⟨_, inside, of_decide_eq_true same⟩
  · rintro ⟨q, member, rfl⟩
    obtain ⟨lp, -, found⟩ := wf.pointer q member
    refine List.mem_map.mpr ⟨(h.key q, lp), OrdMap.mem_entries.mpr found, ?_⟩
    have levelKey := (wf.levelKey _ lp found).2
    rw [wf.key_eq member] at levelKey
    exact composeKey_injective side levelKey

theorem book (wf : WF side h s)
    (arrival : ∀ k, s.queue h k = log.filter fun p => p ∈ s.orders ∧ h.key p = k) : Book side h s log where
  prices := wf.mem_prices
  bestFirst := by
    have ascending : (s.levels.entries.map Prod.fst).Pairwise (· < ·) := List.pairwise_map.mpr s.levels.sorted
    rw [wf.keys_eq, List.pairwise_map] at ascending
    exact ascending.imp composeKey_lt.mp
  lots _ linked := (wf.summary_at linked).lots
  count _ linked := (wf.summary_at linked).count
  pointer q member := by
    obtain ⟨lp, pointer, found⟩ := wf.pointer q member
    refine ⟨lp, pointer, ⟨_, found⟩, composeKey_injective side ?_⟩
    rw [(wf.levelKey _ lp found).2, wf.key_eq member]
  first _ linked := (wf.summary_at linked).first
  sorted := wf.sorted.imp_of_mem fun pMember qMember le => by
    rw [← composeKey_lt, ← wf.key_eq pMember, ← wf.key_eq qMember]
    exact not_lt.mpr le
  contiguous := by
    have ascending : (s.levels.entries.map Prod.fst).Pairwise (· < ·) := List.pairwise_map.mpr s.levels.sorted
    have covered : ∀ q ∈ s.orders, h.key q ∈ s.levels.entries.map Prod.fst := fun q member => by
      obtain ⟨lp, -, found⟩ := wf.pointer q member
      exact List.mem_map.mpr ⟨_, OrdMap.mem_entries.mpr found, rfl⟩
    have runs := List.sorted_eq_flatMap wf.sorted ascending covered
    rw [wf.keys_eq, List.flatMap_map] at runs
    conv_lhs => rw [runs]
    exact List.flatMap_congr fun ticks _ => wf.queue_eq ticks
  arrival ticks := by
    rw [← wf.queue_eq, arrival]
    refine List.filter_congr fun q _ => decide_eq_decide.mpr (and_congr_right fun member => ?_)
    rw [wf.key_eq member]
    exact (composeKey_injective side).eq_iff

end WF

/-- The invariant of runs: the representation invariant, and each queue in the order of arrival. -/
structure Filed (side : Side) (log : List OrderPtr) (h : Heap) (s : MarketSide) : Prop where
  wf : WF side h s
  logged : log.Nodup
  resdLots : ∀ p ∈ s.orders, 0 < (h.order p).resdLots
  arrival : ∀ k, s.queue h k = log.filter fun p => p ∈ s.orders ∧ h.key p = k

theorem Filed.insert (filed : Filed side log h s) (insertable : Insertable side h p (h.order p).resdLots) :
    ∃ h' s', insertOrder h s p = some (h', s') ∧ Filed side (log.erase p ++ [p]) h' s' := by
  have absent := filed.wf.not_mem_of_level_none insertable.unlinked
  obtain ⟨h', s', lp, done, wf, orders, own, -, frame⟩ := insertOrder_spec filed.wf absent insertable.side
  refine ⟨h', s', done, ?_⟩
  have order : ∀ q, q ≠ p → h'.order q = h.order q := fun q differ => frame.order differ
  have pKey : h'.key p = h.key p := by simp only [Heap.key, own]
  have key : ∀ q, h'.key q = h.key q := fun q => by
    by_cases same : q = p
    · rw [same, pKey]
    · simp only [Heap.key, order q same]
  have member : ∀ q, q ∈ s'.orders ↔ q = p ∨ q ∈ s.orders := fun q => by rw [orders, mem_ordersWith]
  exact
    { wf
      logged := List.nodup_append.mpr ⟨filed.logged.erase p, by simp, fun q inside r single => by
        rw [List.mem_singleton.mp single]
        exact fun same => (filed.logged.mem_erase_iff.mp inside).1 same⟩
      resdLots := fun q inside => by
        cases (member q).mp inside with
        | inl same => rw [same, own]; exact insertable.resdLots
        | inr old => rw [order q fun same => absent (same ▸ old)]; exact filed.resdLots q old
      arrival := fun k => by
        -- Behind every order already at the price, and in no other queue.
        have queue : s'.queue h' k = if k = h.key p then s.queue h k ++ [p] else s.queue h k := by
          rw [← ordersWith_filter filed.wf, queue, orders]
          exact List.filter_congr fun q _ => by rw [key]
        have before : ((log.erase p).filter fun q => q ∈ s'.orders ∧ h'.key q = k) = s.queue h k := by
          rw [filed.arrival, filed.logged.erase_eq_filter, List.filter_filter]
          refine List.filter_congr fun q _ => ?_
          rw [key]
          by_cases same : q = p
          · simp [same, absent]
          · simp [member, same]
        rw [queue, List.filter_append, before]
        by_cases same : k = h.key p
        · rw [if_pos same, List.filter_cons_of_pos (by simp [member, pKey, same]), List.filter_nil]
        · rw [if_neg same, List.filter_cons_of_neg (by simp [pKey, Ne.symm same]), List.filter_nil, List.append_nil] }

/-- The operations on a listed order: it keeps its place with open lots, or it leaves. -/
theorem Filed.shrink (filed : Filed side log h s) {stays : Prop} {o : Order} (shrunk : Shrunk side h s p stays o h' s')
    (sameSide : o.side = (h.order p).side) (sameTicks : o.ticks = (h.order p).ticks) (remaining : stays → 0 < o.resdLots) :
    Filed side log h' s' := by
  have order : ∀ q, q ≠ p → h'.order q = h.order q := fun q differ => shrunk.frame.order differ
  have key : ∀ q, h'.key q = h.key q := fun q => by
    by_cases same : q = p
    · subst same
      by_cases kept : stays
      · simp only [Heap.key, (shrunk.stay kept).2, sameSide, sameTicks]
      · simp only [Heap.key, (shrunk.leave kept).2, sameSide, sameTicks]
    · simp only [Heap.key, order q same]
  refine { wf := shrunk.wf, logged := filed.logged, resdLots := fun q inside => ?_, arrival := fun k => ?_ }
  · by_cases same : q = p
    · subst same
      by_cases kept : stays
      · rw [(shrunk.stay kept).2]; exact remaining kept
      · rw [(shrunk.leave kept).1] at inside
        exact absurd inside filed.wf.nodup.not_mem_erase
    · rw [order q same]
      refine filed.resdLots q ?_
      by_cases kept : stays
      · rwa [(shrunk.stay kept).1] at inside
      · rw [(shrunk.leave kept).1] at inside
        exact List.mem_of_mem_erase inside
  · by_cases kept : stays
    · rw [queue_congr (shrunk.stay kept).1 fun q _ => key q, filed.arrival]
      refine List.filter_congr fun q _ => ?_
      rw [(shrunk.stay kept).1, key]
    · have queue : s'.queue h' k = (s.queue h k).erase p := by
        rw [← queue_erase filed.wf.nodup, queue, (shrunk.leave kept).1]
        exact List.filter_congr fun q _ => by rw [key]
      have queueNodup : (s.queue h k).Nodup := filed.wf.nodup.filter _
      rw [queue, queueNodup.erase_eq_filter, filed.arrival, List.filter_filter]
      refine List.filter_congr fun q _ => ?_
      rw [(shrunk.leave kept).1, key]
      by_cases same : q = p <;> simp [filed.wf.nodup.mem_erase_iff, same]

/-- One operation within its asserted precondition. -/
theorem Filed.preserved (filed : Filed side log h s) {op : Op} (asserted : Asserted side (h, s) op) :
    ∃ h' s', step (h, s) op = some (h', s') ∧ Filed side (arrive log op) h' s' := by
  cases op with
  | insert p => exact filed.insert asserted
  | create p now =>
    -- The order is reset before it is inserted, which no listed order notices.
    have absent := filed.wf.not_mem_of_level_none asserted.1.unlinked
    obtain ⟨h', after⟩ : ∃ h', h' = h.setOrder p ((h.order p).create now) := ⟨_, rfl⟩
    have own : h'.order p = (h.order p).create now := by simp [after]
    have order : ∀ q ∈ s.orders, h'.order q = h.order q := fun q member => by
      rw [after]
      exact Heap.order_setOrder_ne _ _ fun same => absent (same ▸ member)
    have key : ∀ q ∈ s.orders, h'.key q = h.key q := fun q member => by simp only [Heap.key, order q member]
    have reset : Filed side log h' s :=
      { wf := by
          rw [after]
          exact filed.wf.frame (Heap.frame_setOrder (L := fun _ => False) h p _)
            (fun q member same => absent (same ▸ member)) fun _ _ => id
        logged := filed.logged
        resdLots := fun q member => by rw [order q member]; exact filed.resdLots q member
        arrival := fun k => by
          rw [queue_congr rfl key, filed.arrival]
          exact List.filter_congr fun q _ => decide_eq_decide.mpr (and_congr_right fun member => by rw [key q member]) }
    have insertable := asserted.1
    simp only [step, createOrder, ← after]
    exact reset.insert
      { live := by simp [after, Heap.setOrder]
        side := by rw [own]; exact insertable.side
        unlinked := by rw [own]; exact insertable.unlinked
        lots := by rw [own]; exact insertable.lots
        resdLots := by rw [own]; exact insertable.resdLots
        ticks := by rw [own]; exact insertable.ticks
        minLots := by rw [own]; exact insertable.minLots }
  | remove p =>
    obtain ⟨h', s', done, shrunk⟩ := removeOrder_spec filed.wf asserted
    exact ⟨h', s', done, filed.shrink shrunk rfl rfl False.elim⟩
  | cancel p now =>
    obtain ⟨h', s', done, shrunk⟩ := cancelOrder_spec filed.wf asserted now
    exact ⟨h', s', done, filed.shrink shrunk rfl rfl False.elim⟩
  | revise p lots now =>
    obtain ⟨h', s', done, shrunk⟩ := reviseOrder_spec filed.wf asserted.1 lots now
    exact ⟨h', s', done, filed.shrink shrunk rfl rfl fun less => Int.sub_pos_of_lt less⟩
  | take p lots now =>
    obtain ⟨h', s', done, shrunk⟩ := takeOrder_spec filed.wf asserted.1 lots now
    exact ⟨h', s', done, filed.shrink shrunk rfl rfl fun less => Int.sub_pos_of_lt less⟩

theorem Filed.run {ops : List Op} (run : Run step (Asserted side) (h, .empty) ops (h', s')) :
    Filed side (arrivals ops) h' s' := by
  refine run.invariant_history (I := fun ops state => Filed side (arrivals ops) state.1 state.2) ?_ ?_
  · rintro ops ⟨h, s⟩ op ⟨h', s'⟩ filed asserted done
    obtain ⟨h'', s'', done', filed'⟩ := filed.preserved asserted
    cases done.symm.trans done'
    rw [arrivals, List.foldl_append]
    exact filed'
  · exact
      { wf := .empty side h
        logged := .nil
        resdLots := fun _ member => by cases member
        arrival := fun _ => rfl }

/-- After every run the book is in order, and every operation within its precondition can follow. -/
theorem book_of_run {ops : List Op} (run : Run step (Asserted side) (h, .empty) ops (h', s')) :
    Book side h' s' (arrivals ops) ∧ (∀ p ∈ s'.orders, 0 < (h'.order p).resdLots) ∧
      ∀ op, Asserted side (h', s') op → (step (h', s') op).isSome := by
  have filed := Filed.run run
  refine ⟨filed.wf.book filed.arrival, filed.resdLots, fun op asserted => ?_⟩
  obtain ⟨_, _, done, -⟩ := filed.preserved asserted
  simp [done]

theorem insertable_iff {resdLots : Int} :
    Insertable side h p resdLots ↔
      (h.orders.find p).isSome ∧ (h.order p).side = side ∧ (h.order p).level = none ∧ 0 < (h.order p).lots ∧ 0 < resdLots ∧
        (h.order p).ticks ≠ 0 ∧ 0 ≤ (h.order p).minLots :=
  ⟨fun i => ⟨i.live, i.side, i.unlinked, i.lots, i.resdLots, i.ticks, i.minLots⟩,
    fun ⟨live, side, unlinked, lots, resdLots, ticks, minLots⟩ => ⟨live, side, unlinked, lots, resdLots, ticks, minLots⟩⟩

instance (side : Side) (h : Heap) (p : OrderPtr) (resdLots : Int) : Decidable (Insertable side h p resdLots) :=
  decidable_of_iff' _ insertable_iff

instance (side : Side) : (hs : Heap × MarketSide) → (op : Op) → Decidable (Asserted side hs op)
  | (h, _), .insert p => inferInstanceAs (Decidable (Insertable side h p _))
  | (_, s), .remove p | (_, s), .cancel p _ => inferInstanceAs (Decidable (p ∈ s.orders))
  | (_, _), .create _ _ | (_, _), .revise _ _ _ | (_, _), .take _ _ _ => inferInstanceAs (Decidable (_ ∧ _))

/-- Bids of five lots each at two prices. -/
def bids : Heap :=
  let bid (id ticks : Int) : Order := .make default 1 default 0 id [] .buy 5 ticks 0 0
  { orders := ((((∅ : Store Order).put 0 (bid 1 10)).put 1 (bid 2 12)).put 2 (bid 3 10)).put 3 (bid 4 12), levels := ∅ }

/-- The second and the fourth are better.  The second is filled, and the fourth is then the first of its level. -/
theorem book_of_run_bid :
    let ops : List Op := [.insert 0, .create 1 7, .insert 2, .create 3 8, .take 1 5 9, .take 0 2 9, .revise 2 4 9]
    ∃ h' s', Run step (Asserted .buy) (bids, .empty) ops (h', s') ∧ s'.prices h' = [12, 10] ∧ s'.orders = [3, 0, 2] ∧
      Book .buy h' s' (arrivals ops) := by
  intro ops
  have executed : (Run.exec step (Asserted .buy) (bids, .empty) ops).map (fun hs => (hs.2.prices hs.1, hs.2.orders)) =
      some ([12, 10], [3, 0, 2]) := by decide +kernel
  obtain ⟨⟨h', s'⟩, done, results⟩ := Option.map_eq_some_iff.mp executed
  obtain ⟨prices, orders⟩ := Prod.mk.inj results
  have run := Run.of_exec done
  exact ⟨h', s', run, prices, orders, (book_of_run run).1⟩

end Swirly.MarketSide
