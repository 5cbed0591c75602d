import Swirly.Verified.Side.Remove

/-!
# Revising, cancelling and taking an order

Each of the three changes a listed order and its level together.  `Shrunk` is their common outcome: the
order keeps its place, or it leaves the side.
-/

namespace Swirly.MarketSide

variable {side : Side} {h h' : Heap} {s s' : MarketSide} {p : OrderPtr} {lp : LevelPtr}

/-- The order `p` has become `o`; it stays in the side if `stays` holds and leaves it otherwise. -/
structure Shrunk (side : Side) (h : Heap) (s : MarketSide) (p : OrderPtr) (stays : Prop) (o : Order) (h' : Heap)
    (s' : MarketSide) : Prop where
  wf : WF side h' s'
  frame : Heap.Frame h h' (· = p) s.HasLevel
  live : (h'.orders.find p).isSome
  stay : stays → s'.orders = s.orders ∧ h'.order p = o
  leave : ¬ stays → s'.orders = s.orders.erase p ∧ h'.order p = { o with level := none }

/-- Either way, only the link of the changed order can differ. -/
theorem Shrunk.order {stays : Prop} {o : Order} (shrunk : Shrunk side h s p stays o h' s') :
    ∃ level, h'.order p = { o with level } := by
  by_cases kept : stays
  · exact ⟨o.level, (shrunk.stay kept).2⟩
  · exact ⟨none, (shrunk.leave kept).2⟩

/-- A change of an order that keeps what the book sorts and links it by. -/
structure KeepsPlace (f : Order → Order) : Prop where
  side : ∀ o, (f o).side = o.side
  ticks : ∀ o, (f o).ticks = o.ticks
  level : ∀ o, (f o).level = o.level
  unlink : ∀ o : Order, f { o with level := none } = { f o with level := none }

theorem reduce_wf (wf : WF side h s) (member : p ∈ s.orders) (linked : (h.order p).level = some lp)
    {delta : Int} {o : Order} (sameSide : o.side = (h.order p).side) (sameTicks : o.ticks = (h.order p).ticks)
    (sameLevel : o.level = (h.order p).level) (resdLots : o.resdLots = (h.order p).resdLots - delta) :
    WF side ((h.setLevel lp ((h.level lp).reduce delta)).setOrder p o) s := by
  obtain ⟨kp, pointer, found⟩ := wf.pointer p member
  obtain rfl : lp = kp := Option.some.inj (linked.symm.trans pointer)
  obtain ⟨h', after⟩ : ∃ h', h' = (h.setLevel lp ((h.level lp).reduce delta)).setOrder p o := ⟨_, rfl⟩
  rw [← after]
  have order : ∀ q, q ≠ p → h'.order q = h.order q := fun q differ => by simp [after, differ]
  have own : h'.order p = o := by simp [after]
  have key : ∀ q, h'.key q = h.key q := fun q => by
    by_cases same : q = p
    · subst same; simp only [Heap.key, own, sameSide, sameTicks]
    · simp only [Heap.key, order q same]
  have queue : ∀ k, s.queue h' k = s.queue h k := fun k => queue_congr rfl fun q _ => key q
  have level : ∀ kp, kp ≠ lp → h'.level kp = h.level kp := fun kp differ => by simp [after, differ]
  have ownLevel : h'.level lp = (h.level lp).reduce delta := by simp [after]
  have orders : ∀ q, q ≠ p → h'.orders.find q = h.orders.find q := fun q differ => by
    rw [after]; exact OrdMap.find_put_ne _ _ differ
  have levels : ∀ kp, kp ≠ lp → h'.levels.find kp = h.levels.find kp := fun kp differ => by
    rw [after]; exact OrdMap.find_put_ne _ _ differ
  exact
    { nodup := wf.nodup
      sorted := wf.sorted.imp fun le => by rwa [key, key]
      orderLive := fun q member => by
        by_cases same : q = p
        · simp [after, same, Heap.setOrder]
        · rw [orders q same]
          exact wf.orderLive q member
      orderSide := fun q member => by
        by_cases same : q = p
        · rw [same, own, sameSide]; exact wf.orderSide p (same ▸ member)
        · rw [order q same]; exact wf.orderSide q member
      pointer := fun q member => by
        rw [key]
        by_cases same : q = p
        · rw [same, own, sameLevel]; exact wf.pointer p (same ▸ member)
        · rw [order q same]; exact wf.pointer q member
      levelLive := fun k kp other => by
        by_cases same : kp = lp
        · simp [after, same, Heap.setOrder, Heap.setLevel]
        · rw [levels kp same]
          exact wf.levelLive k kp other
      levelKey := fun k kp other => by
        by_cases same : kp = lp
        · subst same; rw [ownLevel]; exact wf.levelKey k kp other
        · rw [level kp same]; exact wf.levelKey k kp other
      summary := fun k kp other => by
        rw [queue k]
        have summary := wf.summary k kp other
        by_cases same : kp = lp
        · subst same
          obtain rfl := wf.key_of_find other found
          have inQueue : p ∈ s.queue h (h.key p) := mem_queue.mpr ⟨member, rfl⟩
          have queueNodup : (s.queue h (h.key p)).Nodup := wf.nodup.filter _
          rw [ownLevel]
          refine { lots := ?_, count := summary.count, first := summary.first }
          -- Only the summand of `p` changes.
          have before := sum_erase inQueue fun q => (h.order q).resdLots
          have now := sum_erase inQueue fun q => (h'.order q).resdLots
          have rest : (((s.queue h (h.key p)).erase p).map fun q => (h'.order q).resdLots) =
              ((s.queue h (h.key p)).erase p).map fun q => (h.order q).resdLots :=
            List.map_congr_left fun q there => by rw [order q (queueNodup.mem_erase_iff.mp there).1]
          rw [rest, own] at now
          simp only [Level.reduce, summary.lots]
          omega
        · rw [level kp same]
          refine summary.congr fun q there => ?_
          by_cases here : q = p
          · subst here
            obtain rfl := (mem_queue.mp there).2
            exact absurd (Option.some.inj (other.symm.trans found)) same
          · rw [order q here] }

/-- A listed order whose open lots go down by `delta`: the level is reduced, or the order is removed when
nothing would stay open. -/
theorem reduceLevel_spec (wf : WF side h s) (member : p ∈ s.orders) {f : Order → Order} (keeps : KeepsPlace f)
    {delta : Int} (resdLots : (f (h.order p)).resdLots = (h.order p).resdLots - delta) :
    ∃ h' s',
      (match (h.order p).level with
        | none => some (h, s)
        | some lp => reduceLevel h s lp p delta).map (fun ((h, s) : Heap × MarketSide) =>
          (h.setOrder p (f (h.order p)), s)) = some (h', s') ∧
      Shrunk side h s p (delta < (h.order p).resdLots) (f (h.order p)) h' s' := by
  obtain ⟨lp, linked, found⟩ := wf.pointer p member
  rw [linked]
  by_cases open_ : delta < (h.order p).resdLots
  · simp only [reduceLevel]
    rw [if_pos open_, Option.map_some]
    refine ⟨_, s, rfl, ?_⟩
    exact
      { wf := reduce_wf wf member linked (keeps.side _) (keeps.ticks _) (keeps.level _) resdLots
        frame := (Heap.frame_setLevel h _ ⟨_, found⟩).trans (Heap.frame_setOrder _ p _)
        live := by simp [Heap.setOrder]
        stay := fun _ => ⟨rfl, by simp⟩
        leave := fun closed => absurd open_ closed }
  · obtain ⟨h', s', done, wf', orders, order, live, frame⟩ := removeFromLevel_spec wf member linked
    simp only [reduceLevel]
    rw [if_neg open_, done, Option.map_some]
    refine ⟨_, s', rfl, ?_⟩
    have gone : p ∉ s'.orders := orders ▸ wf.nodup.not_mem_erase
    exact
      { wf := wf'.frame (Heap.frame_setOrder (L := fun _ => False) h' p _) (fun q there same => gone (same ▸ there))
          fun _ _ => id
        frame := frame.trans (Heap.frame_setOrder _ p _)
        live := by simp [Heap.setOrder]
        stay := fun stays => absurd stays open_
        leave := fun _ => ⟨orders, by rw [Heap.order_setOrder_self, order, keeps.unlink]⟩ }

theorem keepsPlace_revise (lots now : Int) : KeepsPlace fun o => o.revise lots now where
  side _ := rfl
  ticks _ := rfl
  level _ := rfl
  unlink _ := rfl

theorem keepsPlace_trade (lots now : Int) : KeepsPlace fun o => o.trade lots o.ticks now where
  side _ := rfl
  ticks _ := rfl
  level _ := rfl
  unlink _ := rfl

theorem reviseOrder_spec (wf : WF side h s) (member : p ∈ s.orders) (lots now : Int) :
    ∃ h' s', reviseOrder h s p lots now = some (h', s') ∧
      Shrunk side h s p ((h.order p).lots - lots < (h.order p).resdLots) ((h.order p).revise lots now) h' s' :=
  reduceLevel_spec wf member (keepsPlace_revise lots now) rfl

theorem takeOrder_spec (wf : WF side h s) (member : p ∈ s.orders) (lots now : Int) :
    ∃ h' s', takeOrder h s p lots now = some (h', s') ∧
      Shrunk side h s p (lots < (h.order p).resdLots) ((h.order p).trade lots (h.order p).ticks now) h' s' :=
  reduceLevel_spec wf member (keepsPlace_trade lots now) rfl

theorem cancelOrder_spec (wf : WF side h s) (member : p ∈ s.orders) (now : Int) :
    ∃ h' s', cancelOrder h s p now = some (h', s') ∧ Shrunk side h s p False ((h.order p).cancel now) h' s' := by
  obtain ⟨lp, linked, -⟩ := wf.pointer p member
  obtain ⟨h', s', done, wf', orders, order, live, frame⟩ := removeFromLevel_spec wf member linked
  have gone : p ∉ s'.orders := orders ▸ wf.nodup.not_mem_erase
  refine ⟨h'.setOrder p ((h'.order p).cancel now), s', by simp only [cancelOrder, linked, done, Option.map_some], ?_⟩
  exact
    { wf := wf'.frame (Heap.frame_setOrder (L := fun _ => False) h' p _) (fun q there same => gone (same ▸ there))
        fun _ _ => id
      frame := frame.trans (Heap.frame_setOrder _ p _)
      live := by simp [Heap.setOrder]
      stay := False.elim
      leave := fun _ => ⟨orders, by rw [Heap.order_setOrder_self, order]; rfl⟩ }

theorem removeOrder_spec (wf : WF side h s) (member : p ∈ s.orders) :
    ∃ h' s', removeOrder h s p = some (h', s') ∧ Shrunk side h s p False (h.order p) h' s' := by
  obtain ⟨lp, linked, -⟩ := wf.pointer p member
  obtain ⟨h', s', done, wf', orders, order, live, frame⟩ := removeFromLevel_spec wf member linked
  exact ⟨h', s', by simp only [removeOrder, linked, done], wf', frame, live, False.elim, fun _ => ⟨orders, order⟩⟩

end Swirly.MarketSide
