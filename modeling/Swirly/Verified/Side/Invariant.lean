import Swirly.Fin.MarketSide

/-!
# The representation invariant of a market side

`WF side h s` says what the list and the level set of a market side hold of each other in the heap
`h`.  It reads only the listed orders and the linked levels, so a heap that agrees on these keeps it
(`WF.frame`).
-/

namespace Swirly

namespace Heap

/-- The key that orders are sorted by. -/
def key (h : Heap) (p : OrderPtr) : Int := composeKey (h.order p).side (h.order p).ticks

/-- `h'` agrees with `h` on every order outside `P` and on every allocated level outside `L`. -/
structure Frame (h h' : Heap) (P : OrderPtr → Prop) (L : LevelPtr → Prop) : Prop where
  orders : ∀ q, ¬ P q → h'.orders.find q = h.orders.find q
  levels : ∀ lp, (h.levels.find lp).isSome → ¬ L lp → h'.levels.find lp = h.levels.find lp

variable {h h' h'' : Heap} {P Q : OrderPtr → Prop} {L K : LevelPtr → Prop}

theorem Frame.order (frame : Frame h h' P L) {q : OrderPtr} (outside : ¬ P q) : h'.order q = h.order q := by
  simp only [Heap.order, OrdMap.get, frame.orders q outside]

theorem Frame.level (frame : Frame h h' P L) {lp : LevelPtr} (present : (h.levels.find lp).isSome)
    (outside : ¬ L lp) : h'.level lp = h.level lp := by
  simp only [Heap.level, OrdMap.get, frame.levels lp present outside]

theorem Frame.refl (h : Heap) : Frame h h P L := ⟨fun _ _ => rfl, fun _ _ _ => rfl⟩

theorem Frame.trans (first : Frame h h' P L) (second : Frame h' h'' P L) : Frame h h'' P L where
  orders q outside := (second.orders q outside).trans (first.orders q outside)
  levels lp present outside := by
    have kept := first.levels lp present outside
    rw [second.levels lp (by rwa [kept]) outside, kept]

theorem Frame.mono (frame : Frame h h' P L) (orders : ∀ q, P q → Q q) (levels : ∀ lp, L lp → K lp) :
    Frame h h' Q K where
  orders q outside := frame.orders q fun inside => outside (orders q inside)
  levels lp present outside := frame.levels lp present fun inside => outside (levels lp inside)

theorem frame_setOrder (h : Heap) (p : OrderPtr) (o : Order) : Frame h (h.setOrder p o) (· = p) L where
  orders _ differ := OrdMap.find_put_ne _ _ differ
  levels _ _ _ := rfl

theorem frame_setLevel (h : Heap) {lp : LevelPtr} (l : Level) (inside : L lp) : Frame h (h.setLevel lp l) P L where
  orders _ _ := rfl
  levels _ _ outside := OrdMap.find_put_ne _ _ fun same => outside (same ▸ inside)

theorem frame_freeLevel (h : Heap) {lp : LevelPtr} (inside : L lp) : Frame h (h.freeLevel lp) P L where
  orders _ _ := rfl
  levels _ _ outside := OrdMap.find_erase_ne _ fun same => outside (same ▸ inside)

theorem frame_allocLevel (h : Heap) (l : Level) : Frame h { h with levels := h.levels.alloc l } P L where
  orders _ _ := rfl
  levels _ present _ := OrdMap.find_put_ne _ _ (OrdMap.ne_fresh present)

end Heap

/-- The order that the opposite side prefers: highest price first for bids, lowest for offers. -/
def better (side : Side) (t u : Int) : Prop := if side = .buy then u < t else t < u

theorem composeKey_injective (side : Side) : Function.Injective (composeKey side) := by
  intro t u same
  cases side <;> simp only [composeKey, reduceCtorEq, if_true, if_false] at same <;> omega

theorem composeKey_lt {side : Side} {t u : Int} : composeKey side t < composeKey side u ↔ better side t u := by
  cases side <;> simp [composeKey, better]

namespace MarketSide

variable {side : Side} {h h' : Heap} {s s' : MarketSide} {p q : OrderPtr} {k : Int} {lp : LevelPtr}

/-- The listed orders of one price, in list order. -/
def queue (h : Heap) (s : MarketSide) (k : Int) : List OrderPtr := s.orders.filter fun p => h.key p = k

/-- The level `l` summarises the queue `ps`. -/
structure Summary (h : Heap) (ps : List OrderPtr) (l : Level) : Prop where
  lots : l.lots = (ps.map fun p => (h.order p).resdLots).sum
  count : l.count = ps.length
  first : ps.head? = some l.firstOrder

structure WF (side : Side) (h : Heap) (s : MarketSide) : Prop where
  nodup : s.orders.Nodup
  sorted : s.orders.Pairwise fun p q => h.key p ≤ h.key q
  orderLive : ∀ p ∈ s.orders, (h.orders.find p).isSome
  orderSide : ∀ p ∈ s.orders, (h.order p).side = side
  pointer : ∀ p ∈ s.orders, ∃ lp, (h.order p).level = some lp ∧ s.levels.find (h.key p) = some lp
  levelLive : ∀ k lp, s.levels.find k = some lp → (h.levels.find lp).isSome
  levelKey : ∀ k lp, s.levels.find k = some lp → (h.level lp).key = k ∧ composeKey side (h.level lp).ticks = k
  summary : ∀ k lp, s.levels.find k = some lp → Summary h (s.queue h k) (h.level lp)

/-- `lp` is linked in the level set. -/
def HasLevel (s : MarketSide) (lp : LevelPtr) : Prop := ∃ k, s.levels.find k = some lp

theorem mem_queue : p ∈ s.queue h k ↔ p ∈ s.orders ∧ h.key p = k := by simp [queue]

theorem queue_congr (orders : s'.orders = s.orders) (keys : ∀ p ∈ s.orders, h'.key p = h.key p) :
    s'.queue h' k = s.queue h k := by
  unfold queue
  rw [orders]
  exact List.filter_congr fun p member => by rw [keys p member]

/-- The summary of a queue reads only the open lots of its orders. -/
theorem Summary.congr {ps : List OrderPtr} {l : Level} (summary : Summary h ps l)
    (agree : ∀ p ∈ ps, (h'.order p).resdLots = (h.order p).resdLots) : Summary h' ps l where
  lots := by rw [summary.lots, List.map_congr_left agree]
  count := summary.count
  first := summary.first

namespace WF

theorem empty (side : Side) (h : Heap) : WF side h .empty where
  nodup := .nil
  sorted := .nil
  orderLive _ member := by cases member
  orderSide _ member := by cases member
  pointer _ member := by cases member
  levelLive _ _ found := by cases found
  levelKey _ _ found := by cases found
  summary _ _ found := by cases found

theorem first_mem (wf : WF side h s) (found : s.levels.find k = some lp) :
    (h.level lp).firstOrder ∈ s.orders ∧ h.key (h.level lp).firstOrder = k :=
  mem_queue.mp (List.mem_of_head? (wf.summary k lp found).first)

theorem key_of_find (wf : WF side h s) {j : Int} (found : s.levels.find k = some lp)
    (other : s.levels.find j = some lp) : k = j :=
  (wf.levelKey k lp found).1.symm.trans (wf.levelKey j lp other).1

/-- A level is linked at a key exactly when an order of that price is listed. -/
theorem level_iff (wf : WF side h s) : (s.levels.find k).isSome ↔ ∃ p ∈ s.orders, h.key p = k := by
  constructor
  · intro present
    obtain ⟨lp, found⟩ := Option.isSome_iff_exists.mp present
    exact ⟨_, wf.first_mem found⟩
  · rintro ⟨p, member, rfl⟩
    obtain ⟨lp, -, found⟩ := wf.pointer p member
    simp [found]

theorem not_mem_of_level_none (wf : WF side h s) (unlinked : (h.order p).level = none) : p ∉ s.orders := by
  intro member
  obtain ⟨lp, linked, -⟩ := wf.pointer p member
  simp [unlinked] at linked

/-- The invariant reads only the listed orders and the linked levels. -/
theorem congr (wf : WF side h s)
    (orders : ∀ p ∈ s.orders, h'.orders.find p = h.orders.find p)
    (levels : ∀ k lp, s.levels.find k = some lp → h'.levels.find lp = h.levels.find lp) : WF side h' s := by
  have order : ∀ p ∈ s.orders, h'.order p = h.order p := fun p member => by
    simp only [Heap.order, OrdMap.get, orders p member]
  have key : ∀ p ∈ s.orders, h'.key p = h.key p := fun p member => by simp only [Heap.key, order p member]
  have level : ∀ k lp, s.levels.find k = some lp → h'.level lp = h.level lp := fun k lp found => by
    simp only [Heap.level, OrdMap.get, levels k lp found]
  exact
    { nodup := wf.nodup
      sorted := wf.sorted.imp_of_mem fun pMember qMember le => by rwa [key _ pMember, key _ qMember]
      orderLive := fun p member => by rw [orders p member]; exact wf.orderLive p member
      orderSide := fun p member => by rw [order p member]; exact wf.orderSide p member
      pointer := fun p member => by rw [order p member, key p member]; exact wf.pointer p member
      levelLive := fun k lp found => by rw [levels k lp found]; exact wf.levelLive k lp found
      levelKey := fun k lp found => by rw [level k lp found]; exact wf.levelKey k lp found
      summary := fun k lp found => by
        rw [level k lp found, queue_congr rfl key]
        exact (wf.summary k lp found).congr fun p member => by rw [order p (mem_queue.mp member).1] }

theorem frame {P : OrderPtr → Prop} {L : LevelPtr → Prop} (wf : WF side h s) (frame : Heap.Frame h h' P L)
    (orders : ∀ p ∈ s.orders, ¬ P p) (levels : ∀ lp, s.HasLevel lp → ¬ L lp) : WF side h' s :=
  wf.congr (fun p member => frame.orders p (orders p member))
    fun k lp found => frame.levels lp (wf.levelLive k lp found) (levels lp ⟨k, found⟩)

end WF

end MarketSide

end Swirly
