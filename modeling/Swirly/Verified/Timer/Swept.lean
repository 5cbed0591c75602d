import Mathlib
import Swirly.Verified.Timer.Owned

/-!
# What the timer queue takes off its heap

The entries that `cancel`, `gc` and the loop of `dispatch` take off the heap by themselves are those of cancelled timers.
None of their releases goes on to cancel a timer, and the loops end.
-/

namespace Swirly

namespace TimerQueue

/-- The queue knows how many of its entries are those of cancelled timers. -/
def Exact (tq : TimerQueue) : Prop := tq.cancelled = tq.heap.countP fun p => !tq.pending p

/-- The front is pending. -/
def Fronted (tq : TimerQueue) : Prop := ∀ p xs, tq.heap = p :: xs → tq.pending p

/-- A heap by expiry, of timers that `rest` and the entries own. -/
structure Ordered (rest : List ImplPtr) (tq : TimerQueue) : Prop where
  owned : tq.Owned (tq.heap ++ rest)
  heap : BinaryHeap.IsHeap tq.expiry tq.heap

/-- Only entries of cancelled timers have gone. -/
structure Swept (rest : List ImplPtr) (tq tq' : TimerQueue) : Prop extends Ordered rest tq' where
  info : tq'.info = tq.info
  maxId : tq'.maxId = tq.maxId
  entries : ∃ idle, (idle ++ tq'.heap).Perm tq.heap ∧ ∀ p ∈ idle, tq.pending p = false
  exact_ : tq.Exact → tq'.Exact

/-- The front has gone, and is referred to once more. -/
structure Popped (rest : List ImplPtr) (tq : TimerQueue) (p : ImplPtr) (tq' : TimerQueue) : Prop where
  owned : tq'.Owned (p :: (tq'.heap ++ rest))
  info : tq'.info = tq.info
  maxId : tq'.maxId = tq.maxId
  cancelled : tq'.cancelled = tq.cancelled
  heap : tq'.heap = BinaryHeap.pop tq.expiry tq.heap

variable {tq tq' tq'' : TimerQueue} {rest xs : List ImplPtr} {p : ImplPtr}

theorem Swept.refl (ordered : tq.Ordered rest) : Swept rest tq tq :=
  ⟨ordered, rfl, rfl, ⟨[], .refl _, by simp⟩, id⟩

theorem Swept.trans (first : Swept rest tq tq') (second : Swept rest tq' tq'') : Swept rest tq tq'' := by
  obtain ⟨idle, same, cancelled⟩ := first.entries
  obtain ⟨more, sameMore, cancelledMore⟩ := second.entries
  refine ⟨second.toOrdered, second.info.trans first.info, second.maxId.trans first.maxId, ⟨idle ++ more, ?_, ?_⟩,
    second.exact_ ∘ first.exact_⟩
  · rw [List.append_assoc]
    exact (sameMore.append_left idle).trans same
  · intro p member
    cases List.mem_append.mp member with
    | inl member => exact cancelled p member
    | inr member =>
      rw [← pending_congr first.info]
      exact cancelledMore p member

/-! ## Pops -/

theorem Owned.popWith (release : TimerQueue → ImplPtr → Option TimerQueue) (owned : tq.Owned (tq.heap ++ rest))
    {cancel : TimerQueue → Option TimerQueue} (isRelease : release = fun tq p => tq.releaseWith cancel p)
    (front : tq.heap = p :: xs) (held : tq.pending p → p ∈ rest) :
    ∃ tq', tq.popWith release = some (p, tq') ∧ Popped rest tq p tq' := by
  have popPerm : (p :: BinaryHeap.pop tq.expiry tq.heap).Perm tq.heap := by
    rw [front]
    exact (BinaryHeap.pop_perm tq.expiry p xs).cons p
  have member : p ∈ tq.heap ++ rest := List.mem_append_left rest (front ▸ List.mem_cons_self)
  have sameExpiry : (tq.addRef p).expiry = tq.expiry := expiry_congr info_addRef
  obtain ⟨copied, isCopied⟩ :
      ∃ copied : TimerQueue, copied = { tq.addRef p with heap := BinaryHeap.pop tq.expiry tq.heap } := ⟨_, rfl⟩
  have sameInfo : copied.info = tq.info := by
    rw [isCopied]
    exact info_addRef
  have ownedCopied : copied.Owned (p :: p :: (BinaryHeap.pop tq.expiry tq.heap ++ rest)) := by
    have ownedAll := (owned.addRef member).perm ((popPerm.symm.append_right rest).cons p)
    rw [isCopied]
    exact ownedAll.congr rfl rfl rfl
  have kept : copied.pending p → (p :: (BinaryHeap.pop tq.expiry tq.heap ++ rest)).count p ≠ 1 := fun pending once => by
    rw [pending_congr sameInfo] at pending
    rw [List.count_cons_self, Nat.add_eq_right, List.count_eq_zero] at once
    exact once (List.mem_append_right _ (held pending))
  obtain ⟨tq', released, ownedReleased, same⟩ := ownedCopied.releaseWith cancel kept
  have sameHeap : tq'.heap = BinaryHeap.pop tq.expiry tq.heap := by rw [same.heap, isCopied]
  have isReleased : release copied p = some tq' := by
    rw [isRelease]
    exact released
  refine ⟨tq', ?_, ?_, same.info.trans sameInfo, ?_, ?_, sameHeap⟩
  · unfold TimerQueue.popWith
    rw [front]
    simp only [sameExpiry]
    rw [show (tq.addRef p).heap = tq.heap from rfl, ← isCopied, isReleased]
    rfl
  · rwa [sameHeap]
  · rw [same.maxId, isCopied]
    rfl
  · rw [same.cancelled, isCopied]
    rfl

theorem Popped.perm (popped : Popped rest tq p tq') (front : tq.heap = p :: xs) : (p :: tq'.heap).Perm tq.heap := by
  rw [popped.heap, front]
  exact (BinaryHeap.pop_perm tq.expiry p xs).cons p

theorem Popped.isHeap (popped : Popped rest tq p tq') (heap : BinaryHeap.IsHeap tq.expiry tq.heap) :
    BinaryHeap.IsHeap tq'.expiry tq'.heap := by
  rw [expiry_congr popped.info, popped.heap]
  exact heap.pop

/-- The front is a cancelled timer's. -/
theorem Ordered.popCancelled (ordered : tq.Ordered rest) (front : tq.heap = p :: xs) (idle : tq.pending p = false) :
    ∃ tq', tq.popCancelled = some tq' ∧ Swept rest tq tq' ∧ (p :: tq'.heap).Perm tq.heap := by
  have never : ∀ {P : Prop}, tq.pending p → P := fun pending => absurd pending (by simp [idle])
  obtain ⟨popped, isPopped, spec⟩ := ordered.owned.popWith releaseIdle rfl front never
  have stillIdle : popped.pending p = false := by rwa [pending_congr spec.info]
  obtain ⟨tq', isReleased, owned, same⟩ :=
    spec.owned.releaseWith (fun _ => none) fun pending => absurd pending (by simp [stillIdle])
  have sameInfo : tq'.info = tq.info := same.info.trans spec.info
  have perm : (p :: tq'.heap).Perm tq.heap := by
    rw [same.heap]
    exact spec.perm front
  obtain ⟨last, isLast⟩ : ∃ last : TimerQueue, last = { tq' with cancelled := tq'.cancelled - 1 } := ⟨_, rfl⟩
  have lastInfo : last.info = tq.info := by
    rw [isLast]
    exact sameInfo
  have lastHeap : last.heap = tq'.heap := by rw [isLast]
  refine ⟨last, ?_, ⟨⟨?_, ?_⟩, lastInfo, ?_, ⟨[p], by rwa [lastHeap], by simp [idle]⟩, fun exact_ => ?_⟩, by rwa [lastHeap]⟩
  · unfold TimerQueue.popCancelled
    rw [isPopped]
    have isReleased : popped.releaseIdle p = some tq' := isReleased
    simp only [Option.bind_eq_bind, Option.bind_some, isReleased, isLast]
  · rw [lastHeap, same.heap, isLast]
    exact owned.congr rfl rfl rfl
  · rw [lastHeap, same.heap, expiry_congr (lastInfo.trans spec.info.symm)]
    exact spec.isHeap ordered.heap
  · rw [isLast]
    exact same.maxId.trans spec.maxId
  · have count := perm.countP_eq fun q => !tq.pending q
    rw [List.countP_cons_of_pos (by simp [idle])] at count
    unfold Exact at exact_ ⊢
    have cancelled : last.cancelled = tq.cancelled - 1 := by
      rw [isLast, ← spec.cancelled, ← same.cancelled]
    rw [cancelled, exact_, lastHeap, pending_congr lastInfo, ← count]
    simp

theorem Ordered.sweep (ordered : tq.Ordered rest) (fuel : Nat) (enough : tq.heap.length < fuel) :
    ∃ tq', sweep fuel tq = some tq' ∧ Swept rest tq tq' ∧ tq'.Fronted := by
  induction fuel generalizing tq with
  | zero => cases enough
  | succ fuel inductionHypothesis =>
    unfold TimerQueue.sweep
    cases front : tq.heap with
    | nil => exact ⟨tq, rfl, .refl ordered, fun p xs other => by simp [front] at other⟩
    | cons p xs =>
      cases pending : tq.pending p with
      | true =>
        refine ⟨tq, by simp [pending], .refl ordered, fun q ys other => ?_⟩
        obtain ⟨rfl, -⟩ : p = q ∧ xs = ys := by simpa [front] using other
        exact pending
      | false =>
        obtain ⟨mid, isMid, swept, perm⟩ := ordered.popCancelled front pending
        have shorter : mid.heap.length < fuel := by
          have length := perm.length_eq
          rw [List.length_cons] at length
          omega
        obtain ⟨tq', isLast, sweptRest, fronted⟩ := inductionHypothesis swept.toOrdered shorter
        exact ⟨tq', by simp [pending, isMid, isLast], swept.trans sweptRest, fronted⟩

/-! ## Collection -/

theorem Owned.releaseAll {ds objs : List ImplPtr} (owned : tq.Owned (ds ++ objs)) (idle : ∀ p ∈ ds, tq.pending p = false) :
    ∃ tq', ds.foldlM releaseIdle tq = some tq' ∧ tq'.Owned objs ∧ Released tq tq' := by
  induction ds generalizing tq with
  | nil => exact ⟨tq, rfl, owned, .refl⟩
  | cons p ds inductionHypothesis =>
    have idleHere := idle p List.mem_cons_self
    obtain ⟨mid, isReleased, ownedMid, same⟩ :=
      Owned.releaseWith owned (fun _ => none) fun pending => absurd pending (by simp [idleHere])
    have idleRest : ∀ q ∈ ds, mid.pending q = false := fun q member => by
      rw [pending_congr same.info]
      exact idle q (List.mem_cons_of_mem p member)
    obtain ⟨tq', done, ownedLast, sameRest⟩ := inductionHypothesis ownedMid idleRest
    refine ⟨tq', ?_, ownedLast, same.trans sameRest⟩
    have isReleased : tq.releaseIdle p = some mid := isReleased
    simp only [List.foldlM_cons, isReleased, Option.bind_eq_bind, Option.bind_some, done]

theorem Ordered.gc (ordered : tq.Ordered rest) :
    ∃ tq', tq.gc = some tq' ∧ Swept rest tq tq' ∧ (tq.Fronted → tq'.Fronted) := by
  unfold TimerQueue.gc
  split
  next =>
    obtain ⟨kept, isKept⟩ : ∃ kept, kept = tq.heap.filter tq.pending := ⟨_, rfl⟩
    obtain ⟨idle, isIdle⟩ : ∃ idle, idle = tq.heap.filter fun p => !tq.pending p := ⟨_, rfl⟩
    have keptPending : ∀ p ∈ kept, tq.pending p := fun p member => by
      rw [isKept] at member
      exact (List.mem_filter.mp member).2
    have notPending : ∀ p ∈ idle, tq.pending p = false := fun p member => by
      rw [isIdle] at member
      simpa using (List.mem_filter.mp member).2
    have split : (idle ++ kept).Perm tq.heap := by
      rw [isIdle, isKept]
      exact List.perm_append_comm.trans (List.filter_append_perm tq.pending tq.heap)
    have ownedAll : tq.Owned (idle ++ (kept ++ rest)) := by
      rw [← List.append_assoc]
      exact ordered.owned.perm (split.symm.append_right rest)
    obtain ⟨mid, done, owned, same⟩ := ownedAll.releaseAll notPending
    obtain ⟨last, isLast⟩ :
        ∃ last : TimerQueue, last = { mid with heap := BinaryHeap.make mid.expiry kept, cancelled := 0 } := ⟨_, rfl⟩
    have lastHeap : last.heap = BinaryHeap.make mid.expiry kept := by rw [isLast]
    have lastInfo : last.info = tq.info := by
      rw [isLast]
      exact same.info
    have made := BinaryHeap.make_perm mid.expiry kept
    have allPending : ∀ p ∈ last.heap, last.pending p := fun p member => by
      rw [lastHeap] at member
      rw [pending_congr lastInfo]
      exact keptPending p (made.mem_iff.mp member)
    refine ⟨last, ?_, ⟨⟨?_, ?_⟩, lastInfo, ?_, ⟨idle, ?_, notPending⟩, fun _ => ?_⟩, fun _ p xs front => ?_⟩
    · simp only [← isIdle, done, Option.bind_eq_bind, Option.bind_some, isLast, ← isKept]
    · rw [lastHeap, isLast]
      exact (owned.perm (made.symm.append_right rest)).congr rfl rfl rfl
    · rw [lastHeap, expiry_congr (lastInfo.trans same.info.symm)]
      exact BinaryHeap.isHeap_make mid.expiry kept
    · rw [isLast]
      exact same.maxId
    · rw [lastHeap]
      exact (made.append_left idle).trans split
    · have none_ : last.heap.countP (fun p => !last.pending p) = 0 :=
        List.countP_eq_zero.mpr fun p member => by simp [allPending p member]
      unfold Exact
      rw [none_, isLast]
      rfl
    · exact allPending p (front ▸ List.mem_cons_self)
  next => exact ⟨tq, rfl, .refl ordered, id⟩

theorem Ordered.cancel (ordered : tq.Ordered rest) :
    ∃ tq', tq.cancel = some tq' ∧ Swept rest { tq with cancelled := tq.cancelled + 1 } tq' ∧ tq'.Fronted := by
  obtain ⟨counted, isCounted⟩ : ∃ counted : TimerQueue, counted = { tq with cancelled := tq.cancelled + 1 } := ⟨_, rfl⟩
  have orderedCounted : counted.Ordered rest := by
    rw [isCounted]
    exact ⟨ordered.owned.congr rfl rfl rfl, ordered.heap⟩
  have enough : counted.heap.length < tq.heap.length + 1 := by
    rw [isCounted]
    exact Nat.lt_succ_self _
  obtain ⟨mid, isMid, swept, fronted⟩ := orderedCounted.sweep _ enough
  obtain ⟨tq', isLast, sweptRest, frontedRest⟩ := swept.toOrdered.gc
  rw [← isCounted]
  refine ⟨tq', ?_, swept.trans sweptRest, frontedRest fronted⟩
  unfold TimerQueue.cancel
  rw [← isCounted, isMid]
  exact isLast

/-! ## The loop of `dispatch` -/

/-- The timer that is to be fired, and the queue without it. -/
structure Due (rest : List ImplPtr) (now : Int) (tq : TimerQueue) (p : ImplPtr) (tq' : TimerQueue) : Prop where
  owned : tq'.Owned (p :: (tq'.heap ++ rest))
  heap : BinaryHeap.IsHeap tq'.expiry tq'.heap
  info : tq'.info = tq.info
  maxId : tq'.maxId = tq.maxId
  entries : ∃ idle, (idle ++ p :: tq'.heap).Perm tq.heap ∧ ∀ q ∈ idle, tq.pending q = false
  pending : tq.pending p
  due : tq.expiry p ≤ now
  first : ∀ q ∈ tq'.heap, tq.expiry p ≤ tq.expiry q
  exact_ : tq.Exact → tq'.Exact

/-- The end of the loop. -/
structure Drained (rest : List ImplPtr) (now : Int) (tq tq' : TimerQueue) : Prop extends Swept rest tq tq' where
  fronted : tq'.Fronted
  later : ∀ p ∈ tq'.heap, now < tq'.expiry p

theorem Due.of_swept {now : Int} {fired : ImplPtr} (swept : Swept rest tq tq') (due : Due rest now tq' fired tq'') :
    Due rest now tq fired tq'' := by
  obtain ⟨idle, same, cancelled⟩ := swept.entries
  obtain ⟨more, sameMore, cancelledMore⟩ := due.entries
  have expiries := expiry_congr swept.info
  refine ⟨due.owned, due.heap, due.info.trans swept.info, due.maxId.trans swept.maxId, ⟨idle ++ more, ?_, ?_⟩, ?_, ?_, ?_,
    due.exact_ ∘ swept.exact_⟩
  · rw [List.append_assoc]
    exact (sameMore.append_left idle).trans same
  · intro p member
    cases List.mem_append.mp member with
    | inl member => exact cancelled p member
    | inr member =>
      rw [← pending_congr swept.info]
      exact cancelledMore p member
  · rw [← pending_congr swept.info]
    exact due.pending
  · rw [← expiries]
    exact due.due
  · rw [← expiries]
    exact due.first

/-- The front is pending and its time has come. -/
theorem Ordered.pop {now : Int} (ordered : tq.Ordered rest) (held : ∀ q ∈ tq.heap, tq.pending q → q ∈ rest)
    (front : tq.heap = p :: xs) (pending : tq.pending p) (due : tq.expiry p ≤ now) :
    ∃ tq', tq.pop = some (p, tq') ∧ Due rest now tq p tq' := by
  have heldFront := held p (front ▸ List.mem_cons_self)
  obtain ⟨tq', isPopped, popped⟩ := ordered.owned.popWith release rfl front heldFront
  have perm := popped.perm front
  refine ⟨tq', isPopped, popped.owned, popped.isHeap ordered.heap, popped.info, popped.maxId, ⟨[], perm, by simp⟩, pending,
    due, fun q member => ?_, fun exact_ => ?_⟩
  · have heap := ordered.heap
    rw [front] at heap
    apply heap.front q
    rw [← front]
    exact perm.mem_iff.mp (List.mem_cons_of_mem p member)
  · have count := perm.countP_eq fun q => !tq.pending q
    rw [List.countP_cons_of_neg (by simp [pending])] at count
    unfold Exact at exact_ ⊢
    rw [popped.cancelled, exact_, pending_congr popped.info, count]

theorem Ordered.next (now : Int) (ordered : tq.Ordered rest) (held : ∀ q ∈ tq.heap, tq.pending q → q ∈ rest) (fuel : Nat)
    (enough : tq.heap.length < fuel) :
    (∃ p tq', next now fuel tq = some (some p, tq') ∧ Due rest now tq p tq') ∨
      ∃ tq', next now fuel tq = some (none, tq') ∧ Drained rest now tq tq' := by
  induction fuel generalizing tq with
  | zero => cases enough
  | succ fuel inductionHypothesis =>
    obtain ⟨collected, isCollected, swept, fronted⟩ := ordered.gc
    unfold TimerQueue.next
    cases front : tq.heap with
    | nil =>
      have nothing : collected.heap = [] := by
        obtain ⟨idle, same, -⟩ := swept.entries
        rw [front] at same
        exact (List.append_eq_nil_iff.mp same.eq_nil).2
      refine .inr ⟨collected, by simp [isCollected], swept, fronted fun p xs other => ?_, by simp [nothing]⟩
      simp [front] at other
    | cons p xs =>
      cases pending : tq.pending p with
      | true =>
        by_cases due : tq.expiry p ≤ now
        · obtain ⟨tq', isPopped, spec⟩ := ordered.pop held front pending due
          exact .inl ⟨p, tq', by simp [pending, due, isPopped], spec⟩
        · refine .inr ⟨collected, by simp [pending, due, isCollected], swept, fronted fun q ys other => ?_, fun q member => ?_⟩
          · obtain ⟨rfl, -⟩ : p = q ∧ xs = ys := by simpa [front] using other
            exact pending
          · obtain ⟨idle, same, -⟩ := swept.entries
            have heap := ordered.heap
            rw [front] at heap same
            rw [expiry_congr swept.info]
            have after := heap.front q (same.mem_iff.mp (List.mem_append_right idle member))
            exact (not_le.mp due).trans_le after
      | false =>
        obtain ⟨mid, isMid, sweptMid, perm⟩ := ordered.popCancelled front pending
        have shorter : mid.heap.length < fuel := by
          have length := perm.length_eq
          rw [List.length_cons] at length
          omega
        have heldMid : ∀ q ∈ mid.heap, mid.pending q → q ∈ rest := fun q member pendingQ => by
          rw [pending_congr sweptMid.info] at pendingQ
          exact held q (perm.mem_iff.mp (List.mem_cons_of_mem p member)) pendingQ
        cases inductionHypothesis sweptMid.toOrdered heldMid shorter with
        | inl some_ =>
          obtain ⟨fired, tq', isNext, due⟩ := some_
          exact .inl ⟨fired, tq', by simp [pending, isMid, isNext], due.of_swept sweptMid⟩
        | inr none_ =>
          obtain ⟨tq', isNext, drained⟩ := none_
          exact .inr ⟨tq', by simp [pending, isMid, isNext], sweptMid.trans drained.toSwept, drained.fronted, drained.later⟩

end TimerQueue

end Swirly
