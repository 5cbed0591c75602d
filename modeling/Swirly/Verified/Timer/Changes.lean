import Swirly.Verified.Timer.Swept

/-!
# What the calls of a timer queue change

One statement for each call: the insertion of a timer, the cancellation of a timer that is pending, and the end of `expire`.
-/

namespace Swirly

namespace TimerQueue

variable {tq tq' : TimerQueue} {rest : List ImplPtr} {p q : ImplPtr}

/-- A new entry of the heap. -/
theorem Ordered.pushHeap (ordered : tq.Ordered rest) (member : p ∈ tq.heap ++ rest) :
    (tq.pushHeap p).Ordered rest ∧ (tq.pushHeap p).heap.Perm (p :: tq.heap) := by
  have perm : (tq.pushHeap p).heap.Perm (p :: tq.heap) := BinaryHeap.push_perm _ _ _
  have same : (tq.pushHeap p).expiry = tq.expiry := expiry_congr info_addRef
  have copied : (tq.addRef p).expiry = tq.expiry := expiry_congr info_addRef
  refine ⟨⟨?_, ?_⟩, perm⟩
  · exact ((ordered.owned.addRef member).perm (perm.symm.append_right rest)).congr rfl rfl rfl
  · have heap : BinaryHeap.IsHeap (tq.addRef p).expiry tq.heap := by
      rw [copied]
      exact ordered.heap
    rw [same, ← copied]
    exact heap.push p

theorem Fronted.pushHeap (fronted : tq.Fronted) (pending : tq.pending p) : (tq.pushHeap p).Fronted := by
  intro q xs front
  have same : (tq.pushHeap p).pending = tq.pending := pending_congr info_addRef
  rw [same]
  cases BinaryHeap.push_front front with
  | inl new => rwa [new]
  | inr old =>
    obtain ⟨ys, front⟩ := old
    exact fronted q ys front

/-! ## Insertion -/

structure Inserted (rest : List ImplPtr) (tq : TimerQueue) (p : ImplPtr) (info : Timer.Info) (tq' : TimerQueue) : Prop extends
    Ordered (p :: rest) tq' where
  fresh : p ∉ tq.heap ++ rest
  info : tq'.info = Function.update tq.info p info
  maxId : tq'.maxId = tq.maxId + 1
  cancelled : tq'.cancelled = tq.cancelled
  entries : tq'.heap.Perm (p :: tq.heap)
  fronted : tq.Fronted → tq'.Fronted

/-- What a change of one timer leaves of the others. -/
theorem pending_update {info : Timer.Info} (changed : tq'.info = Function.update tq.info p info) (other : q ≠ p) :
    tq'.pending q = tq.pending q := by
  have same : tq'.info q = tq.info q := by rw [changed, Function.update_of_ne other]
  exact congrArg (fun info => info.slot.isSome) same

theorem expiry_update {info : Timer.Info} (changed : tq'.info = Function.update tq.info p info) (other : q ≠ p) :
    tq'.expiry q = tq.expiry q := by
  have same : tq'.info q = tq.info q := by rw [changed, Function.update_of_ne other]
  exact congrArg Timer.Info.expiry same

theorem pending_self {info : Timer.Info} (changed : tq'.info = Function.update tq.info p info) :
    tq'.pending p = info.slot.isSome := by
  have self : tq'.info p = info := by rw [changed, Function.update_self]
  exact congrArg (fun info => info.slot.isSome) self

/-- A change of a timer that is no entry leaves the heap. -/
theorem isHeap_update {info : Timer.Info} {heap : List ImplPtr} (isHeap : BinaryHeap.IsHeap tq.expiry heap)
    (changed : tq'.info = Function.update tq.info p info) (absent : p ∉ heap) : BinaryHeap.IsHeap tq'.expiry heap :=
  isHeap.congr fun _ member => expiry_update changed fun here => absent (here ▸ member)

theorem Ordered.insert (ordered : tq.Ordered rest) (expiry interval : Int) (slot : TimerSlot) :
    ∃ p tq', tq.insert expiry interval slot = some (p, tq') ∧
      Inserted rest tq p ⟨tq.maxId + 1, expiry, interval, some slot⟩ tq' := by
  obtain ⟨p, made, isMade, fresh, owned, info, maxId, cancelled, heap⟩ := ordered.owned.alloc expiry interval slot
  have absent : p ∉ tq.heap := fun member => fresh (List.mem_append_left rest member)
  have orderedMade : made.Ordered (p :: rest) := by
    constructor
    · rw [heap]
      exact owned.perm List.perm_middle.symm
    · rw [heap]
      exact isHeap_update ordered.heap info absent
  have member : p ∈ made.heap ++ p :: rest := List.mem_append_right _ List.mem_cons_self
  obtain ⟨pushed, perm⟩ := orderedMade.pushHeap member
  refine ⟨p, made.pushHeap p, ?_, pushed, fresh, info_addRef.trans info, maxId, cancelled, heap ▸ perm, fun fronted => ?_⟩
  · unfold TimerQueue.insert
    rw [isMade]
    rfl
  · refine Fronted.pushHeap (fun q xs front => ?_) (pending_self info)
    rw [heap] at front
    have other : q ≠ p := fun here => absent (here ▸ front ▸ List.mem_cons_self)
    rw [pending_update info other]
    exact fronted q xs front

/-! ## Cancellation -/

structure Cancelled (rest : List ImplPtr) (tq : TimerQueue) (p : ImplPtr) (tq' : TimerQueue) : Prop extends
    Ordered rest tq' where
  info : tq'.info = Function.update tq.info p { tq.info p with slot := none }
  maxId : tq'.maxId = tq.maxId
  entries : ∃ idle, (idle ++ tq'.heap).Perm tq.heap ∧ ∀ q ∈ idle, q = p ∨ tq.pending q = false
  fronted : tq'.Fronted
  /-- The queue keeps count if the timer has one entry. -/
  exact_ : tq.heap.count p = 1 → tq.Exact → tq'.Exact

theorem info_resetSlot : (tq.resetSlot p).info = Function.update tq.info p { tq.info p with slot := none } := by
  funext q
  unfold info resetSlot
  rw [impls_modify, Function.update_apply]
  split
  next => rfl
  next => rfl

/-- The slot of an entry is reset. -/
theorem countP_resetSlot (pending : tq.pending p) (heap : List ImplPtr) :
    heap.countP (fun q => !(tq.resetSlot p).pending q) = heap.countP (fun q => !tq.pending q) + heap.count p := by
  have other : ∀ q, (!(tq.resetSlot p).pending q) = ((!tq.pending q) || q == p) := fun q => by
    rw [pending_resetSlot]
    by_cases here : q = p
    · simp [here]
    · simp [here]
  induction heap with
  | nil => rfl
  | cons q heap inductionHypothesis =>
    rw [List.countP_cons, List.countP_cons, List.count_cons, inductionHypothesis, other q]
    by_cases here : q = p
    · simp [here, pending]
      omega
    · simp [here]
      omega

theorem Ordered.cancelSlot (ordered : tq.Ordered rest) (pending : tq.pending p) :
    ∃ tq', (tq.resetSlot p).cancel = some tq' ∧ Cancelled rest tq p tq' := by
  have orderedReset : (tq.resetSlot p).Ordered rest := by
    constructor
    · exact ordered.owned.resetSlot
    · rw [expiry_resetSlot]
      exact ordered.heap
  obtain ⟨tq', done, swept, fronted⟩ := orderedReset.cancel
  obtain ⟨idle, same, cancelled⟩ := swept.entries
  refine ⟨tq', done, swept.toOrdered, swept.info.trans info_resetSlot, swept.maxId, ⟨idle, same, fun q member => ?_⟩, fronted,
    fun once exact_ => ?_⟩
  · have reset : (tq.resetSlot p).pending q = false := cancelled q member
    rw [pending_resetSlot] at reset
    by_cases here : q = p
    · exact .inl here
    · exact .inr (by simpa [here] using reset)
  · apply swept.exact_
    have count := countP_resetSlot pending tq.heap
    rw [once] at count
    unfold Exact at exact_ ⊢
    change tq.cancelled + 1 = (tq.heap.countP fun q => !(tq.resetSlot p).pending q : Nat)
    rw [count, exact_]
    rfl

theorem Ordered.cancelTimer (ordered : tq.Ordered rest) (member : p ∈ tq.heap ++ rest) (pending : tq.pending p) :
    ∃ tq', tq.cancelTimer p = some tq' ∧ Cancelled rest tq p tq' := by
  obtain ⟨tq', done, cancelled⟩ := ordered.cancelSlot pending
  refine ⟨tq', ?_, cancelled⟩
  unfold TimerQueue.cancelTimer cancelWith
  rw [if_pos pending, ordered.owned.linked p member]
  exact done

/-- The last reference but one is given up. -/
theorem Ordered.release_last {objs : List ImplPtr} (ordered : tq.Ordered objs) (owner : objs.Perm (p :: rest))
    (once : (tq.heap ++ rest).count p = 1) (pending : tq.pending p) :
    ∃ tq', tq.release p = some tq' ∧ Cancelled rest tq p tq' := by
  have owned : tq.Owned (p :: (tq.heap ++ rest)) :=
    ordered.owned.perm ((owner.append_left tq.heap).trans List.perm_middle)
  have member : p ∈ tq.heap ++ rest := List.count_pos_iff.mp (by omega)
  have orderedLess : (tq.decRef p).Ordered rest := by
    constructor
    · exact owned.decRef member
    · rw [expiry_congr info_decRef]
      exact ordered.heap
  obtain ⟨tq', done, cancelled⟩ := orderedLess.cancelSlot (p := p) (by rwa [pending_decRef])
  refine ⟨tq', ?_, cancelled.toOrdered, ?_, cancelled.maxId, ?_, cancelled.fronted, fun count exact_ => ?_⟩
  · unfold TimerQueue.release
    rw [owned.releaseWith_last TimerQueue.cancel once pending]
    exact done
  · rw [cancelled.info, info_decRef]
  · obtain ⟨idle, same, entries⟩ := cancelled.entries
    exact ⟨idle, same, fun q member => by rw [← pending_decRef]; exact entries q member⟩
  · apply cancelled.exact_ count
    unfold Exact
    rw [pending_decRef]
    exact exact_

/-- A release that cancels nothing. -/
theorem Ordered.release {objs : List ImplPtr} (ordered : tq.Ordered objs) (owner : objs.Perm (p :: rest))
    (kept : tq.pending p → (tq.heap ++ rest).count p ≠ 1) :
    ∃ tq', tq.release p = some tq' ∧ tq'.Ordered rest ∧ Released tq tq' := by
  have owned : tq.Owned (p :: (tq.heap ++ rest)) :=
    ordered.owned.perm ((owner.append_left tq.heap).trans List.perm_middle)
  obtain ⟨tq', done, ownedLess, same⟩ := owned.releaseWith TimerQueue.cancel kept
  refine ⟨tq', done, ⟨?_, ?_⟩, same⟩
  · rwa [same.heap]
  · rw [same.heap, expiry_congr same.info]
    exact ordered.heap

/-! ## The end of `expire` -/

/-- What becomes of a timer after its callback. -/
inductive Outcome (tq : TimerQueue) (p : ImplPtr) (now : Int) (tq' : TimerQueue) : Prop
  | again (pending : tq.pending p) (periodic : 0 < (tq.info p).interval)
      (info : tq'.info = Function.update tq.info p
        { tq.info p with expiry := max ((tq.info p).expiry + (tq.info p).interval) (now + 1) })
      (entries : tq'.heap.Perm (p :: tq.heap))
  | ended (pending : tq.pending p) (oneShot : ¬0 < (tq.info p).interval)
      (info : tq'.info = Function.update tq.info p { tq.info p with slot := none }) (entries : tq'.heap = tq.heap)
  | idle (cancelled : tq.pending p = false) (info : tq'.info = tq.info) (entries : tq'.heap = tq.heap)

structure Expired (rest : List ImplPtr) (tq : TimerQueue) (p : ImplPtr) (now : Int) (tq' : TimerQueue) : Prop extends
    Ordered rest tq' where
  maxId : tq'.maxId = tq.maxId
  cancelled : tq'.cancelled = tq.cancelled
  outcome : Outcome tq p now tq'

theorem info_setExpiry {expiry : Int} : (tq.setExpiry p expiry).info = Function.update tq.info p { tq.info p with expiry } := by
  funext q
  unfold info setExpiry
  rw [impls_modify, Function.update_apply]
  split
  next => rfl
  next => rfl

/-- The release of a timer that is not pending, or that another timer beside its entry keeps. -/
theorem Outcome.kept {now : Int} (outcome : Outcome tq p now tq') (held : tq.pending p → p ∈ rest) :
    tq'.pending p → (tq'.heap ++ rest).count p ≠ 1 := by
  intro pending once
  cases outcome with
  | again pendingBefore _ _ entries =>
    have two : 1 ≤ rest.count p := List.one_le_count_iff.mpr (held pendingBefore)
    rw [List.count_append, entries.count_eq, List.count_cons_self] at once
    omega
  | ended _ _ info _ =>
    rw [pending_self info] at pending
    cases pending
  | idle cancelled info _ =>
    rw [pending_congr info, cancelled] at pending
    cases pending

theorem Ordered.expire {objs : List ImplPtr} (now : Int) (ordered : tq.Ordered objs) (owner : objs.Perm (p :: rest))
    (absent : p ∉ tq.heap) (held : tq.pending p → p ∈ rest) :
    ∃ tq', (tq.expired p now).release p = some tq' ∧ tq'.pending p = (tq.expired p now).pending p ∧
      Expired rest tq p now tq' := by
  have member : p ∈ tq.heap ++ objs := List.mem_append_right _ (owner.mem_iff.mpr List.mem_cons_self)
  have after : (tq.expired p now).Ordered objs ∧ (tq.expired p now).maxId = tq.maxId ∧
      (tq.expired p now).cancelled = tq.cancelled ∧ Outcome tq p now (tq.expired p now) := by
    unfold TimerQueue.expired
    cases pending : tq.pending p with
    | true =>
      rw [if_pos rfl]
      by_cases periodic : 0 < (tq.impls p).interval
      · rw [if_pos periodic]
        have later : ∀ expiry, (tq.setExpiry p expiry).Ordered objs := fun expiry =>
          ⟨ordered.owned.setExpiry, isHeap_update ordered.heap info_setExpiry absent⟩
        obtain ⟨pushed, perm⟩ := (later (max (tq.expiry p + (tq.impls p).interval) (now + 1))).pushHeap (p := p) member
        exact ⟨pushed, rfl, rfl, .again pending periodic (info_addRef.trans info_setExpiry) perm⟩
      · rw [if_neg periodic]
        have reset : (tq.resetSlot p).Ordered objs := by
          constructor
          · exact ordered.owned.resetSlot
          · rw [expiry_resetSlot]
            exact ordered.heap
        exact ⟨reset, rfl, rfl, .ended pending periodic info_resetSlot rfl⟩
    | false =>
      rw [if_neg Bool.false_ne_true]
      exact ⟨ordered, rfl, rfl, .idle pending rfl rfl⟩
  obtain ⟨orderedAfter, maxId, cancelled, outcome⟩ := after
  obtain ⟨tq', done, orderedLess, same⟩ := orderedAfter.release owner (outcome.kept held)
  refine ⟨tq', done, congrFun (pending_congr same.info) p, orderedLess, same.maxId.trans maxId,
    same.cancelled.trans cancelled, ?_⟩
  cases outcome with
  | again pending periodic info entries =>
    exact .again pending periodic (same.info.trans info) (same.heap ▸ entries)
  | ended pending oneShot info entries => exact .ended pending oneShot (same.info.trans info) (same.heap.trans entries)
  | idle cancelled info entries => exact .idle cancelled (same.info.trans info) (same.heap.trans entries)

end TimerQueue

end Swirly
