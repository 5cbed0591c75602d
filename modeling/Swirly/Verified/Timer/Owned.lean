import Mathlib
import Swirly.Lib.FreeList
import Swirly.Sys.Timer

/-!
# Who owns the timers

`tq.Owned objs` says that `objs` are all the timers there are, entries of the heap or not: the reference counts count them,
and the elements of the slabs to which none of them points make up the free list.
-/

namespace Swirly

namespace TimerQueue

/-- What a timer on the free list stores in the union. -/
def freeLink (tq : TimerQueue) (p : ImplPtr) : Option (Option ImplPtr) :=
  match (tq.impls p).link with
  | .next rest => some rest
  | .tq => none

structure Owned (tq : TimerQueue) (objs : List ImplPtr) : Prop where
  allocated : ∀ p ∈ objs, p < tq.allocated
  counted : ∀ p, (tq.impls p).refCount = objs.count p
  linked : ∀ p ∈ objs, (tq.impls p).link = .tq
  free : ∃ ps, Linked tq.freeLink tq.free ps ∧ ps.Nodup ∧ ∀ p, p ∈ ps ↔ p < tq.allocated ∧ p ∉ objs

/-- Only the bookkeeping of the references differs. -/
structure Released (tq tq' : TimerQueue) : Prop where
  info : tq'.info = tq.info
  maxId : tq'.maxId = tq.maxId
  cancelled : tq'.cancelled = tq.cancelled
  heap : tq'.heap = tq.heap

variable {tq tq' tq'' : TimerQueue} {objs rest : List ImplPtr} {p q : ImplPtr}

/-! ## Fields -/

theorem pending_congr (same : tq'.info = tq.info) : tq'.pending = tq.pending :=
  funext fun p => congrArg (fun info => info.slot.isSome) (congrFun same p)

theorem expiry_congr (same : tq'.info = tq.info) : tq'.expiry = tq.expiry :=
  funext fun p => congrArg Timer.Info.expiry (congrFun same p)

theorem impls_modify (f : Timer.Impl → Timer.Impl) :
    (tq.modify p f).impls q = if q = p then f (tq.impls p) else tq.impls q :=
  Function.update_apply _ _ _ _

theorem impls_decRef :
    (tq.decRef p).impls q = if q = p then { tq.impls p with refCount := (tq.impls p).refCount - 1 } else tq.impls q :=
  impls_modify fun impl => { impl with refCount := impl.refCount - 1 }

theorem impls_pushFree :
    (tq.pushFree p).impls q = if q = p then { tq.impls p with link := .next tq.free } else tq.impls q :=
  impls_modify fun impl => { impl with link := .next tq.free }

/-- A change of one timer that leaves what it is. -/
theorem info_modify {f : Timer.Impl → Timer.Impl} (same : ∀ impl, (f impl).info = impl.info) :
    (tq.modify p f).info = tq.info := by
  funext q
  unfold info
  rw [impls_modify]
  split
  next here => rw [same, here]
  next => rfl

@[simp] theorem info_addRef : (tq.addRef p).info = tq.info := info_modify fun _ => rfl

@[simp] theorem info_decRef : (tq.decRef p).info = tq.info := info_modify fun _ => rfl

@[simp] theorem info_pushFree : (tq.pushFree p).info = tq.info :=
  info_modify (f := fun impl => { impl with link := .next tq.free }) fun _ => rfl

@[simp] theorem pending_decRef : (tq.decRef p).pending = tq.pending := pending_congr info_decRef

theorem pending_resetSlot : (tq.resetSlot p).pending q = (tq.pending q && decide (q ≠ p)) := by
  unfold pending resetSlot
  rw [impls_modify]
  split
  next here => simp [here]
  next elsewhere => simp [elsewhere]

theorem expiry_resetSlot : (tq.resetSlot p).expiry = tq.expiry := by
  funext q
  unfold expiry resetSlot
  rw [impls_modify]
  split
  next here => rw [here]
  next => rfl

/-! ## References -/

theorem Released.refl : Released tq tq := ⟨rfl, rfl, rfl, rfl⟩

theorem Released.trans (first : Released tq tq') (second : Released tq' tq'') : Released tq tq'' :=
  ⟨second.info.trans first.info, second.maxId.trans first.maxId, second.cancelled.trans first.cancelled,
    second.heap.trans first.heap⟩

theorem Owned.perm {objs' : List ImplPtr} (owned : tq.Owned objs) (same : objs.Perm objs') : tq.Owned objs' := by
  obtain ⟨ps, linked, nodup, exact_⟩ := owned.free
  constructor
  · exact fun p member => owned.allocated p (same.mem_iff.mpr member)
  · exact fun p => same.count_eq p ▸ owned.counted p
  · exact fun p member => owned.linked p (same.mem_iff.mpr member)
  · exact ⟨ps, linked, nodup, fun p => by rw [exact_, same.mem_iff]⟩

/-- The same elements of the slabs and the same free list. -/
theorem Owned.congr (owned : tq.Owned objs) (impls : tq'.impls = tq.impls) (allocated : tq'.allocated = tq.allocated)
    (free : tq'.free = tq.free) : tq'.Owned objs := by
  have links : tq'.freeLink = tq.freeLink := funext fun p => by
    unfold freeLink
    rw [impls]
  constructor
  · rw [allocated]
    exact owned.allocated
  · rw [impls]
    exact owned.counted
  · rw [impls]
    exact owned.linked
  · rw [allocated, free, links]
    exact owned.free

/-- A change of one timer that leaves its link, and the reference count that it should have. -/
theorem Owned.modify {f : Timer.Impl → Timer.Impl} {objs' : List ImplPtr} (owned : tq.Owned objs)
    (link : ∀ impl, (f impl).link = impl.link) (count : (f (tq.impls p)).refCount = objs'.count p)
    (others : ∀ q, q ≠ p → objs'.count q = objs.count q) (same : ∀ q, q ∈ objs' ↔ q ∈ objs) : (tq.modify p f).Owned objs' := by
  have links : ∀ q, ((tq.modify p f).impls q).link = (tq.impls q).link := fun q => by
    rw [impls_modify]
    split
    next here => rw [link, here]
    next => rfl
  obtain ⟨ps, linked, nodup, exact_⟩ := owned.free
  constructor
  · exact fun q member => owned.allocated q ((same q).mp member)
  · intro q
    rw [impls_modify]
    split
    next here => rw [count, here]
    next elsewhere => rw [others q elsewhere, owned.counted]
  · intro q member
    rw [links]
    exact owned.linked q ((same q).mp member)
  · refine ⟨ps, linked.congr fun q _ => ?_, nodup, fun q => by rw [exact_, same]; rfl⟩
    unfold freeLink
    rw [links]

theorem Owned.addRef (owned : tq.Owned objs) (member : p ∈ objs) : (tq.addRef p).Owned (p :: objs) := by
  apply owned.modify
  · exact fun _ => rfl
  · have counted := owned.counted p
    simp [counted]
  · intro q elsewhere
    exact List.count_cons_of_ne (Ne.symm elsewhere)
  · intro q
    constructor
    · intro either
      cases either with
      | head => exact member
      | tail _ member => exact member
    · exact List.mem_cons_of_mem p

theorem Owned.decRef (owned : tq.Owned (p :: objs)) (member : p ∈ objs) : (tq.decRef p).Owned objs := by
  apply owned.modify
  · exact fun _ => rfl
  · have counted := owned.counted p
    rw [List.count_cons_self] at counted
    simp [counted]
  · intro q elsewhere
    exact (List.count_cons_of_ne (Ne.symm elsewhere)).symm
  · intro q
    constructor
    · exact List.mem_cons_of_mem p
    · intro either
      cases either with
      | head => exact member
      | tail _ member => exact member

theorem Owned.resetSlot (owned : tq.Owned objs) : (tq.resetSlot p).Owned objs :=
  owned.modify (fun _ => rfl) (owned.counted p) (fun _ _ => rfl) fun _ => .rfl

theorem Owned.setExpiry {expiry : Int} (owned : tq.Owned objs) : (tq.setExpiry p expiry).Owned objs :=
  owned.modify (fun _ => rfl) (owned.counted p) (fun _ _ => rfl) fun _ => .rfl

/-- The last reference to a timer is given up. -/
theorem Owned.pushFree (owned : tq.Owned (p :: objs)) (last : p ∉ objs) : ((tq.decRef p).pushFree p).Owned objs := by
  obtain ⟨ps, linked, nodup, exact_⟩ := owned.free
  have unlisted : p ∉ ps := fun listed => ((exact_ p).mp listed).2 List.mem_cons_self
  have elsewhere : ∀ q, q ≠ p → ((tq.decRef p).pushFree p).impls q = tq.impls q := fun q other => by
    rw [impls_pushFree, if_neg other, impls_decRef, if_neg other]
  have here : ((tq.decRef p).pushFree p).impls p =
      { tq.impls p with refCount := (tq.impls p).refCount - 1, link := .next tq.free } := by
    rw [impls_pushFree, if_pos rfl, impls_decRef, if_pos rfl]
    rfl
  constructor
  · exact fun q member => owned.allocated q (List.mem_cons_of_mem p member)
  · intro q
    by_cases same : q = p
    · have counted := owned.counted p
      rw [List.count_cons_self] at counted
      rw [same, here]
      simp [counted]
    · rw [elsewhere q same, owned.counted, List.count_cons_of_ne (Ne.symm same)]
  · intro q member
    rw [elsewhere q fun same => last (same ▸ member)]
    exact owned.linked q (List.mem_cons_of_mem p member)
  · have link : ((tq.decRef p).pushFree p).freeLink p = some tq.free := by
      unfold freeLink
      rw [here]
    refine ⟨p :: ps, .cons link (linked.congr fun q listed => ?_), ?_, fun q => ?_⟩
    · unfold freeLink
      rw [elsewhere q fun same => unlisted (same ▸ listed)]
    · exact List.nodup_cons.mpr ⟨unlisted, nodup⟩
    · rw [List.mem_cons, exact_ q]
      by_cases same : q = p
      · simp only [same, true_or, true_iff]
        exact ⟨owned.allocated p List.mem_cons_self, last⟩
      · simp only [same, false_or, List.mem_cons]
        rfl

/-- A release that cancels nothing. -/
theorem Owned.releaseWith (owned : tq.Owned (p :: objs)) (cancel : TimerQueue → Option TimerQueue)
    (kept : tq.pending p → objs.count p ≠ 1) :
    ∃ tq', tq.releaseWith cancel p = some tq' ∧ tq'.Owned objs ∧ Released tq tq' := by
  have count : ((tq.decRef p).impls p).refCount = objs.count p := by
    have counted := owned.counted p
    rw [List.count_cons_self] at counted
    rw [impls_decRef, if_pos rfl]
    simp [counted]
  have link : ((tq.decRef p).impls p).link = .tq := by
    rw [impls_decRef, if_pos rfl]
    exact owned.linked p List.mem_cons_self
  have decreased : Released tq (tq.decRef p) := ⟨info_decRef, rfl, rfl, rfl⟩
  unfold TimerQueue.releaseWith
  by_cases member : p ∈ objs
  · have positive : (objs.count p : Int) ≠ 0 := fun zero => List.count_eq_zero.mp (by exact_mod_cast zero) member
    refine ⟨tq.decRef p, ?_, owned.decRef member, decreased⟩
    simp only [count, positive, if_false]
    split
    next one =>
      have idle : (tq.decRef p).pending p = false := by
        rw [pending_decRef]
        exact Bool.eq_false_iff.mpr fun pending => kept pending (by exact_mod_cast one)
      unfold cancelWith
      rw [idle]
      rfl
    next => rfl
  · have zero : objs.count p = 0 := List.count_eq_zero.mpr member
    refine ⟨(tq.decRef p).pushFree p, ?_, owned.pushFree member, decreased.trans ⟨info_pushFree, rfl, rfl, rfl⟩⟩
    simp only [count, zero, link]
    rfl

/-- The release of the last reference that a pending timer has but one. -/
theorem Owned.releaseWith_last (owned : tq.Owned (p :: objs)) (cancel : TimerQueue → Option TimerQueue)
    (once : objs.count p = 1) (pending : tq.pending p) :
    tq.releaseWith cancel p = cancel ((tq.decRef p).resetSlot p) := by
  have count : ((tq.decRef p).impls p).refCount = 1 := by
    have counted := owned.counted p
    rw [List.count_cons_self, once] at counted
    rw [impls_decRef, if_pos rfl]
    simp [counted]
  have link : ((tq.decRef p).impls p).link = .tq := by
    rw [impls_decRef, if_pos rfl]
    exact owned.linked p List.mem_cons_self
  unfold TimerQueue.releaseWith cancelWith
  simp only [count, if_true, pending_decRef, pending, link]

/-! ## New timers -/

/-- What `alloc` makes of an element of a slab that nothing refers to and that the free list has given up. -/
theorem Owned.assign {expiry interval : Int} {slot : TimerSlot} (allocated : ∀ q ∈ p :: objs, q < tq.allocated)
    (counted : ∀ q, (tq.impls q).refCount = objs.count q) (linked : ∀ q ∈ objs, (tq.impls q).link = .tq) (fresh : p ∉ objs)
    (free : ∃ ps, Linked tq.freeLink tq.free ps ∧ ps.Nodup ∧ ∀ q, q ∈ ps ↔ q < tq.allocated ∧ q ∉ p :: objs) :
    (tq.assign p expiry interval slot).Owned (p :: objs) := by
  obtain ⟨ps, chain, nodup, exact_⟩ := free
  have impls : ∀ q, (tq.assign p expiry interval slot).impls q =
      if q = p then ⟨.tq, 1, tq.maxId + 1, expiry, interval, some slot⟩ else tq.impls q := fun q => Function.update_apply _ _ _ _
  constructor
  · exact allocated
  · intro q
    rw [impls]
    split
    next here => simp [here, List.count_eq_zero.mpr fresh]
    next elsewhere => rw [counted, List.count_cons_of_ne (Ne.symm elsewhere)]
  · intro q member
    rw [impls]
    split
    next => rfl
    next elsewhere => exact linked q ((List.mem_cons.mp member).resolve_left elsewhere)
  · refine ⟨ps, chain.congr fun q listed => ?_, nodup, exact_⟩
    have elsewhere : q ≠ p := fun here => ((exact_ q).mp listed).2 (here ▸ List.mem_cons_self)
    unfold freeLink
    rw [impls, if_neg elsewhere]

/-- The elements `bs` put on the free list one after another. -/
theorem foldl_pushFree {bs ps : List ImplPtr} (linked : Linked tq.freeLink tq.free ps) (nodup : (bs ++ ps).Nodup) :
    Linked (bs.foldl TimerQueue.pushFree tq).freeLink (bs.foldl TimerQueue.pushFree tq).free (bs.reverse ++ ps) ∧
      Released tq (bs.foldl TimerQueue.pushFree tq) ∧ (bs.foldl TimerQueue.pushFree tq).allocated = tq.allocated ∧
      (∀ q, ((bs.foldl TimerQueue.pushFree tq).impls q).refCount = (tq.impls q).refCount) ∧
      ∀ q, q ∉ bs → ((bs.foldl TimerQueue.pushFree tq).impls q).link = (tq.impls q).link := by
  induction bs generalizing tq ps with
  | nil => exact ⟨linked, .refl, rfl, fun _ => rfl, fun _ _ => rfl⟩
  | cons b bs inductionHypothesis =>
    rw [List.cons_append, List.nodup_cons, List.mem_append, not_or] at nodup
    obtain ⟨⟨_, unlisted⟩, nodupRest⟩ := nodup
    have pushed : Linked (tq.pushFree b).freeLink (tq.pushFree b).free (b :: ps) := by
      have link : (tq.pushFree b).freeLink b = some tq.free := by
        unfold freeLink
        rw [impls_pushFree, if_pos rfl]
      apply Linked.cons link
      apply linked.congr
      intro q listed
      unfold freeLink
      rw [impls_pushFree, if_neg fun same : q = b => unlisted (same ▸ listed)]
    have nodupNext : (bs ++ b :: ps).Nodup := by
      rw [List.nodup_middle, List.nodup_cons, List.mem_append, not_or]
      exact ⟨⟨‹b ∉ bs›, unlisted⟩, nodupRest⟩
    obtain ⟨chain, released, allocated, counts, links⟩ := inductionHypothesis pushed nodupNext
    rw [List.foldl_cons, List.reverse_cons, List.append_assoc]
    refine ⟨chain, .trans ⟨info_pushFree, rfl, rfl, rfl⟩ released, allocated, fun q => ?_, fun q absent => ?_⟩
    · rw [counts, impls_pushFree]
      split
      next here => rw [here]
      next => rfl
    · rw [List.mem_cons, not_or] at absent
      rw [links q absent.2, impls_pushFree, if_neg absent.1]

theorem mem_range_tail {q base n : Nat} (positive : 0 < n) :
    q ∈ List.range' (base + 1) (n - 1) ↔ base < q ∧ q < base + n := by
  rw [List.mem_range'_1]
  omega

/-- The elements of a new slab, of which the first is left to the caller. -/
theorem addSlab_spec (noFree : tq.free = none) :
    (∃ ps, Linked tq.addSlab.freeLink tq.addSlab.free ps ∧ ps.Nodup ∧
      ∀ q, q ∈ ps ↔ tq.allocated < q ∧ q < tq.allocated + slabSize) ∧
      Released tq tq.addSlab ∧ tq.addSlab.allocated = tq.allocated + slabSize ∧
      (∀ q, (tq.addSlab.impls q).refCount = (tq.impls q).refCount) ∧
      ∀ q, q ≤ tq.allocated → (tq.addSlab.impls q).link = (tq.impls q).link := by
  obtain ⟨larger, isLarger⟩ : ∃ larger : TimerQueue, larger = { tq with allocated := tq.allocated + slabSize } := ⟨_, rfl⟩
  have start : Linked larger.freeLink larger.free [] := by
    rw [isLarger, noFree]
    exact .nil
  have nodup : (List.range' (tq.allocated + 1) (slabSize - 1) ++ []).Nodup := by
    rw [List.append_nil]
    exact List.nodup_range'
  obtain ⟨slab, released, allocated, counts, links⟩ := foldl_pushFree start nodup
  rw [List.append_nil] at slab
  unfold TimerQueue.addSlab
  rw [← isLarger]
  refine ⟨⟨_, slab, ?_, fun q => ?_⟩, .trans ?_ released, allocated.trans (isLarger ▸ rfl), fun q => ?_, fun q small => ?_⟩
  · rw [List.nodup_reverse]
    exact List.nodup_range'
  · have positive : 0 < slabSize := by decide
    rw [List.mem_reverse, mem_range_tail positive]
  · rw [isLarger]
    exact ⟨rfl, rfl, rfl, rfl⟩
  · rw [counts, isLarger]
  · rw [links q fun later => absurd (List.mem_range'_1.mp later).1 (by omega), isLarger]

theorem info_assign {expiry interval : Int} {slot : TimerSlot} :
    (tq.assign p expiry interval slot).info = Function.update tq.info p ⟨tq.maxId + 1, expiry, interval, some slot⟩ := by
  funext q
  have impls : (tq.assign p expiry interval slot).impls q =
      if q = p then ⟨.tq, 1, tq.maxId + 1, expiry, interval, some slot⟩ else tq.impls q := Function.update_apply _ _ _ _
  unfold info
  rw [impls, Function.update_apply]
  split
  next => rfl
  next => rfl

section

variable {expiry interval : Int} {slot : TimerSlot}

@[simp] theorem maxId_assign : (tq.assign p expiry interval slot).maxId = tq.maxId + 1 := rfl

@[simp] theorem cancelled_assign : (tq.assign p expiry interval slot).cancelled = tq.cancelled := rfl

@[simp] theorem heap_assign : (tq.assign p expiry interval slot).heap = tq.heap := rfl

end

/-- A timer from the free list. -/
theorem Owned.assign_free {rest : Option ImplPtr} {ps : List ImplPtr} {expiry interval : Int} {slot : TimerSlot}
    (owned : tq.Owned objs) (linked : Linked tq.freeLink rest ps) (nodup : (p :: ps).Nodup)
    (exact_ : ∀ q, q ∈ p :: ps ↔ q < tq.allocated ∧ q ∉ objs) :
    (({ tq with free := rest } : TimerQueue).assign p expiry interval slot).Owned (p :: objs) := by
  obtain ⟨small, fresh⟩ := (exact_ p).mp List.mem_cons_self
  obtain ⟨unlisted, nodupTail⟩ := List.nodup_cons.mp nodup
  apply Owned.assign
  · intro q member
    cases member with
    | head => exact small
    | tail _ member => exact owned.allocated q member
  · exact owned.counted
  · exact owned.linked
  · exact fresh
  · refine ⟨ps, linked, nodupTail, fun q => ?_⟩
    have listed := exact_ q
    rw [List.mem_cons] at listed ⊢
    constructor
    · intro member
      obtain ⟨smallQ, freshQ⟩ := listed.mp (.inr member)
      exact ⟨smallQ, fun either => either.elim (fun same => unlisted (same ▸ member)) freshQ⟩
    · intro both
      exact (listed.mpr ⟨both.1, fun member => both.2 (.inr member)⟩).resolve_left fun same => both.2 (.inl same)

/-- The first timer of a new slab. -/
theorem Owned.assign_slab {added : TimerQueue} {ps : List ImplPtr} {n : Nat} {expiry interval : Int} {slot : TimerSlot}
    (owned : tq.Owned objs) (used : ∀ q, q < tq.allocated → q ∈ objs) (positive : 0 < n)
    (linked : Linked added.freeLink added.free ps) (nodup : ps.Nodup)
    (range : ∀ q, q ∈ ps ↔ tq.allocated < q ∧ q < tq.allocated + n) (allocated : added.allocated = tq.allocated + n)
    (counts : ∀ q, (added.impls q).refCount = (tq.impls q).refCount)
    (links : ∀ q, q ≤ tq.allocated → (added.impls q).link = (tq.impls q).link) :
    (added.assign tq.allocated expiry interval slot).Owned (tq.allocated :: objs) := by
  have fresh : tq.allocated ∉ objs := fun member => lt_irrefl _ (owned.allocated _ member)
  apply Owned.assign
  · intro q member
    rw [allocated]
    cases member with
    | head => exact Nat.lt_add_of_pos_right positive
    | tail _ member => exact (owned.allocated q member).trans (Nat.lt_add_of_pos_right positive)
  · exact fun q => (counts q).trans (owned.counted q)
  · intro q member
    have small := owned.allocated q member
    rw [links q small.le]
    exact owned.linked q member
  · exact fresh
  · refine ⟨ps, linked, nodup, fun q => ?_⟩
    rw [range, allocated, List.mem_cons]
    constructor
    · intro between
      refine ⟨between.2, fun either => ?_⟩
      cases either with
      | inl same => exact absurd (same ▸ between.1) (Nat.not_succ_le_self _)
      | inr member => exact absurd (owned.allocated q member) (Nat.lt_asymm between.1)
    · intro both
      have large : tq.allocated ≤ q := not_lt.mp fun small => both.2 (.inr (used q small))
      have other : tq.allocated ≠ q := fun same => both.2 (.inl same.symm)
      exact ⟨Nat.lt_of_le_of_ne large other, both.1⟩

/-- A new timer is one that nothing refers to. -/
theorem Owned.alloc (owned : tq.Owned objs) (expiry interval : Int) (slot : TimerSlot) :
    ∃ p tq', tq.alloc expiry interval slot = some (p, tq') ∧ p ∉ objs ∧ tq'.Owned (p :: objs) ∧
      tq'.info = Function.update tq.info p ⟨tq.maxId + 1, expiry, interval, some slot⟩ ∧ tq'.maxId = tq.maxId + 1 ∧
      tq'.cancelled = tq.cancelled ∧ tq'.heap = tq.heap := by
  obtain ⟨ps, chain, nodup, exact_⟩ := owned.free
  cases head : tq.free with
  | some p =>
    rw [head] at chain
    obtain ⟨rest, tail, link, rfl, tailChain⟩ := chain.of_some
    have stored : (tq.impls p).link = .next rest := by
      unfold freeLink at link
      split at link
      next rest' stored => rw [stored, Option.some.inj link]
      next => cases link
    have given : tq.alloc expiry interval slot = some (p, ({ tq with free := rest } : TimerQueue).assign p expiry interval slot) := by
      unfold TimerQueue.alloc
      simp only [head, stored]
    obtain ⟨-, fresh⟩ := (exact_ p).mp List.mem_cons_self
    exact ⟨p, _, given, fresh, owned.assign_free tailChain nodup exact_, info_assign, rfl, rfl, rfl⟩
  | none =>
    rw [head] at chain
    obtain rfl := chain.of_none
    have used : ∀ q, q < tq.allocated → q ∈ objs := fun q small => by
      by_contra fresh
      cases (exact_ q).mpr ⟨small, fresh⟩
    have fresh : tq.allocated ∉ objs := fun member => lt_irrefl _ (owned.allocated _ member)
    have given : tq.alloc expiry interval slot = some (tq.allocated, tq.addSlab.assign tq.allocated expiry interval slot) := by
      unfold TimerQueue.alloc
      rw [head]
    obtain ⟨⟨ps, slab, nodupSlab, range⟩, released, allocated, counts, links⟩ := addSlab_spec head
    have positive : 0 < slabSize := by decide
    have owner : (tq.addSlab.assign tq.allocated expiry interval slot).Owned (tq.allocated :: objs) :=
      owned.assign_slab used positive slab nodupSlab range allocated counts links
    refine ⟨tq.allocated, _, given, fresh, owner, ?_, ?_, ?_, ?_⟩
    · rw [info_assign, released.info, released.maxId]
    · rw [maxId_assign, released.maxId]
    · rw [cancelled_assign, released.cancelled]
    · rw [heap_assign, released.heap]

end TimerQueue

end Swirly
