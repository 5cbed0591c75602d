import Swirly.Verified.Timer.Ownership

/-!
# The count of cancelled timers

The queue takes every cancelled timer for an entry of its heap.  A timer that is being fired is none, and so the count is
exact as long as no callback cancels a timer that is being fired.
-/

namespace Swirly

namespace Timers

open TimerQueue

/-- A callback cancels a timer that is being fired, or gives up the last timer outside the queue that keeps it pending. -/
def CancelsFired (t : Timers) : Op → Prop
  | .cancel ref => ∃ p ∈ t.deref ref, p ∈ t.fired ∧ t.tq.pending p
  | .drop i => ∃ p ∈ t.handles[i]?, p ∈ t.fired ∧ t.tq.pending p ∧ t.handles.count p = 1
  | _ => False

instance (t : Timers) : (op : Op) → Decidable (t.CancelsFired op)
  | .cancel ref => inferInstanceAs (Decidable (∃ p ∈ t.deref ref, p ∈ t.fired ∧ t.tq.pending p))
  | .drop i => inferInstanceAs (Decidable (∃ p ∈ t.handles[i]?, p ∈ t.fired ∧ t.tq.pending p ∧ t.handles.count p = 1))
  | .insert .. | .copy _ | .dispatch _ | .finish => inferInstanceAs (Decidable False)

variable {t t' : Timers} {op : Op} {p : ImplPtr}

/-! ## Steps -/

/-- A change of one timer that is no entry. -/
theorem countP_update {tq tq' : TimerQueue} {info : Timer.Info} {heap : List ImplPtr}
    (changed : tq'.info = Function.update tq.info p info) (absent : p ∉ heap) :
    (heap.countP fun q => !tq'.pending q) = heap.countP fun q => !tq.pending q := by
  apply List.countP_congr
  intro q member
  rw [pending_update changed fun here => absent (here ▸ member)]

theorem exact_proceeded {now n : Int} (exact_ : t.tq.Exact) (proceeded : Proceeded t now n t') : t'.tq.Exact := by
  cases proceeded with
  | fired due => exact due.exact_ exact_
  | returned drained => exact drained.exact_ exact_

theorem exact_inserted {rest : List ImplPtr} {tq tq' : TimerQueue} {info : Timer.Info} (exact_ : tq.Exact)
    (inserted : Inserted rest tq p info tq') (slot : info.slot.isSome) : tq'.Exact := by
  have absent : p ∉ tq.heap := fun member => inserted.fresh (List.mem_append_left rest member)
  have pending : tq'.pending p = true := (pending_self inserted.info).trans slot
  unfold Exact at exact_ ⊢
  rw [inserted.cancelled, exact_, inserted.entries.countP_eq, List.countP_cons_of_neg (by simp [pending]),
    countP_update inserted.info absent]

theorem exact_expired {rest : List ImplPtr} {tq tq' : TimerQueue} {now : Int} (exact_ : tq.Exact)
    (expired : Expired rest tq p now tq') (absent : p ∉ tq.heap) : tq'.Exact := by
  unfold Exact at exact_ ⊢
  rw [expired.cancelled, exact_]
  cases expired.outcome with
  | again pending periodic info entries =>
    have still : tq'.pending p = true := (pending_self info).trans pending
    rw [entries.countP_eq, List.countP_cons_of_neg (by simp [still]), countP_update info absent]
  | ended pending oneShot info entries => rw [entries, countP_update info absent]
  | idle cancelled info entries => rw [entries, pending_congr info]

/-- A pending timer that is not being fired has an entry. -/
theorem Base.entry (base : t.Base) (pending : t.tq.pending p) (notFired : p ∉ t.fired) : t.tq.heap.count p = 1 := by
  have one := base.count pending
  rw [List.count_append, List.count_eq_zero.mpr notFired] at one
  exact one

theorem Inv.exact_ (inv : t.Inv) (exact_ : t.tq.Exact) (moves : Moves t op t') (elsewhere : ¬t.CancelsFired op) :
    t'.tq.Exact := by
  cases moves with
  | inserted inserted => exact exact_inserted exact_ inserted rfl
  | @copied ref p named =>
    have same : (t.tq.addRef p).pending = t.tq.pending := pending_congr info_addRef
    unfold Exact at exact_ ⊢
    change t.tq.cancelled = (t.tq.heap.countP fun q => !(t.tq.addRef p).pending q : Nat)
    rw [same, exact_]
  | @dropped i p tq named ordered released kept =>
    change tq.Exact
    unfold Exact at exact_ ⊢
    rw [released.cancelled, released.heap, pending_congr released.info, exact_]
  | abandoned named pending once cancelled =>
    apply cancelled.exact_ _ exact_
    exact inv.toBase.entry pending fun fired => elsewhere ⟨_, named, fired, pending, once⟩
  | idle named idle => exact exact_
  | cancelled named pending cancelled =>
    apply cancelled.exact_ _ exact_
    exact inv.toBase.entry pending fun fired => elsewhere ⟨_, named, fired, pending⟩
  | dispatched proceeded => exact exact_proceeded exact_ proceeded
  | @finished frame frames tq t' running expired proceeded =>
    have absent : frame.tmr ∉ t.tq.heap := fun member => by
      have fired : frame.tmr ∈ t.fired := by
        unfold Timers.fired
        rw [running]
        exact List.mem_cons_self
      exact (List.nodup_append.mp inv.placed).2.2 _ member _ fired rfl
    exact exact_proceeded (exact_expired exact_ expired absent) proceeded

/-! ## Runs -/

theorem exact_of_run {ops : List Op} (run : Run step (fun t op => ¬t.CancelsFired op) {} ops t) : t.tq.Exact := by
  have both : t.Inv ∧ t.tq.Exact := by
    apply run.invariant (I := fun t => t.Inv ∧ t.tq.Exact)
    · intro t op u both elsewhere stepped
      exact ⟨both.1.step stepped, both.1.exact_ both.2 (both.1.toBase.of_step stepped) elsewhere⟩
    · exact ⟨Inv.start, rfl⟩
  exact both.2

/-- The pending timers among all elements of the slabs. -/
def pendingCount (t : Timers) : Nat := (List.range t.tq.allocated).countP t.tq.pending

theorem Inv.pendingCount (inv : t.Inv) : t.pendingCount = (t.tq.heap ++ t.fired).countP t.tq.pending := by
  have same : ((List.range t.tq.allocated).filter t.tq.pending).Perm ((t.tq.heap ++ t.fired).filter t.tq.pending) := by
    rw [List.perm_ext_iff_of_nodup (List.nodup_range.filter _) (inv.placed.filter _)]
    intro p
    rw [List.mem_filter, List.mem_filter, List.mem_range]
    constructor
    · exact fun both => ⟨(inv.held p both.2).1, both.2⟩
    · intro both
      have outside := (inv.held p both.2).2
      exact ⟨inv.ordered.owned.allocated p (List.mem_append_right _ (List.mem_append_left _ outside)), both.2⟩
  unfold Timers.pendingCount
  rw [List.countP_eq_length_filter, List.countP_eq_length_filter, same.length_eq]

theorem size_of_exact {tq : TimerQueue} (exact_ : tq.Exact) : tq.size = tq.heap.countP tq.pending := by
  have total := List.length_eq_countP_add_countP tq.pending (l := tq.heap)
  have idle : (tq.heap.countP fun p => decide ¬tq.pending p = true) = tq.heap.countP fun p => !tq.pending p :=
    List.countP_congr fun p _ => by simp
  unfold Exact at exact_
  unfold TimerQueue.size
  rw [exact_]
  omega

theorem cancelled_exact {ops : List Op} (run : Run step (fun t op => ¬t.CancelsFired op) {} ops t) :
    t.tq.cancelled = t.tq.heap.countP (fun p => !t.tq.pending p) ∧
      t.tq.size + t.fired.countP t.tq.pending = t.pendingCount ∧
      (t.frames = [] → t.tq.size = t.pendingCount ∧ (t.tq.empty ↔ ∀ p, t.tq.pending p = false)) := by
  have exact_ := exact_of_run run
  have inv := inv_of_run run
  have total : t.tq.size + t.fired.countP t.tq.pending = t.pendingCount := by
    rw [inv.pendingCount, List.countP_append, size_of_exact exact_]
    rfl
  refine ⟨exact_, total, fun quiet => ?_⟩
  have noneFired : t.fired = [] := by
    unfold fired
    rw [quiet]
    rfl
  have sizes : t.tq.size = t.pendingCount := by
    rw [noneFired] at total
    simpa using total
  refine ⟨sizes, ?_⟩
  unfold TimerQueue.empty
  rw [sizes, decide_eq_true_iff, Int.natCast_eq_zero, inv.pendingCount, noneFired, List.append_nil, List.countP_eq_zero]
  constructor
  · intro idle p
    by_contra pending
    rw [Bool.not_eq_false] at pending
    have somewhere := (inv.held p pending).1
    rw [noneFired, List.append_nil] at somewhere
    exact idle p somewhere pending
  · exact fun idle p _ pending => by simp [idle p] at pending

/-- A callback cancels a timer that waits, and the count and the size are those of what is left. -/
theorem cancelled_exact_waiting : ∃ t ops, Run step (fun t op => ¬t.CancelsFired op) {} ops t ∧ t.tq.heap.length = 3 ∧
    t.frames = [] ∧ t.tq.size = t.pendingCount := by
  obtain ⟨ops, isOps⟩ : ∃ ops : List Op, ops = [.insert 1 0 ⟨1, 1⟩, .insert 10 0 ⟨2, 1⟩, .insert 20 0 ⟨2, 1⟩, .insert 30 0 ⟨2, 1⟩,
    .dispatch 5, .cancel (.handle 1), .finish] := ⟨_, rfl⟩
  have made : ∃ t ∈ Run.exec step (fun t op => ¬t.CancelsFired op) {} ops, t.tq.heap.length = 3 ∧ t.frames = [] := by
    rw [isOps]
    decide +kernel
  obtain ⟨t, done, entries, quiet⟩ := made
  have run := Run.of_exec done
  exact ⟨t, ops, run, entries, quiet, ((cancelled_exact run).2.2 quiet).1⟩

/-- A session that closes itself when its time is out, beside two other sessions. -/
theorem cancelled_while_fired : ∃ t ops, Run step (fun _ _ => True) {} ops t ∧ t.frames = [] ∧ t.tq.cancelled = 1 ∧
    t.tq.heap.countP (fun p => !t.tq.pending p) = 0 ∧ t.tq.size = 1 ∧ t.pendingCount = 2 := by
  obtain ⟨ops, isOps⟩ : ∃ ops : List Op, ops = [.insert 1 0 ⟨1, 1⟩, .insert 10 0 ⟨2, 1⟩, .insert 20 0 ⟨3, 1⟩,
    .dispatch 5, .cancel (.handle 2), .finish] := ⟨_, rfl⟩
  have made : ∃ t ∈ Run.exec step (fun _ _ => True) {} ops, t.frames = [] ∧ t.tq.cancelled = 1 ∧
      t.tq.heap.countP (fun p => !t.tq.pending p) = 0 ∧ t.tq.size = 1 ∧ (t.tq.heap ++ t.fired).countP t.tq.pending = 2 := by
    rw [isOps]
    decide +kernel
  obtain ⟨t, done, quiet, count, idle, size, pending⟩ := made
  have run := Run.of_exec done
  exact ⟨t, ops, run, quiet, count, idle, size, (inv_of_run run).pendingCount.trans pending⟩

end Timers

end Swirly
