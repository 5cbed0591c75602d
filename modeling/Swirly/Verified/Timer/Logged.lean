import Swirly.Lib.Chronicle
import Swirly.Verified.Timer.Ownership

/-!
# Cancelled timers are not fired

No two pending timers have the same id, and the id of a timer that was cancelled is not that of a pending one: it is never
given again.
-/

namespace Swirly

namespace Timers

open TimerQueue

/-- A timer is not fired once it has been cancelled. -/
def NotCancelled (before : List Note) (note : Note) : Prop := ∀ info, note = .invoked info → .cancelled info.id ∉ before

structure Logged (t : Timers) : Prop where
  bounded : ∀ p, (t.tq.info p).id ≤ t.tq.maxId
  distinct : ∀ p q, t.tq.pending p → t.tq.pending q → (t.tq.info p).id = (t.tq.info q).id → p = q
  noted : ∀ id, .cancelled id ∈ t.trace → id ≤ t.tq.maxId ∧ ∀ p, t.tq.pending p → (t.tq.info p).id ≠ id
  chronicle : Chronicle NotCancelled t.trace

/-- No timer becomes pending and none changes its id. -/
structure Fewer (tq tq' : TimerQueue) : Prop where
  id : ∀ p, (tq'.info p).id = (tq.info p).id
  pending : ∀ p, tq'.pending p → tq.pending p
  maxId : tq'.maxId = tq.maxId

variable {t t' : Timers} {op : Op} {tq tq' : TimerQueue} {p : ImplPtr}

/-! ## Steps -/

theorem fewer_of_info (info : tq'.info = tq.info) (maxId : tq'.maxId = tq.maxId) : Fewer tq tq' :=
  ⟨fun p => by rw [info], fun p pending => by rwa [← pending_congr info], maxId⟩

theorem fewer_of_update {info : Timer.Info} (changed : tq'.info = Function.update tq.info p info)
    (id : info.id = (tq.info p).id) (pending : info.slot.isSome → tq.pending p) (maxId : tq'.maxId = tq.maxId) :
    Fewer tq tq' := by
  refine ⟨fun q => ?_, fun q pendingQ => ?_, maxId⟩
  · rw [changed, Function.update_apply]
    split
    next here => rw [id, here]
    next => rfl
  · by_cases here : q = p
    · rw [here, pending_self changed] at pendingQ
      rw [here]
      exact pending pendingQ
    · rwa [← pending_update changed here]

theorem Logged.fewer (logged : t.Logged) {handles : List ImplPtr} {frames : List Frame} (fewer : Fewer t.tq tq) :
    Logged { t with tq, handles, frames } := by
  constructor
  · intro p
    change (tq.info p).id ≤ tq.maxId
    rw [fewer.id, fewer.maxId]
    exact logged.bounded p
  · intro p q pendingP pendingQ same
    change (tq.info p).id = (tq.info q).id at same
    rw [fewer.id, fewer.id] at same
    exact logged.distinct p q (fewer.pending p pendingP) (fewer.pending q pendingQ) same
  · intro id cancelled
    obtain ⟨small, others⟩ := logged.noted id cancelled
    refine ⟨fewer.maxId ▸ small, fun p pending => ?_⟩
    change (tq.info p).id ≠ id
    rw [fewer.id]
    exact others p (fewer.pending p pending)
  · exact logged.chronicle

theorem Logged.note (logged : t.Logged) {note : Note} {frames : List Frame}
    (cancelled : ∀ id, note = .cancelled id → id ≤ t.tq.maxId ∧ ∀ p, t.tq.pending p → (t.tq.info p).id ≠ id)
    (invoked : ∀ info, note = .invoked info → ∃ p, t.tq.pending p ∧ t.tq.info p = info) :
    Logged { t with frames, trace := t.trace ++ [note] } := by
  refine ⟨logged.bounded, logged.distinct, fun id member => ?_, logged.chronicle.snoc fun info isInvoked before => ?_⟩
  · cases List.mem_append.mp member with
    | inl before => exact logged.noted id before
    | inr last => exact cancelled id (List.mem_singleton.mp last).symm
  · obtain ⟨p, pending, rfl⟩ := invoked info isInvoked
    exact (logged.noted _ before).2 p pending rfl

theorem Logged.proceeded {now n : Int} (logged : t.Logged) (proceeded : Proceeded t now n t') : t'.Logged := by
  cases proceeded with
  | @fired p tq due =>
    have fewer := fewer_of_info due.info due.maxId
    have moved : Timers.Logged { t with tq } := logged.fewer fewer
    apply moved.note
    · exact fun _ other => by cases other
    · intro info isInvoked
      cases isInvoked
      refine ⟨p, ?_, congrFun due.info p⟩
      change tq.pending p
      rw [pending_congr due.info]
      exact due.pending
  | @returned tq drained =>
    have fewer := fewer_of_info drained.info drained.maxId
    have moved : Timers.Logged { t with tq } := logged.fewer fewer
    apply moved.note
    · exact fun _ other => by cases other
    · exact fun _ other => by cases other

theorem Logged.cancelled (logged : t.Logged) {rest handles : List ImplPtr} (pending : t.tq.pending p)
    (cancelled : Cancelled rest t.tq p tq) :
    Logged { t with tq, handles, trace := t.trace ++ [.cancelled (t.tq.info p).id] } := by
  have fewer : Fewer t.tq tq := fewer_of_update cancelled.info rfl (fun some_ => by cases some_) cancelled.maxId
  have moved : Timers.Logged { t with tq, handles } := logged.fewer fewer
  apply moved.note
  · intro id isCancelled
    cases isCancelled
    refine ⟨fewer.maxId ▸ logged.bounded p, fun q pendingQ same => ?_⟩
    change (tq.info q).id = (t.tq.info p).id at same
    rw [fewer.id] at same
    -- Only the timer itself has its id, and it is not pending any more.
    obtain rfl := logged.distinct q p (fewer.pending q pendingQ) pending same
    have reset : tq.pending q = false := pending_self cancelled.info
    change tq.pending q at pendingQ
    simp [reset] at pendingQ
  · exact fun _ other => by cases other

theorem Logged.inserted (logged : t.Logged) {rest handles : List ImplPtr} {expiry interval : Int} {slot : TimerSlot}
    (inserted : Inserted rest t.tq p ⟨t.tq.maxId + 1, expiry, interval, some slot⟩ tq) : Logged { t with tq, handles } := by
  have ids : ∀ q, (tq.info q).id = if q = p then t.tq.maxId + 1 else (t.tq.info q).id := fun q => by
    rw [inserted.info, Function.update_apply]
    split
    next => rfl
    next => rfl
  have older : ∀ q, q ≠ p → tq.pending q → t.tq.pending q ∧ (tq.info q).id = (t.tq.info q).id := fun q other pending =>
    ⟨by rwa [← pending_update inserted.info other], by rw [ids, if_neg other]⟩
  have newest : ∀ q, (t.tq.info q).id ≠ t.tq.maxId + 1 := fun q same => by
    have small := logged.bounded q
    omega
  constructor
  · intro q
    change (tq.info q).id ≤ tq.maxId
    rw [ids, inserted.maxId]
    split
    next => exact le_rfl
    next =>
      have small := logged.bounded q
      omega
  · intro q r pendingQ pendingR same
    change (tq.info q).id = (tq.info r).id at same
    by_cases hereQ : q = p
    · by_cases hereR : r = p
      · rw [hereQ, hereR]
      · rw [(older r hereR pendingR).2, ids, if_pos hereQ] at same
        exact absurd same.symm (newest r)
    · by_cases hereR : r = p
      · rw [(older q hereQ pendingQ).2, ids, if_pos hereR] at same
        exact absurd same (newest q)
      · rw [(older q hereQ pendingQ).2, (older r hereR pendingR).2] at same
        exact logged.distinct q r (older q hereQ pendingQ).1 (older r hereR pendingR).1 same
  · intro id cancelled
    obtain ⟨small, others⟩ := logged.noted id cancelled
    refine ⟨?_, fun q pending => ?_⟩
    · change id ≤ tq.maxId
      rw [inserted.maxId]
      omega
    · change (tq.info q).id ≠ id
      by_cases here : q = p
      · rw [ids, if_pos here]
        omega
      · rw [(older q here pending).2]
        exact others q (older q here pending).1
  · exact logged.chronicle

theorem fewer_of_expired {rest : List ImplPtr} {now : Int} (expired : Expired rest tq p now tq') : Fewer tq tq' := by
  cases expired.outcome with
  | again pending periodic info entries => exact fewer_of_update info rfl (fun _ => pending) expired.maxId
  | ended pending oneShot info entries => exact fewer_of_update info rfl (fun _ => pending) expired.maxId
  | idle cancelled info entries => exact fewer_of_info info expired.maxId

/-- One step keeps the invariant. -/
theorem Logged.moves (logged : t.Logged) (moves : Moves t op t') : t'.Logged := by
  cases moves with
  | inserted inserted => exact logged.inserted inserted
  | copied named => exact logged.fewer (fewer_of_info info_addRef rfl)
  | dropped named ordered released kept => exact logged.fewer (fewer_of_info released.info released.maxId)
  | abandoned named pending once cancelled => exact logged.cancelled pending cancelled
  | idle named idle => exact logged
  | cancelled named pending cancelled => exact logged.cancelled pending cancelled
  | dispatched proceeded => exact logged.proceeded proceeded
  | finished running expired proceeded => exact (logged.fewer (fewer_of_expired expired)).proceeded proceeded

theorem Logged.start : Logged {} := by
  constructor
  · exact fun _ => le_rfl
  · intro p q pending
    cases pending
  · intro id member
    cases member
  · exact .nil

/-! ## Runs -/

theorem logged_of_run {ops : List Op} {Allowed : Timers → Op → Prop} (run : Run step Allowed {} ops t) : t.Logged := by
  have both : t.Inv ∧ t.Logged := by
    apply run.invariant (I := fun t => t.Inv ∧ t.Logged)
    · intro t op u both _ stepped
      exact ⟨both.1.step stepped, both.2.moves (both.1.toBase.of_step stepped)⟩
    · exact ⟨Inv.start, Logged.start⟩
  exact both.2

end Timers

end Swirly
