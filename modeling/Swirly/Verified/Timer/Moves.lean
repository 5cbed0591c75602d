import Swirly.Sys.Dispatch
import Swirly.Verified.Timer.Changes

/-!
# The steps of a timer queue and its users

The invariant of every state, whatever callbacks are running, and what each step does in such a state.
-/

namespace Swirly

namespace Timers

open TimerQueue

/-- All the timers outside the queue. -/
def locals (t : Timers) : List ImplPtr := t.handles ++ t.fired

/-- What holds at every moment, also before the loop of `dispatch` goes on. -/
structure Base (t : Timers) : Prop where
  ordered : t.tq.Ordered t.locals
  /-- A timer has one entry at most, and none while it is being fired. -/
  placed : (t.tq.heap ++ t.fired).Nodup
  held : ∀ p, t.tq.pending p → p ∈ t.tq.heap ++ t.fired ∧ p ∈ t.handles

structure Inv (t : Timers) : Prop extends Base t where
  fronted : t.frames = [] → t.tq.Fronted

/-- The rest of the loop of `dispatch`. -/
inductive Proceeded (t : Timers) (now n : Int) : Timers → Prop
  | fired {p : ImplPtr} {tq : TimerQueue} (due : Due t.locals now t.tq p tq) :
    Proceeded t now n { t with tq, frames := ⟨p, now, n⟩ :: t.frames, trace := t.trace ++ [.invoked (t.tq.info p)] }
  | returned {tq : TimerQueue} (drained : Drained t.locals now t.tq tq) :
    Proceeded t now n { t with tq, trace := t.trace ++ [.returned n] }

inductive Moves (t : Timers) : Op → Timers → Prop
  | inserted {expiry interval : Int} {slot : TimerSlot} {p : ImplPtr} {tq : TimerQueue}
    (inserted : Inserted t.locals t.tq p ⟨t.tq.maxId + 1, expiry, interval, some slot⟩ tq) :
    Moves t (.insert expiry interval slot) { t with tq, handles := p :: t.handles }
  | copied {ref : Ref} {p : ImplPtr} (named : t.deref ref = some p) :
    Moves t (.copy ref) { t with tq := t.tq.addRef p, handles := p :: t.handles }
  | dropped {i : Nat} {p : ImplPtr} {tq : TimerQueue} (named : t.handles[i]? = some p)
    (ordered : tq.Ordered (t.handles.eraseIdx i ++ t.fired)) (released : Released t.tq tq)
    (kept : t.tq.pending p → p ∈ t.handles.eraseIdx i) :
    Moves t (.drop i) { t with tq, handles := t.handles.eraseIdx i }
  | abandoned {i : Nat} {p : ImplPtr} {tq : TimerQueue} (named : t.handles[i]? = some p) (pending : t.tq.pending p)
    (once : t.handles.count p = 1) (cancelled : Cancelled (t.handles.eraseIdx i ++ t.fired) t.tq p tq) :
    Moves t (.drop i)
      { t with tq, handles := t.handles.eraseIdx i, trace := t.trace ++ [.cancelled (t.tq.info p).id] }
  | idle {ref : Ref} {p : ImplPtr} (named : t.deref ref = some p) (idle : t.tq.pending p = false) : Moves t (.cancel ref) t
  | cancelled {ref : Ref} {p : ImplPtr} {tq : TimerQueue} (named : t.deref ref = some p) (pending : t.tq.pending p)
    (cancelled : Cancelled t.locals t.tq p tq) :
    Moves t (.cancel ref) { t with tq, trace := t.trace ++ [.cancelled (t.tq.info p).id] }
  | dispatched {now : Int} {t' : Timers} (proceeded : Proceeded t now 0 t') : Moves t (.dispatch now) t'
  | finished {frame : Frame} {frames : List Frame} {tq : TimerQueue} {t' : Timers} (running : t.frames = frame :: frames)
    (expired : Expired (t.handles ++ frames.map Frame.tmr) t.tq frame.tmr frame.now tq)
    (proceeded : Proceeded { t with tq, frames } frame.now (frame.n + 1) t') : Moves t .finish t'

variable {t t' : Timers} {p : ImplPtr}

/-! ## Ingredients -/

theorem mem_of_deref {ref : Ref} (named : t.deref ref = some p) : p ∈ t.locals := by
  cases ref with
  | handle i => exact List.mem_append_left _ (List.mem_of_getElem? named)
  | fired i => exact List.mem_append_right _ (List.mem_of_getElem? named)

theorem eraseIdx_perm {handles : List ImplPtr} {i : Nat} (named : handles[i]? = some p) :
    handles.Perm (p :: handles.eraseIdx i) := by
  obtain ⟨small, rfl⟩ := List.getElem?_eq_some_iff.mp named
  exact (List.getElem_cons_eraseIdx_perm small).symm

theorem Base.proceed (base : t.Base) (now n : Int) : ∃ t', t.proceed now n = some t' ∧ Proceeded t now n t' := by
  have held : ∀ q ∈ t.tq.heap, t.tq.pending q → q ∈ t.locals := fun q _ pending =>
    List.mem_append_left _ (base.held q pending).2
  cases base.ordered.next now held _ (Nat.lt_succ_self _) with
  | inl some_ =>
    obtain ⟨p, tq, isNext, due⟩ := some_
    refine ⟨_, ?_, .fired due⟩
    unfold Timers.proceed
    rw [isNext, ← due.info]
    rfl
  | inr none_ =>
    obtain ⟨tq, isNext, drained⟩ := none_
    refine ⟨_, ?_, .returned drained⟩
    unfold Timers.proceed
    rw [isNext]
    rfl

/-- One entry of the heap or one call of `dispatch` refers to a pending timer. -/
theorem Base.count (base : t.Base) (pending : t.tq.pending p) : (t.tq.heap ++ t.fired).count p = 1 :=
  List.count_eq_one_of_mem base.placed (base.held p pending).1

theorem Base.drop (base : t.Base) {i : Nat} (named : t.handles[i]? = some p) :
    ∃ t', t.step (.drop i) = some t' ∧ Moves t (.drop i) t' := by
  have owner := eraseIdx_perm named
  have owners : t.locals.Perm (p :: (t.handles.eraseIdx i ++ t.fired)) := owner.append_right t.fired
  have counts := owner.count_eq p
  rw [List.count_cons_self] at counts
  unfold Timers.step
  simp only [named, Option.bind_some]
  by_cases last : t.tq.pending p ∧ t.handles.count p = 1
  · obtain ⟨pending, once⟩ := last
    have total : (t.tq.heap ++ (t.handles.eraseIdx i ++ t.fired)).count p = 1 := by
      have one := base.count pending
      rw [List.count_append] at one
      rw [List.count_append, List.count_append]
      omega
    obtain ⟨tq, done, cancelled⟩ := base.ordered.release_last owners total pending
    have reset : tq.pending p = false := pending_self cancelled.info
    refine ⟨_, by rw [done]; rfl, ?_⟩
    unfold settle
    simp only [pending, reset, Bool.not_false, Bool.and_self, if_true]
    exact .abandoned named pending once cancelled
  · have kept : t.tq.pending p → p ∈ t.handles.eraseIdx i := fun pending => by
      by_contra gone
      exact last ⟨pending, by rw [counts, List.count_eq_zero.mpr gone]⟩
    have total : t.tq.pending p → (t.tq.heap ++ (t.handles.eraseIdx i ++ t.fired)).count p ≠ 1 := fun pending once => by
      have one := base.count pending
      have more := List.one_le_count_iff.mpr (kept pending)
      rw [List.count_append] at one
      rw [List.count_append, List.count_append] at once
      omega
    obtain ⟨tq, done, ordered, released⟩ := base.ordered.release owners total
    refine ⟨_, by rw [done]; rfl, ?_⟩
    unfold settle
    simp only [pending_congr released.info, Bool.and_not_self, Bool.false_eq_true, if_false]
    exact .dropped named ordered released kept

theorem Base.cancel (base : t.Base) {ref : Ref} (named : t.deref ref = some p) :
    ∃ t', t.step (.cancel ref) = some t' ∧ Moves t (.cancel ref) t' := by
  unfold Timers.step
  simp only [named, Option.bind_some]
  cases pending : t.tq.pending p with
  | true =>
    have member := List.mem_append_right t.tq.heap (mem_of_deref named)
    obtain ⟨tq, done, cancelled⟩ := base.ordered.cancelTimer member pending
    have reset : tq.pending p = false := pending_self cancelled.info
    refine ⟨_, by rw [done]; rfl, ?_⟩
    unfold settle
    simp only [pending, reset, Bool.not_false, Bool.and_self, if_true]
    exact .cancelled named pending cancelled
  | false =>
    have nothing : t.tq.cancelTimer p = some t.tq := by
      unfold TimerQueue.cancelTimer cancelWith
      rw [pending]
      rfl
    refine ⟨_, by rw [nothing]; rfl, ?_⟩
    unfold settle
    simp only [pending, Bool.false_and, Bool.false_eq_true, if_false]
    exact .idle named pending

/-- A timer that has just been fired is no entry, and it leaves the calls that are running. -/
theorem Base.expired (base : t.Base) {frame : Frame} {frames : List Frame} {tq : TimerQueue}
    (running : t.frames = frame :: frames) (expired : Expired (t.handles ++ frames.map Frame.tmr) t.tq frame.tmr frame.now tq) :
    Base { t with tq, frames } := by
  obtain ⟨q, isQ⟩ : ∃ q, q = frame.tmr := ⟨_, rfl⟩
  have isFired : t.fired = q :: frames.map Frame.tmr := by
    unfold fired
    rw [running, isQ]
    rfl
  have placed := base.placed
  rw [isFired, List.nodup_middle] at placed
  obtain ⟨absent, nodup⟩ := List.nodup_cons.mp placed
  have heldBefore : ∀ p, t.tq.pending p → p ≠ q → p ∈ t.tq.heap ++ frames.map Frame.tmr ∧ p ∈ t.handles := by
    intro p pending other
    obtain ⟨somewhere, outside⟩ := base.held p pending
    rw [isFired, List.perm_middle.mem_iff] at somewhere
    exact ⟨(List.mem_cons.mp somewhere).resolve_left other, outside⟩
  have outcome := expired.outcome
  rw [← isQ] at outcome
  refine ⟨expired.toOrdered, ?_, fun p pending => ?_⟩
  · cases outcome with
    | again _ _ _ entries =>
      change (tq.heap ++ frames.map Frame.tmr).Nodup
      rw [(entries.append_right _).nodup_iff]
      exact placed
    | ended _ _ _ entries =>
      change (tq.heap ++ frames.map Frame.tmr).Nodup
      rwa [entries]
    | idle _ _ entries =>
      change (tq.heap ++ frames.map Frame.tmr).Nodup
      rwa [entries]
  · change tq.pending p at pending
    change p ∈ tq.heap ++ frames.map Frame.tmr ∧ p ∈ t.handles
    cases outcome with
    | again pendingBefore _ info entries =>
      rw [(entries.append_right _).mem_iff]
      by_cases here : p = q
      · rw [here]
        exact ⟨List.mem_cons_self, (base.held q pendingBefore).2⟩
      · rw [pending_update info here] at pending
        obtain ⟨somewhere, outside⟩ := heldBefore p pending here
        exact ⟨List.mem_cons_of_mem q somewhere, outside⟩
    | ended _ _ info entries =>
      have other : p ≠ q := fun here => by
        rw [here, pending_self info] at pending
        cases pending
      rw [pending_update info other] at pending
      rw [entries]
      exact heldBefore p pending other
    | idle cancelled info entries =>
      rw [pending_congr info] at pending
      rw [entries]
      exact heldBefore p pending fun here => by simp [here, cancelled] at pending

theorem Base.finish (base : t.Base) {frame : Frame} {frames : List Frame} (running : t.frames = frame :: frames) :
    ∃ t', t.step .finish = some t' ∧ Moves t .finish t' := by
  have isFired : t.fired = frame.tmr :: frames.map Frame.tmr := by
    unfold fired
    rw [running]
    rfl
  have owners : t.locals.Perm (frame.tmr :: (t.handles ++ frames.map Frame.tmr)) := by
    unfold locals
    rw [isFired]
    exact List.perm_middle
  have absent : frame.tmr ∉ t.tq.heap := by
    have placed := base.placed
    rw [isFired, List.nodup_middle, List.nodup_cons, List.mem_append, not_or] at placed
    exact placed.1.1
  have held : t.tq.pending frame.tmr → frame.tmr ∈ t.handles ++ frames.map Frame.tmr := fun pending =>
    List.mem_append_left _ (base.held _ pending).2
  obtain ⟨tq, done, same, expired⟩ := base.ordered.expire frame.now owners absent held
  obtain ⟨t', isNext, proceeded⟩ := (base.expired running expired).proceed frame.now (frame.n + 1)
  refine ⟨t', ?_, .finished running expired proceeded⟩
  unfold Timers.step
  simp only [running, done, Option.bind_some]
  unfold settle
  simp only [same, Bool.and_not_self, Bool.false_eq_true, if_false]
  exact isNext

/-! ## Steps -/

/-- The step is one that the users and the callbacks can take. -/
def Ready (t : Timers) : Op → Prop
  | .copy ref | .cancel ref => (t.deref ref).isSome
  | .drop i => t.handles[i]?.isSome
  | .finish => t.frames ≠ []
  | _ => True

/-- No step of the users fails. -/
theorem Base.moves (base : t.Base) {op : Op} (ready : t.Ready op) : ∃ t', t.step op = some t' ∧ Moves t op t' := by
  cases op with
  | insert expiry interval slot =>
    obtain ⟨p, tq, done, inserted⟩ := base.ordered.insert expiry interval slot
    refine ⟨_, ?_, .inserted inserted⟩
    unfold Timers.step
    simp only [done, Option.map_some]
  | copy ref =>
    obtain ⟨p, named⟩ := Option.isSome_iff_exists.mp ready
    refine ⟨_, ?_, .copied named⟩
    unfold Timers.step
    simp only [named, Option.map_some]
  | drop i =>
    obtain ⟨p, named⟩ := Option.isSome_iff_exists.mp ready
    exact base.drop named
  | cancel ref =>
    obtain ⟨p, named⟩ := Option.isSome_iff_exists.mp ready
    exact base.cancel named
  | dispatch now =>
    obtain ⟨t', done, proceeded⟩ := base.proceed now 0
    exact ⟨t', done, .dispatched proceeded⟩
  | finish =>
    cases running : t.frames with
    | nil => exact absurd running ready
    | cons frame frames => exact base.finish running

theorem ready_of_step {op : Op} (stepped : t.step op = some t') : t.Ready op := by
  cases op with
  | insert | dispatch => trivial
  | copy ref =>
    obtain ⟨p, named, -⟩ := Option.map_eq_some_iff.mp stepped
    exact Option.isSome_iff_exists.mpr ⟨p, named⟩
  | drop i =>
    obtain ⟨p, named, -⟩ := Option.bind_eq_some_iff.mp stepped
    exact Option.isSome_iff_exists.mpr ⟨p, named⟩
  | cancel ref =>
    obtain ⟨p, named, -⟩ := Option.bind_eq_some_iff.mp stepped
    exact Option.isSome_iff_exists.mpr ⟨p, named⟩
  | finish =>
    intro none_
    simp [Timers.step, none_] at stepped

/-- What a step does. -/
theorem Base.of_step (base : t.Base) {op : Op} (stepped : t.step op = some t') : Moves t op t' := by
  obtain ⟨other, done, moves⟩ := base.moves (ready_of_step stepped)
  obtain rfl : other = t' := Option.some.inj (done.symm.trans stepped)
  exact moves

end Timers

end Swirly
