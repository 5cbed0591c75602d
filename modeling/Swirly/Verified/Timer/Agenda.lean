import Swirly.Lib.Agenda
import Swirly.Verified.Timer.Logged

/-!
# The agenda of a timer queue

The pending timers are an agenda: those with an entry wait, and those that are being fired ring.  What a step does to the
queue is a step of that agenda.
-/

namespace Swirly

namespace Timers

open TimerQueue Agenda

def waiting (t : Timers) : Set Timer.Info := { info | ∃ p ∈ t.tq.heap, t.tq.pending p ∧ t.tq.info p = info }

def ringing (t : Timers) : Set Timer.Info := { info | ∃ p ∈ t.fired, t.tq.pending p ∧ t.tq.info p = info }

def agenda (t : Timers) : Agenda Timer.Info := ⟨t.waiting, t.ringing⟩

/-- A periodic timer is due again one interval later, or later than the present. -/
def again (now : Int) (info : Timer.Info) : Option Timer.Info :=
  if 0 < info.interval then some { info with expiry := max (info.expiry + info.interval) (now + 1) } else none

def log (notes : List Note) : List (Agenda.Note Timer.Info Int) :=
  notes.filterMap fun
    | .invoked info => some (.rang info)
    | .cancelled id => some (.cancelled id)
    | .returned _ => none

variable {t t' : Timers} {op : Op} {tq : TimerQueue} {p : ImplPtr} {now : Int}

theorem again_later (info next : Timer.Info) (isNext : again now info = some next) : now < next.expiry := by
  unfold again at isNext
  split at isNext
  next =>
    cases isNext
    exact (Int.lt_succ now).trans_le (le_max_right _ _)
  next => cases isNext

theorem again_id (info next : Timer.Info) (isNext : again now info = some next) : next.id = info.id := by
  unfold again at isNext
  split at isNext
  next =>
    cases isNext
    rfl
  next => cases isNext

theorem log_append (notes more : List Note) : log (notes ++ more) = log notes ++ log more := List.filterMap_append

theorem mem_log {notes : List Note} {id : Int} (cancelled : .cancelled id ∈ log notes) : .cancelled id ∈ notes := by
  obtain ⟨note, member, isCancelled⟩ := List.mem_filterMap.mp cancelled
  cases note with
  | invoked | returned => cases isCancelled
  | cancelled other =>
    cases isCancelled
    exact member

/-! ## The agenda after each step -/

/-- Two pending timers that look the same are the same. -/
theorem Logged.eq_of_info (logged : t.Logged) {q : ImplPtr} (pendingP : t.tq.pending p) (pendingQ : t.tq.pending q)
    (same : t.tq.info p = t.tq.info q) : p = q :=
  logged.distinct p q pendingP pendingQ (congrArg Timer.Info.id same)

/-- Timers other than `p` do not look like `p`. -/
theorem Logged.sdiff (logged : t.Logged) (pending : t.tq.pending p) (objs : List ImplPtr) :
    { info | ∃ q ∈ objs, t.tq.pending q ∧ t.tq.info q = info } \ {t.tq.info p} =
      { info | ∃ q ∈ objs, q ≠ p ∧ t.tq.pending q ∧ t.tq.info q = info } := by
  ext info
  constructor
  · intro both
    obtain ⟨⟨q, member, pendingQ, rfl⟩, other⟩ := both
    exact ⟨q, member, fun here => other (congrArg t.tq.info here), pendingQ, rfl⟩
  · intro some_
    obtain ⟨q, member, other, pendingQ, rfl⟩ := some_
    exact ⟨⟨q, member, pendingQ, rfl⟩, fun same => other (logged.eq_of_info pendingQ pending same)⟩

/-- The entries of pending timers are still there. -/
theorem waiting_of_entries {gone : List ImplPtr} (entries : (gone ++ tq.heap).Perm t.tq.heap)
    (idle : ∀ q ∈ gone, t.tq.pending q = false) (info : tq.info = t.tq.info) :
    { info | ∃ q ∈ tq.heap, tq.pending q ∧ tq.info q = info } = t.waiting := by
  ext shown
  rw [Set.mem_ofPred_eq, pending_congr info, info]
  constructor
  · intro some_
    obtain ⟨q, member, facts⟩ := some_
    exact ⟨q, entries.mem_iff.mp (List.mem_append_right gone member), facts⟩
  · intro some_
    obtain ⟨q, member, pending, isShown⟩ := some_
    refine ⟨q, ?_, pending, isShown⟩
    exact (List.mem_append.mp (entries.mem_iff.mpr member)).resolve_left fun gone => by simp [idle q gone] at pending

theorem agenda_of_info {handles : List ImplPtr} {trace : List Note} (info : tq.info = t.tq.info) (heap : tq.heap = t.tq.heap) :
    Timers.agenda { t with tq, handles, trace } = t.agenda := by
  have same := pending_congr info
  unfold agenda waiting ringing
  simp only [info, heap, same]
  rfl

/-- A timer is cancelled. -/
theorem agenda_cancelled (logged : t.Logged) {rest handles : List ImplPtr} {trace : List Note} (pending : t.tq.pending p)
    (cancelled : Cancelled rest t.tq p tq) :
    Timers.agenda { t with tq, handles, trace } = ⟨t.waiting \ {t.tq.info p}, t.ringing \ {t.tq.info p}⟩ := by
  obtain ⟨gone, entries, idle⟩ := cancelled.entries
  have reset : tq.pending p = false := pending_self cancelled.info
  have others : ∀ q, tq.pending q → q ≠ p ∧ t.tq.pending q ∧ tq.info q = t.tq.info q := fun q pendingQ => by
    have other : q ≠ p := fun here => by simp [here, reset] at pendingQ
    exact ⟨other, by rwa [← pending_update cancelled.info other], by rw [cancelled.info, Function.update_of_ne other]⟩
  have kept : ∀ q, q ≠ p → t.tq.pending q → tq.pending q ∧ tq.info q = t.tq.info q := fun q other pendingQ =>
    ⟨by rwa [pending_update cancelled.info other], by rw [cancelled.info, Function.update_of_ne other]⟩
  unfold waiting ringing
  rw [logged.sdiff pending, logged.sdiff pending]
  unfold agenda waiting ringing
  congr 1
  · ext shown
    constructor
    · intro some_
      obtain ⟨q, member, pendingQ, rfl⟩ := some_
      obtain ⟨other, before, same⟩ := others q pendingQ
      exact ⟨q, entries.mem_iff.mp (List.mem_append_right gone member), other, before, same.symm⟩
    · intro some_
      obtain ⟨q, member, other, before, rfl⟩ := some_
      obtain ⟨pendingQ, same⟩ := kept q other before
      refine ⟨q, (List.mem_append.mp (entries.mem_iff.mpr member)).resolve_left fun isGone => ?_, pendingQ, same⟩
      cases idle q isGone with
      | inl here => exact other here
      | inr notPending => simp [notPending] at before
  · ext shown
    constructor
    · intro some_
      obtain ⟨q, member, pendingQ, rfl⟩ := some_
      obtain ⟨other, before, same⟩ := others q pendingQ
      exact ⟨q, member, other, before, same.symm⟩
    · intro some_
      obtain ⟨q, member, other, before, rfl⟩ := some_
      obtain ⟨pendingQ, same⟩ := kept q other before
      exact ⟨q, member, pendingQ, same⟩

theorem agenda_inserted {info : Timer.Info} (inserted : Inserted t.locals t.tq p info tq) (slot : info.slot.isSome)
    {handles : List ImplPtr} : Timers.agenda { t with tq, handles } = ⟨insert info t.waiting, t.ringing⟩ := by
  have absent : p ∉ t.tq.heap := fun member => inserted.fresh (List.mem_append_left _ member)
  have notFired : p ∉ t.fired := fun member =>
    inserted.fresh (List.mem_append_right _ (List.mem_append_right _ member))
  have pending : tq.pending p = true := (pending_self inserted.info).trans slot
  have self : tq.info p = info := by rw [inserted.info, Function.update_self]
  have others : ∀ q, q ≠ p → tq.pending q = t.tq.pending q ∧ tq.info q = t.tq.info q := fun q other =>
    ⟨pending_update inserted.info other, by rw [inserted.info, Function.update_of_ne other]⟩
  unfold agenda waiting ringing
  congr 1
  · ext shown
    constructor
    · intro some_
      obtain ⟨q, member, pendingQ, isShown⟩ := some_
      by_cases here : q = p
      · exact .inl (by rw [← isShown, here, self])
      · obtain ⟨same, sameInfo⟩ := others q here
        have old := (List.mem_cons.mp (inserted.entries.mem_iff.mp member)).resolve_left here
        exact .inr ⟨q, old, same ▸ pendingQ, sameInfo ▸ isShown⟩
    · intro either
      cases either with
      | inl isNew => exact ⟨p, inserted.entries.mem_iff.mpr List.mem_cons_self, pending, self.trans isNew.symm⟩
      | inr old =>
        obtain ⟨q, member, pendingQ, isShown⟩ := old
        obtain ⟨same, sameInfo⟩ := others q fun here => absent (here ▸ member)
        exact ⟨q, inserted.entries.mem_iff.mpr (List.mem_cons_of_mem p member), same.symm ▸ pendingQ, sameInfo.trans isShown⟩
  · ext shown
    apply exists_congr
    intro q
    apply and_congr_right
    intro member
    obtain ⟨same, sameInfo⟩ := others q fun here => notFired (here ▸ member)
    rw [same, sameInfo]

/-- The end of a callback. -/
theorem step_expired (base : t.Base) (logged : t.Logged) {frame : Frame} {frames : List Frame}
    (running : t.frames = frame :: frames) (expired : Expired (t.handles ++ frames.map Frame.tmr) t.tq frame.tmr frame.now tq) :
    Agenda.Step Timer.Info.id Timer.Info.expiry (again frame.now) frame.now t.agenda [] (Timers.agenda { t with tq, frames }) := by
  obtain ⟨p, isP⟩ : ∃ p, p = frame.tmr := ⟨_, rfl⟩
  have isFired : t.fired = p :: frames.map Frame.tmr := by
    unfold fired
    rw [running, isP]
    rfl
  have placed := base.placed
  rw [isFired, List.nodup_middle, List.nodup_cons, List.mem_append, not_or] at placed
  obtain ⟨⟨absent, notRunning⟩, -⟩ := placed
  have rings : t.tq.pending p → t.tq.info p ∈ t.agenda.ringing := fun pending => by
    refine ⟨p, ?_, pending, rfl⟩
    rw [isFired]
    exact List.mem_cons_self
  -- The other timers that are being fired.
  have ringing_ : ∀ {info : Timer.Info}, tq.info = Function.update t.tq.info p info → t.tq.pending p →
      Timers.ringing { t with tq, frames } = t.ringing \ {t.tq.info p} := fun {info} changed pending => by
    unfold ringing
    rw [logged.sdiff pending, isFired]
    ext shown
    apply exists_congr
    intro q
    constructor
    · intro some_
      obtain ⟨member, pendingQ, isShown⟩ := some_
      have other : q ≠ p := fun here => notRunning (here ▸ member)
      refine ⟨List.mem_cons_of_mem p member, other, ?_, ?_⟩
      · rwa [← pending_update changed other]
      · rwa [changed, Function.update_of_ne other] at isShown
    · intro some_
      obtain ⟨member, other, pendingQ, isShown⟩ := some_
      refine ⟨(List.mem_cons.mp member).resolve_left other, ?_, ?_⟩
      · change tq.pending q
        rwa [pending_update changed other]
      · change tq.info q = shown
        rwa [changed, Function.update_of_ne other]
  have entry : ∀ {info : Timer.Info}, tq.info = Function.update t.tq.info p info → ∀ q ∈ t.tq.heap,
      tq.pending q = t.tq.pending q ∧ tq.info q = t.tq.info q := fun {info} changed q member => by
    have other : q ≠ p := fun here => absent (here ▸ member)
    exact ⟨pending_update changed other, by rw [changed, Function.update_of_ne other]⟩
  have outcome := expired.outcome
  rw [← isP] at outcome
  cases outcome with
  | again pending periodic info entries =>
    have waiting_ : Timers.waiting { t with tq, frames } = insert
        { t.tq.info p with expiry := max ((t.tq.info p).expiry + (t.tq.info p).interval) (frame.now + 1) } t.waiting := by
      ext shown
      constructor
      · intro some_
        obtain ⟨q, member, pendingQ, isShown⟩ := some_
        cases List.mem_cons.mp (entries.mem_iff.mp member) with
        | inl here =>
          refine .inl (isShown.symm.trans ?_)
          rw [here, info, Function.update_self]
        | inr old =>
          obtain ⟨same, sameInfo⟩ := entry info q old
          exact .inr ⟨q, old, same ▸ pendingQ, sameInfo ▸ isShown⟩
      · intro either
        cases either with
        | inl isNew =>
          refine ⟨p, entries.mem_iff.mpr List.mem_cons_self, (pending_self info).trans pending, ?_⟩
          change tq.info p = shown
          rw [info, Function.update_self, isNew]
        | inr old =>
          obtain ⟨q, member, pendingQ, isShown⟩ := old
          obtain ⟨same, sameInfo⟩ := entry info q member
          exact ⟨q, entries.mem_iff.mpr (List.mem_cons_of_mem p member), same.symm ▸ pendingQ, sameInfo.trans isShown⟩
    have isAgain : again frame.now (t.tq.info p) = some
        { t.tq.info p with expiry := max ((t.tq.info p).expiry + (t.tq.info p).interval) (frame.now + 1) } := if_pos periodic
    have isAgenda : Timers.agenda { t with tq, frames } = ⟨insert
        { t.tq.info p with expiry := max ((t.tq.info p).expiry + (t.tq.info p).interval) (frame.now + 1) } t.waiting,
        t.ringing \ {t.tq.info p}⟩ := by
      rw [← waiting_, ← ringing_ info pending]
      rfl
    rw [isAgenda]
    exact .repeat_ (rings pending) isAgain
  | ended pending oneShot info entries =>
    have waiting_ : Timers.waiting { t with tq, frames } = t.waiting := by
      ext shown
      apply exists_congr
      intro q
      rw [show (Timers.mk tq t.handles frames t.trace).tq.heap = t.tq.heap from entries]
      apply and_congr_right
      intro member
      obtain ⟨same, sameInfo⟩ := entry info q member
      rw [← same, ← sameInfo]
    have isAgenda : Timers.agenda { t with tq, frames } = ⟨t.waiting, t.ringing \ {t.tq.info p}⟩ := by
      rw [← ringing_ info pending]
      unfold agenda
      rw [waiting_]
    rw [isAgenda]
    exact .close (rings pending) (if_neg oneShot)
  | idle cancelled info entries =>
    have isAgenda : Timers.agenda { t with tq, frames } = t.agenda := by
      unfold agenda waiting ringing
      congr 1
      · simp only [info, entries, pending_congr info]
      · ext shown
        rw [isFired]
        simp only [info, pending_congr info, Set.mem_ofPred_eq, List.mem_cons]
        constructor
        · exact fun some_ => some_.imp fun q facts => ⟨.inr facts.1, facts.2⟩
        · intro some_
          obtain ⟨q, member, pendingQ, isShown⟩ := some_
          refine ⟨q, member.resolve_left fun here => ?_, pendingQ, isShown⟩
          simp [here, cancelled] at pendingQ
    rw [isAgenda]
    exact .keep

/-- The loop of `dispatch` fires the next timer. -/
theorem agenda_due (base : t.Base) (logged : t.Logged) (due : Due t.locals now t.tq p tq) {frame : Frame} {trace : List Note}
    (isFrame : frame.tmr = p) : Timers.agenda { t with tq, frames := frame :: t.frames, trace } =
      ⟨t.waiting \ {t.tq.info p}, insert (t.tq.info p) t.ringing⟩ := by
  obtain ⟨gone, entries, idle⟩ := due.entries
  have nodup : (p :: tq.heap).Nodup := by
    have all := (List.nodup_append.mp base.placed).1
    rw [← entries.nodup_iff] at all
    exact (List.nodup_append.mp all).2.1
  have fired_ : Timers.fired { t with tq, frames := frame :: t.frames, trace } = p :: t.fired := by
    rw [← isFrame]
    rfl
  unfold agenda
  congr 1
  · unfold waiting
    rw [logged.sdiff due.pending]
    ext shown
    simp only [due.info, pending_congr due.info]
    constructor
    · intro some_
      obtain ⟨q, member, pending, isShown⟩ := some_
      have other : q ≠ p := fun here => (List.nodup_cons.mp nodup).1 (here ▸ member)
      exact ⟨q, entries.mem_iff.mp (List.mem_append_right gone (List.mem_cons_of_mem p member)), other, pending, isShown⟩
    · intro some_
      obtain ⟨q, member, other, pending, isShown⟩ := some_
      refine ⟨q, ?_, pending, isShown⟩
      cases List.mem_append.mp (entries.mem_iff.mpr member) with
      | inl isGone => simp [idle q isGone] at pending
      | inr stays => exact (List.mem_cons.mp stays).resolve_left other
  · unfold ringing
    rw [fired_]
    ext shown
    simp only [due.info, pending_congr due.info]
    constructor
    · intro some_
      obtain ⟨q, member, pending, isShown⟩ := some_
      cases List.mem_cons.mp member with
      | inl here => exact .inl (here ▸ isShown.symm)
      | inr before => exact .inr ⟨q, before, pending, isShown⟩
    · intro either
      cases either with
      | inl isFired => exact ⟨p, List.mem_cons_self, due.pending, isFired.symm⟩
      | inr before =>
        obtain ⟨q, member, facts⟩ := before
        exact ⟨q, List.mem_cons_of_mem p member, facts⟩

/-- No timer that waits comes before the one that is fired. -/
theorem first_of_due (due : Due t.locals now t.tq p tq) : ∀ info ∈ t.waiting, (t.tq.info p).expiry ≤ info.expiry := by
  intro info waits
  obtain ⟨q, member, pending, rfl⟩ := waits
  obtain ⟨gone, entries, idle⟩ := due.entries
  cases List.mem_append.mp (entries.mem_iff.mpr member) with
  | inl isGone => simp [idle q isGone] at pending
  | inr stays =>
    cases List.mem_cons.mp stays with
    | inl here => rw [here]
    | inr later => exact due.first q later

end Timers

end Swirly
