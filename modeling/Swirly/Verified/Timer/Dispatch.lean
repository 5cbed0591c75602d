import Swirly.Verified.Timer.Agenda

/-!
# What a call of `dispatch` fires

A call of `dispatch` that is made while no callback is running is a round of the agenda, whatever its callbacks do to the
queue: each of them may cancel timers, give timers up, and insert timers for later.
-/

namespace Swirly

namespace Timers

open TimerQueue Agenda

/-- What a callback of `dispatch` may do: it may return or throw, and the timers it inserts are for later. -/
def InCallback (now : Int) (t : Timers) : Op → Prop
  | .insert expiry _ _ => t.frames ≠ [] ∧ now < expiry
  | .dispatch _ => False
  | _ => t.frames ≠ []

instance (now : Int) (t : Timers) : (op : Op) → Decidable (InCallback now t op)
  | .insert expiry _ _ => inferInstanceAs (Decidable (t.frames ≠ [] ∧ now < expiry))
  | .dispatch _ => inferInstanceAs (Decidable False)
  | .copy _ | .drop _ | .cancel _ | .finish => inferInstanceAs (Decidable (t.frames ≠ []))

/-- How many timers are due. -/
def dueCount (t : Timers) (now : Int) : Nat := t.tq.heap.countP fun p => t.tq.pending p && decide (t.tq.expiry p ≤ now)

/-- The part of a round that the notes tell of, which has led to a state. -/
abbrev RoundTo (now : Int) (start : Set Timer.Info) (notes : List Note) (t : Timers) : Prop :=
  Round Timer.Info.id Timer.Info.expiry (again now) now start (log notes) t.agenda

/-- A call of `dispatch` in progress, or its end, after some callbacks have finished. -/
structure Dispatching (t₀ : Timers) (now : Int) (finished : Nat) (t : Timers) : Prop where
  inv : t.Inv
  logged : t.Logged
  frames : t.frames = [] ∨ ∃ frame, t.frames = [frame] ∧ frame.now = now
  round : ∃ notes, t.trace = t₀.trace ++ notes ∧ RoundTo now t₀.waiting notes t ∧
    (rung (log notes)).length = finished + t.frames.length
  done : t.frames = [] → ∀ info ∈ t.waiting, now < info.expiry

variable {t₀ t t' : Timers} {op : Op} {tq : TimerQueue} {p : ImplPtr} {now : Int}

theorem Inv.known (inv : t.Inv) (pending : t.tq.pending p) : t.tq.info p ∈ t.agenda.waiting ∪ t.agenda.ringing := by
  cases List.mem_append.mp (inv.held p pending).1 with
  | inl member => exact .inl ⟨p, member, pending, rfl⟩
  | inr member => exact .inr ⟨p, member, pending, rfl⟩

/-- A step of the agenda whose notes tell of no firing. -/
theorem Dispatching.silent {finished : Nat} (dispatching : Dispatching t₀ now finished t) (inv : t'.Inv) (logged : t'.Logged)
    (more : List Note) (trace : t'.trace = t.trace ++ more) (silent : ∀ info, .invoked info ∉ more)
    (frames : t'.frames = t.frames) (running : t.frames ≠ [])
    (step : Step Timer.Info.id Timer.Info.expiry (again now) now t.agenda (log more) t'.agenda) :
    Dispatching t₀ now finished t' := by
  obtain ⟨notes, isTrace, round, count⟩ := dispatching.round
  have noneRung : ∀ info, .rang info ∉ log more := fun info member => by
    obtain ⟨note, isNote, isRang⟩ := List.mem_filterMap.mp member
    cases note with
    | invoked shown => exact silent shown isNote
    | cancelled | returned => cases isRang
  have next := round.step again_later again_id step fun info member => absurd member (noneRung info)
  have noMore : rung (log more) = [] := by
    rw [List.eq_nil_iff_forall_not_mem]
    intro info member
    obtain ⟨note, isNote, isRang⟩ := List.mem_filterMap.mp member
    cases note with
    | rang shown => exact noneRung shown isNote
    | cancelled => cases isRang
  refine ⟨inv, logged, frames ▸ dispatching.frames, ⟨notes ++ more, ?_, ?_, ?_⟩, fun none_ => absurd (frames ▸ none_) running⟩
  · rw [trace, isTrace, List.append_assoc]
  · unfold RoundTo
    rw [log_append]
    exact next
  · rw [log_append, rung_append, noMore, List.append_nil, count, frames]

/-- The loop of `dispatch` goes on when no callback is running. -/
theorem Dispatching.proceed (notes : List Note) {finished : Nat} {n : Int} (base : t.Base) (logged : t.Logged) (quiet : t.frames = [])
    (trace : t.trace = t₀.trace ++ notes) (round : RoundTo now t₀.waiting notes t)
    (count : (rung (log notes)).length = finished) (proceeded : Proceeded t now n t') :
    Dispatching t₀ now finished t' := by
  have inv := base.proceeded proceeded
  have loggedNext := logged.proceeded proceeded
  cases proceeded with
  | @fired p tq due =>
    have live : .cancelled (t.tq.info p).id ∉ log notes := fun cancelled => by
      have noted : .cancelled (t.tq.info p).id ∈ t.trace := trace ▸ List.mem_append_right _ (mem_log cancelled)
      exact (logged.noted _ noted).2 p due.pending rfl
    have next := round.ring again_later ⟨p, ?_, due.pending, rfl⟩ due.due (first_of_due due) live
    · refine ⟨inv, loggedNext, .inr ⟨⟨p, now, n⟩, by rw [quiet], rfl⟩, ⟨notes ++ [.invoked (t.tq.info p)], ?_, ?_, ?_⟩,
        fun none_ => by cases none_⟩
      · rw [trace, List.append_assoc]
      · unfold RoundTo
        rw [log_append, agenda_due base logged due rfl]
        exact next
      · have oneMore : rung (log [.invoked (t.tq.info p)]) = [t.tq.info p] := rfl
        rw [log_append, rung_append, oneMore, List.length_append, count, quiet]
        rfl
    · obtain ⟨gone, entries, -⟩ := due.entries
      exact entries.mem_iff.mp (List.mem_append_right gone List.mem_cons_self)
  | @returned tq drained =>
    obtain ⟨gone, entries, idle⟩ := drained.entries
    have waiting_ := waiting_of_entries entries idle drained.info
    have agenda_ : Timers.agenda { t with tq, trace := t.trace ++ [.returned n] } = t.agenda := by
      unfold agenda
      congr 1
      unfold ringing
      simp only [drained.info, pending_congr drained.info]
      rfl
    refine ⟨inv, loggedNext, .inl quiet, ⟨notes ++ [.returned n], ?_, ?_, ?_⟩, fun _ info waits => ?_⟩
    · rw [trace, List.append_assoc]
    · have nothing : log [.returned n] = [] := rfl
      unfold RoundTo
      rw [log_append, nothing, List.append_nil, agenda_]
      exact round
    · have nothing : log [.returned n] = [] := rfl
      rw [log_append, nothing, List.append_nil, count, quiet]
      rfl
    · obtain ⟨q, member, pending, rfl⟩ := waits
      exact drained.later q member

/-- The call itself. -/
theorem Dispatching.begin {n : Int} (inv : t.Inv) (logged : t.Logged) (quiet : t.frames = [])
    (proceeded : Proceeded t now n t') : Dispatching t now 0 t' := by
  have begun : Round Timer.Info.id Timer.Info.expiry (again now) now t.agenda.waiting [] t.agenda := Round.begin
  apply Dispatching.proceed [] inv.toBase logged quiet
  · rw [List.append_nil]
  · exact begun
  · rfl
  · exact proceeded

/-- One step of a callback. -/
theorem Dispatching.moves {finished : Nat} (dispatching : Dispatching t₀ now finished t) (moves : Moves t op t')
    (allowed : InCallback now t op) : Dispatching t₀ now (finished + if op = .finish then 1 else 0) t' := by
  have inv := dispatching.inv
  have logged := dispatching.logged
  have invNext := inv.moves moves
  have loggedNext := logged.moves moves
  cases moves with
  | @inserted expiry interval slot p tq inserted =>
    apply dispatching.silent invNext loggedNext []
    · rw [List.append_nil]
    · exact fun _ => List.not_mem_nil
    · rfl
    · exact allowed.1
    · rw [agenda_inserted inserted rfl]
      exact .add allowed.2
  | copied named =>
    apply dispatching.silent invNext loggedNext []
    · rw [List.append_nil]
    · exact fun _ => List.not_mem_nil
    · rfl
    · exact allowed
    · rw [agenda_of_info info_addRef rfl]
      exact .keep
  | dropped named ordered released kept =>
    apply dispatching.silent invNext loggedNext []
    · rw [List.append_nil]
    · exact fun _ => List.not_mem_nil
    · rfl
    · exact allowed
    · rw [agenda_of_info released.info released.heap]
      exact .keep
  | abandoned named pending once cancelled =>
    apply dispatching.silent invNext loggedNext [.cancelled (t.tq.info _).id]
    · rfl
    · simp
    · rfl
    · exact allowed
    · rw [agenda_cancelled logged pending cancelled]
      exact .cancel (inv.known pending)
  | idle named idle => exact dispatching
  | cancelled named pending cancelled =>
    apply dispatching.silent invNext loggedNext [.cancelled (t.tq.info _).id]
    · rfl
    · simp
    · rfl
    · exact allowed
    · rw [agenda_cancelled logged pending cancelled]
      exact .cancel (inv.known pending)
  | dispatched proceeded => exact absurd allowed id
  | @finished frame frames tq t' running expired proceeded =>
    obtain ⟨rfl, rfl⟩ : frames = [] ∧ frame.now = now := by
      cases dispatching.frames with
      | inl none_ => simp [none_] at running
      | inr one =>
        obtain ⟨other, isOther, isNow⟩ := one
        obtain ⟨rfl, rfl⟩ : other = frame ∧ frames = [] := by simpa using isOther.symm.trans running
        exact ⟨rfl, isNow⟩
    obtain ⟨notes, trace, round, count⟩ := dispatching.round
    have next := round.step again_later again_id (step_expired inv.toBase logged running expired)
      fun _ member => absurd member List.not_mem_nil
    rw [List.append_nil] at next
    rw [running] at count
    have loggedExpired : Timers.Logged { t with tq, frames := [] } := logged.fewer (fewer_of_expired expired)
    exact .proceed notes (inv.toBase.expired running expired) loggedExpired rfl trace next count proceeded

/-! ## Runs of callbacks -/

theorem dispatching_of_run {t₁ : Timers} {ops : List Op} (begun : Dispatching t₀ now 0 t₁)
    (callbacks : Run step (InCallback now) t₁ ops t) : Dispatching t₀ now (ops.count .finish) t := by
  apply callbacks.invariant_history (I := fun ops t => Dispatching t₀ now (ops.count .finish) t)
  · intro ops t op u dispatching allowed stepped
    have next := dispatching.moves (dispatching.inv.toBase.of_step stepped) allowed
    rw [List.count_append, List.count_singleton]
    simpa using next
  · exact begun

/-- No more timers are fired than are due. -/
theorem Dispatching.bounded {finished : Nat} (dispatching : Dispatching t₀ now finished t) :
    finished + t.frames.length ≤ t₀.dueCount now := by
  obtain ⟨notes, -, round, count⟩ := dispatching.round
  have included : rung (log notes) ⊆
      (t₀.tq.heap.filter fun p => t₀.tq.pending p && decide (t₀.tq.expiry p ≤ now)).map t₀.tq.info := by
    intro info rang
    obtain ⟨⟨p, member, pending, rfl⟩, due, -⟩ := round.due info rang
    refine List.mem_map_of_mem (List.mem_filter.mpr ⟨member, ?_⟩)
    rw [pending, Bool.true_and, decide_eq_true_iff]
    exact due
  have fits := (List.subperm_of_subset round.nodup included).length_le
  rw [List.length_map, ← List.countP_eq_length_filter, count] at fits
  exact fits

/-- Between its callbacks a round has fired the timers that were due and not cancelled, by expiry. -/
theorem Dispatching.fired {finished : Nat} (dispatching : Dispatching t₀ now finished t) (inv : t₀.Inv) (logged : t₀.Logged)
    (quiet₀ : t₀.frames = []) (quiet : t.frames = []) : ∃ notes, t.trace = t₀.trace ++ notes ∧
      ((rung (log notes)).map Timer.Info.id).Nodup ∧ (rung (log notes)).Pairwise (fun x y => x.expiry ≤ y.expiry) ∧
      (∀ info, info ∈ rung (log notes) ↔ (∃ p, t₀.tq.pending p ∧ t₀.tq.info p = info) ∧ info.expiry ≤ now ∧
        ¬CancelledFirst Timer.Info.id (log notes) info) ∧
      (∀ p, t.tq.pending p → now < t.tq.expiry p) ∧
      ∀ info ∈ rung (log notes), 0 < info.interval → .cancelled info.id ∉ notes →
        ∃ p, t.tq.pending p ∧ t.tq.info p = { info with expiry := max (info.expiry + info.interval) (now + 1) } := by
  obtain ⟨notes, trace, round, -⟩ := dispatching.round
  have waits : ∀ {t : Timers}, t.Inv → t.frames = [] → ∀ info, info ∈ t.waiting ↔ ∃ p, t.tq.pending p ∧ t.tq.info p = info := by
    intro t inv quiet info
    have noneFired : t.fired = [] := by
      unfold Timers.fired
      rw [quiet]
      rfl
    constructor
    · exact fun some_ => some_.imp fun p facts => facts.2
    · intro some_
      obtain ⟨p, pending, isShown⟩ := some_
      have somewhere := (inv.held p pending).1
      rw [noneFired, List.append_nil] at somewhere
      exact ⟨p, somewhere, pending, isShown⟩
  have all : ∀ info, info ∈ rung (log notes) ↔ (∃ p, t₀.tq.pending p ∧ t₀.tq.info p = info) ∧ info.expiry ≤ now ∧
      ¬CancelledFirst Timer.Info.id (log notes) info := fun info => by
    rw [round.finished (dispatching.done quiet), waits inv quiet₀]
  refine ⟨notes, trace, ?_, round.sorted, all, fun p pending => ?_, fun info rang periodic kept => ?_⟩
  · apply round.nodup.map_on
    intro x rangX y rangY same
    obtain ⟨⟨p, pendingP, rfl⟩, -⟩ := (all x).mp rangX
    obtain ⟨⟨q, pendingQ, rfl⟩, -⟩ := (all y).mp rangY
    rw [logged.distinct p q pendingP pendingQ same]
  · exact dispatching.done quiet (t.tq.info p) ((waits dispatching.inv quiet _).mpr ⟨p, pending, rfl⟩)
  · cases round.repeated info rang with
    | inl rings =>
      obtain ⟨p, member, -⟩ := rings
      unfold Timers.fired at member
      simp [quiet] at member
    | inr either =>
      cases either with
      | inl cancelled => exact absurd (mem_log cancelled) kept
      | inr next => exact (waits dispatching.inv quiet _).mp (next _ (if_pos periodic))

end Timers

end Swirly
