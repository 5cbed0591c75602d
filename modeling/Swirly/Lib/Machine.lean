import Mathlib

/-!
# Machines

A machine takes steps until a state has none.  A run ends in its last state, or it does not end.
-/

universe u

namespace Machine

variable {σ : Type u}

/-- The state after a number of steps. -/
def after (step : σ → Option σ) : Nat → σ → Option σ
  | 0, s => some s
  | n + 1, s => (step s).bind (after step n)

/-- The last state, if it is reached in fewer steps. -/
def lastWithin (step : σ → Option σ) : Nat → σ → Option σ
  | 0, _ => none
  | n + 1, s =>
    match step s with
    | none => some s
    | some t => lastWithin step n t

variable {step : σ → Option σ} {s t u : σ} {m n : Nat}

theorem after_succ (stepped : step s = some t) : after step (n + 1) s = after step n t := by
  rw [after, stepped, Option.bind_some]

theorem after_add (first : after step m s = some t) : after step (m + n) s = after step n t := by
  induction m generalizing s with
  | zero =>
    cases first
    rw [Nat.zero_add]
  | succ m inductionHypothesis =>
    obtain ⟨u, stepped, rest⟩ := Option.bind_eq_some_iff.mp first
    rw [Nat.succ_add, after_succ stepped, inductionHypothesis rest]

theorem after_trans (first : after step m s = some t) (second : after step n t = some u) : after step (m + n) s = some u :=
  (after_add first).trans second

/-- A run ends in a state that it reaches and that has no step. -/
theorem lastWithin_iff : (∃ n, lastWithin step n s = some t) ↔ (∃ n, after step n s = some t) ∧ step t = none := by
  constructor
  · rintro ⟨n, ended⟩
    induction n generalizing s with
    | zero => cases ended
    | succ n inductionHypothesis =>
      rw [lastWithin] at ended
      split at ended
      next last =>
        cases ended
        exact ⟨⟨0, rfl⟩, last⟩
      next u stepped =>
        obtain ⟨⟨m, reached⟩, last⟩ := inductionHypothesis ended
        exact ⟨⟨m + 1, (after_succ stepped).trans reached⟩, last⟩
  · rintro ⟨⟨n, reached⟩, last⟩
    exists n + 1
    induction n generalizing s with
    | zero =>
      cases reached
      rw [lastWithin, last]
    | succ n inductionHypothesis =>
      obtain ⟨u, stepped, rest⟩ := Option.bind_eq_some_iff.mp reached
      rw [lastWithin, stepped]
      exact inductionHypothesis rest

/-- There is one last state. -/
theorem last_unique (first : ∃ n, lastWithin step n s = some t) (second : ∃ n, lastWithin step n s = some u) : t = u := by
  obtain ⟨m, first⟩ := first
  obtain ⟨n, second⟩ := second
  induction m generalizing s n with
  | zero => cases first
  | succ m inductionHypothesis =>
    cases n with
    | zero => cases second
    | succ n =>
      rw [lastWithin] at first second
      split at first
      next last =>
        rw [last] at second
        exact (Option.some.inj first).symm.trans (Option.some.inj second)
      next next_ stepped =>
        rw [stepped] at second
        exact inductionHypothesis first n second

/-- Fewer steps than it takes to the end lead somewhere, and more do not. -/
theorem le_of_after (ended : lastWithin step m s = some t) (reached : after step n s = some u) : n ≤ m := by
  induction m generalizing s n with
  | zero => cases ended
  | succ m inductionHypothesis =>
    cases n with
    | zero => exact Nat.zero_le _
    | succ n =>
      obtain ⟨v, stepped, rest⟩ := Option.bind_eq_some_iff.mp reached
      rw [lastWithin, stepped] at ended
      exact Nat.succ_le_succ (inductionHypothesis ended rest)

end Machine
