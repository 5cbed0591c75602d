import Mathlib

/-!
# Runs of a step function

`Run step Allowed s ops t` says that the operations `ops` lead from `s` to `t`, each of them allowed in
the state it meets.  A step without a result ends every run.
-/

universe u v w

variable {σ : Type u} {ω : Type v}

inductive Run (step : σ → ω → Option σ) (Allowed : σ → ω → Prop) (s : σ) : List ω → σ → Prop
  | nil : Run step Allowed s [] s
  | snoc {ops : List ω} {t u : σ} {op : ω} (run : Run step Allowed s ops t) (allowed : Allowed t op)
      (stepped : step t op = some u) : Run step Allowed s (ops ++ [op]) u

namespace Run

variable {step : σ → ω → Option σ} {Allowed Permitted : σ → ω → Prop} {s t u : σ} {ops : List ω}

theorem single {op : ω} (allowed : Allowed s op) (stepped : step s op = some t) : Run step Allowed s [op] t :=
  .snoc .nil allowed stepped

theorem trans {more : List ω} (first : Run step Allowed s ops t) (second : Run step Allowed t more u) :
    Run step Allowed s (ops ++ more) u := by
  induction second with
  | nil => rwa [List.append_nil]
  | snoc _ allowed stepped inductionHypothesis =>
    rw [← List.append_assoc]
    exact .snoc inductionHypothesis allowed stepped

theorem cons {op : ω} (allowed : Allowed s op) (stepped : step s op = some t) (rest : Run step Allowed t ops u) :
    Run step Allowed s (op :: ops) u :=
  (single allowed stepped).trans rest

theorem eq_of_nil (run : Run step Allowed s [] t) : s = t := by
  generalize none_ : [] = all at run
  cases run with
  | nil => rfl
  | snoc => simp at none_

/-- The first step of a run. -/
theorem of_cons {op : ω} (run : Run step Allowed s (op :: ops) t) :
    ∃ u, Allowed s op ∧ step s op = some u ∧ Run step Allowed u ops t := by
  generalize split : op :: ops = all at run
  induction run generalizing ops with
  | nil => cases split
  | @snoc before u v last run allowed stepped inductionHypothesis =>
    cases before with
    | nil =>
      obtain ⟨rfl, rfl⟩ : op = last ∧ ops = [] := by simpa using split
      obtain rfl := run.eq_of_nil
      exact ⟨v, allowed, stepped, .nil⟩
    | cons first more =>
      obtain ⟨rfl, rfl⟩ : op = first ∧ ops = more ++ [last] := by simpa using split
      obtain ⟨w, allowedFirst, steppedFirst, rest⟩ := inductionHypothesis rfl
      exact ⟨w, allowedFirst, steppedFirst, .snoc rest allowed stepped⟩

/-- A run in two parts. -/
theorem of_append {more : List ω} (run : Run step Allowed s (ops ++ more) u) :
    ∃ t, Run step Allowed s ops t ∧ Run step Allowed t more u := by
  induction ops generalizing s with
  | nil => exact ⟨s, .nil, run⟩
  | cons op ops inductionHypothesis =>
    obtain ⟨t, allowed, stepped, rest⟩ := run.of_cons
    obtain ⟨v, first, second⟩ := inductionHypothesis rest
    exact ⟨v, .cons allowed stepped first, second⟩

theorem mono (weaker : ∀ t op, Allowed t op → Permitted t op) (run : Run step Allowed s ops t) :
    Run step Permitted s ops t := by
  induction run with
  | nil => exact .nil
  | snoc _ allowed stepped inductionHypothesis => exact .snoc inductionHypothesis (weaker _ _ allowed) stepped

/-- What every allowed step preserves holds after every run. -/
theorem invariant {I : σ → Prop} (preserved : ∀ t op u, I t → Allowed t op → step t op = some u → I u)
    (initial : I s) (run : Run step Allowed s ops t) : I t := by
  induction run with
  | nil => exact initial
  | snoc _ allowed stepped inductionHypothesis => exact preserved _ _ _ inductionHypothesis allowed stepped

/-- The same for an invariant that speaks of the operations so far. -/
theorem invariant_history {I : List ω → σ → Prop}
    (preserved : ∀ ops t op u, I ops t → Allowed t op → step t op = some u → I (ops ++ [op]) u)
    (initial : I [] s) (run : Run step Allowed s ops t) : I ops t := by
  induction run with
  | nil => exact initial
  | snoc _ allowed stepped inductionHypothesis => exact preserved _ _ _ _ inductionHypothesis allowed stepped

/-- Carry out the operations while they are allowed. -/
def exec (step : σ → ω → Option σ) (Allowed : σ → ω → Prop) [∀ t op, Decidable (Allowed t op)] : σ → List ω → Option σ
  | s, [] => some s
  | s, op :: ops => if Allowed s op then (step s op).bind fun t => exec step Allowed t ops else none

theorem of_exec [∀ t op, Decidable (Allowed t op)] (done : exec step Allowed s ops = some t) :
    Run step Allowed s ops t := by
  induction ops generalizing s with
  | nil =>
    obtain rfl : s = t := Option.some.inj done
    exact .nil
  | cons op ops inductionHypothesis =>
    rw [exec] at done
    split at done
    next allowed =>
      obtain ⟨u, stepped, rest⟩ := Option.bind_eq_some_iff.mp done
      exact .cons allowed stepped (inductionHypothesis rest)
    next => cases done

end Run

/-! ## Purged runs

A transducer reads inputs and gives an output for each.  If the inputs that are not relevant cannot be noticed, then a run
without them gives the same outputs for the relevant ones. -/

namespace Transducer

variable {σ : Type u} {γ : Type v} {ο : Type w}

/-- The inputs with their outputs, and the last state. -/
def run (step : σ → γ → ο × σ) : σ → List γ → List (γ × ο) × σ
  | s, [] => ([], s)
  | s, c :: cs =>
    let rest := run step (step s c).2 cs
    ((c, (step s c).1) :: rest.1, rest.2)

variable {step : σ → γ → ο × σ} {s t : σ} {c : γ} {cs : List γ}

@[simp] theorem run_nil : run step s [] = ([], s) := rfl

@[simp] theorem run_cons :
    run step s (c :: cs) = ((c, (step s c).1) :: (run step (step s c).2 cs).1, (run step (step s c).2 cs).2) := rfl

@[simp] theorem inputs_run : (run step s cs).1.map Prod.fst = cs := by
  induction cs generalizing s with
  | nil => rfl
  | cons c cs inductionHypothesis => rw [run_cons, List.map_cons, inductionHypothesis]

/-- The relation says that the second state looks like the first; an input that is skipped does not show. -/
structure Unnoticed (step : σ → γ → ο × σ) (Allowed : γ → Prop) (relevant : γ → Bool) (Good : ο → Prop)
    (looks : σ → σ → Prop) : Prop where
  agree : ∀ s t c, looks s t → Allowed c → relevant c → Good (step s c).1 →
    (step t c).1 = (step s c).1 ∧ looks (step s c).2 (step t c).2
  skip : ∀ s t c, looks s t → Allowed c → ¬ relevant c → looks (step s c).2 t

/-- The relevant inputs have the same outputs when the others are left out. -/
theorem run_filter {Allowed : γ → Prop} {relevant : γ → Bool} {Good : ο → Prop} {looks : σ → σ → Prop}
    (unnoticed : Unnoticed step Allowed relevant Good looks) (start : looks s t) (allowed : ∀ c ∈ cs, Allowed c)
    (good : ∀ x ∈ (run step s cs).1, relevant x.1 → Good x.2) :
    (run step t (cs.filter relevant)).1 = (run step s cs).1.filter (fun x => relevant x.1) ∧
      looks (run step s cs).2 (run step t (cs.filter relevant)).2 := by
  induction cs generalizing s t with
  | nil => exact ⟨rfl, start⟩
  | cons c cs inductionHypothesis =>
    obtain ⟨allowedFirst, allowedRest⟩ := List.forall_mem_cons.mp allowed
    rw [run_cons] at good ⊢
    obtain ⟨goodFirst, goodRest⟩ := List.forall_mem_cons.mp good
    by_cases here : relevant c = true
    · obtain ⟨same, next⟩ := unnoticed.agree s t c start allowedFirst here (goodFirst here)
      obtain ⟨outputs, last⟩ := inductionHypothesis next allowedRest goodRest
      simp only [List.filter_cons, here, if_true, run_cons]
      exact ⟨by rw [same, outputs], last⟩
    · obtain ⟨outputs, last⟩ := inductionHypothesis (unnoticed.skip s t c start allowedFirst here) allowedRest goodRest
      simp only [List.filter_cons, here]
      exact ⟨outputs, last⟩

end Transducer
