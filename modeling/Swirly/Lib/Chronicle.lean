import Mathlib

/-!
# Sequences whose elements fit what is before them

`Chronicle Fits xs` says that every element of `xs` fits the elements before it.
-/

universe u

variable {α : Type u}

def Chronicle (Fits : List α → α → Prop) (xs : List α) : Prop :=
  ∀ before x after, xs = before ++ x :: after → Fits before x

namespace Chronicle

variable {Fits Suits : List α → α → Prop} {xs ys : List α} {x : α}

theorem nil : Chronicle Fits [] := fun before x after split => by simp at split

theorem append (chronicle : Chronicle Fits xs) (more : ∀ before x after, ys = before ++ x :: after → Fits (xs ++ before) x) :
    Chronicle Fits (xs ++ ys) := by
  intro before x after split
  cases List.append_eq_append_iff.mp split with
  | inl later =>
    obtain ⟨between, rfl, rest⟩ := later
    exact more between x after rest
  | inr earlier =>
    obtain ⟨between, rfl, rest⟩ := earlier
    cases between with
    | nil =>
      have fits := more [] x after (by rw [List.nil_append] at rest ⊢; exact rest.symm)
      rwa [List.append_nil, List.append_nil] at fits
    | cons first between =>
      obtain ⟨rfl, rfl⟩ : x = first ∧ after = between ++ ys := by simpa using rest
      exact chronicle before x between rfl

theorem snoc (chronicle : Chronicle Fits xs) (last : Fits xs x) : Chronicle Fits (xs ++ [x]) := by
  refine chronicle.append fun before y after split => ?_
  cases before with
  | nil =>
    obtain ⟨rfl, -⟩ : x = y ∧ after = [] := by simpa [eq_comm] using split
    rwa [List.append_nil]
  | cons _ _ => simp at split

theorem initial (chronicle : Chronicle Fits (xs ++ ys)) : Chronicle Fits xs := fun before x after split =>
  chronicle before x (after ++ ys) (by rw [split, List.append_assoc, List.cons_append])

theorem last (chronicle : Chronicle Fits (xs ++ [x])) : Fits xs x := chronicle xs x [] rfl

theorem of_mem (chronicle : Chronicle Fits xs) (member : x ∈ xs) :
    ∃ before after, xs = before ++ x :: after ∧ Fits before x := by
  obtain ⟨before, after, split⟩ := List.append_of_mem member
  exact ⟨before, after, split, chronicle before x after split⟩

end Chronicle
