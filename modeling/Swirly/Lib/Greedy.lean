import Mathlib

/-!
# Greedy allocation

A demand is met from a list of offers in order, each of them used up before the next is touched.
-/

universe u

namespace Greedy

variable {α : Type u}

/-- Meet the demand `want`; an allocation is an offer with the part of it that is taken. -/
def fill (want : Int) : List (α × Int) → List (α × Int)
  | [] => []
  | (a, offered) :: offers =>
    if want = 0 then []
    else (a, min want offered) :: fill (want - min want offered) offers

/-- What a list of offers or allocations comes to. -/
def total (xs : List (α × Int)) : Int := (xs.map Prod.snd).sum

@[simp] theorem total_nil : total ([] : List (α × Int)) = 0 := rfl

@[simp] theorem total_cons (x : α × Int) (xs : List (α × Int)) : total (x :: xs) = x.2 + total xs := rfl

@[simp] theorem fill_nil (want : Int) : fill want ([] : List (α × Int)) = [] := rfl

theorem fill_zero (offers : List (α × Int)) : fill 0 offers = [] := by cases offers <;> simp [fill]

theorem fill_cons {want : Int} (wanted : want ≠ 0) (a : α) (offered : Int) (offers : List (α × Int)) :
    fill want ((a, offered) :: offers) = (a, min want offered) :: fill (want - min want offered) offers :=
  if_neg wanted

/-- Offers are used in order: those that are touched come before those that are not. -/
theorem fill_prefix (want : Int) (offers : List (α × Int)) :
    ((fill want offers).map Prod.fst) <+: (offers.map Prod.fst) := by
  induction offers generalizing want with
  | nil => exact List.prefix_refl _
  | cons offer offers inductionHypothesis =>
    obtain ⟨a, offered⟩ := offer
    unfold fill
    split
    next => exact List.nil_prefix
    next => exact List.cons_prefix_cons.mpr ⟨rfl, inductionHypothesis _⟩

/-- No more of an offer is taken than there is. -/
theorem fill_le {want : Int} {offers : List (α × Int)} {x : α × Int} (taken : x ∈ fill want offers) :
    ∃ offered, (x.1, offered) ∈ offers ∧ x.2 ≤ offered := by
  induction offers generalizing want with
  | nil => cases taken
  | cons offer offers inductionHypothesis =>
    obtain ⟨a, offered⟩ := offer
    unfold fill at taken
    split at taken
    next => cases taken
    next =>
      cases List.mem_cons.mp taken with
      | inl here => exact ⟨offered, by rw [here]; exact List.mem_cons_self, by rw [here]; exact min_le_right _ _⟩
      | inr later =>
        obtain ⟨offered, inside, le⟩ := inductionHypothesis later
        exact ⟨offered, List.mem_cons_of_mem _ inside, le⟩

section Positive

variable {want : Int} {offers : List (α × Int)}

/-- Every allocation takes something. -/
theorem fill_positive (wanted : 0 ≤ want) (positive : ∀ x ∈ offers, 0 < x.2) {x : α × Int}
    (taken : x ∈ fill want offers) : 0 < x.2 := by
  induction offers generalizing want with
  | nil => cases taken
  | cons offer offers inductionHypothesis =>
    obtain ⟨a, offered⟩ := offer
    have offeredPositive : 0 < offered := positive _ List.mem_cons_self
    unfold fill at taken
    split at taken
    next => cases taken
    next wantNonzero =>
      cases List.mem_cons.mp taken with
      | inl here => rw [here]; show 0 < min want offered; omega
      | inr later => exact inductionHypothesis (by omega) (fun y inside => positive y (List.mem_cons_of_mem _ inside)) later

theorem total_nonneg (positive : ∀ x ∈ offers, 0 < x.2) : 0 ≤ total offers := by
  induction offers with
  | nil => exact le_refl _
  | cons offer offers inductionHypothesis =>
    have head := positive offer List.mem_cons_self
    have tail := inductionHypothesis fun y inside => positive y (List.mem_cons_of_mem _ inside)
    rw [total_cons]
    omega

/-- The demand is met as far as the offers go. -/
theorem total_fill (wanted : 0 ≤ want) (positive : ∀ x ∈ offers, 0 < x.2) :
    total (fill want offers) = min want (total offers) := by
  induction offers generalizing want with
  | nil => simp only [fill_nil, total_nil]; omega
  | cons offer offers inductionHypothesis =>
    obtain ⟨a, offered⟩ := offer
    have offeredPositive : 0 < offered := positive _ List.mem_cons_self
    have rest := fun y inside => positive y (List.mem_cons_of_mem _ inside)
    have restNonneg := total_nonneg rest
    cases eq_or_ne want 0 with
    | inl met =>
      rw [met, fill_zero, total_nil, total_cons]
      show 0 = min 0 (offered + total offers)
      omega
    | inr unmet =>
      rw [fill_cons unmet, total_cons, inductionHypothesis (by omega) rest, total_cons]
      show min want offered + min (want - min want offered) (total offers) = min want (offered + total offers)
      omega

/-- An offer is touched only when those before it are used up. -/
theorem fill_used_up (wanted : 0 ≤ want) (positive : ∀ x ∈ offers, 0 < x.2) {i : Nat}
    (later : i + 1 < (fill want offers).length) : (fill want offers)[i]? = offers[i]? := by
  induction offers generalizing want i with
  | nil => simp at later
  | cons offer offers inductionHypothesis =>
    obtain ⟨a, offered⟩ := offer
    have offeredPositive : 0 < offered := positive _ List.mem_cons_self
    have rest := fun y inside => positive y (List.mem_cons_of_mem _ inside)
    cases eq_or_ne want 0 with
    | inl met => rw [met, fill_zero] at later; simp at later
    | inr unmet =>
      rw [fill_cons unmet] at later ⊢
      cases i with
      | zero =>
        -- Something is left for the next offer, so this one was not enough.
        have small : min want offered = offered := by
          by_contra enough
          have met : want - min want offered = 0 := by omega
          rw [met, fill_zero] at later
          simp at later
        simp [small]
      | succ i =>
        simp only [List.length_cons, Nat.add_lt_add_iff_right] at later
        simpa using inductionHypothesis (by omega) rest later

/-- When the demand is not met, every offer is used up. -/
theorem fill_all (wanted : 0 ≤ want) (positive : ∀ x ∈ offers, 0 < x.2) (short : total (fill want offers) ≠ want) :
    fill want offers = offers := by
  induction offers generalizing want with
  | nil => rfl
  | cons offer offers inductionHypothesis =>
    obtain ⟨a, offered⟩ := offer
    have offeredPositive : 0 < offered := positive _ List.mem_cons_self
    have rest := fun y inside => positive y (List.mem_cons_of_mem _ inside)
    have unmet : want ≠ 0 := fun met => short (by rw [met, fill_zero]; rfl)
    rw [fill_cons unmet, total_cons] at short
    change min want offered + total (fill (want - min want offered) offers) ≠ want at short
    have notEnough : min want offered = offered := by
      by_contra enough
      have met : want - min want offered = 0 := by omega
      rw [met, fill_zero] at short
      exact short (by rw [total_nil]; omega)
    rw [fill_cons unmet, inductionHypothesis (by omega) rest (by omega), notEnough]

end Positive

/-! ## What a demand reaches -/

/-- The offers that a demand reaches: it goes on as long as less than it wants has been offered. -/
def reach (want : Int) : List (α × Int) → List (α × Int)
  | [] => []
  | x :: offers => if 0 < want then x :: reach (want - x.2) offers else []

theorem reach_cons {want : Int} (wanted : 0 < want) (x : α × Int) (offers : List (α × Int)) :
    reach want (x :: offers) = x :: reach (want - x.2) offers :=
  if_pos wanted

theorem reach_met {want : Int} (met : want ≤ 0) (offers : List (α × Int)) : reach want offers = [] := by
  cases offers <;> simp [reach, not_lt.mpr met]

theorem reach_initial (want : Int) (offers : List (α × Int)) : reach want offers <+: offers := by
  induction offers generalizing want with
  | nil => exact List.prefix_refl _
  | cons offer offers inductionHypothesis =>
    cases le_or_gt want 0 with
    | inl met => rw [reach_met met]; exact List.nil_prefix
    | inr more => rw [reach_cons more]; exact List.cons_prefix_cons.mpr ⟨rfl, inductionHypothesis _⟩

section Reach

variable {want : Int} {offers : List (α × Int)}

/-- Nothing is taken beyond what is reached. -/
theorem fill_reach (wanted : 0 ≤ want) (positive : ∀ x ∈ reach want offers, 0 < x.2) :
    fill want (reach want offers) = fill want offers ∧ (fill want offers).length = (reach want offers).length := by
  induction offers generalizing want with
  | nil => simp [reach]
  | cons offer offers inductionHypothesis =>
    obtain ⟨a, offered⟩ := offer
    cases eq_or_lt_of_le wanted with
    | inl met => simp [← met, fill_zero, reach_met le_rfl]
    | inr more =>
      rw [reach_cons more] at positive ⊢
      have rest : ∀ x ∈ reach (want - offered) offers, 0 < x.2 := fun x inside => positive x (List.mem_cons_of_mem _ inside)
      rw [fill_cons more.ne', fill_cons more.ne']
      by_cases enough : want ≤ offered
      · -- The offer meets the demand, and nothing is reached after it.
        simp [min_eq_left enough, fill_zero, reach_met (sub_nonpos.mpr enough)]
      · have short : min want offered = offered := min_eq_right (le_of_not_ge enough)
        obtain ⟨same, length⟩ := inductionHypothesis (by omega) rest
        simp [short, same, length]

/-- If every allocation takes something, then what is reached offers something. -/
theorem reach_positive (wanted : 0 ≤ want) (positive : ∀ x ∈ fill want offers, 0 < x.2) :
    ∀ x ∈ reach want offers, 0 < x.2 := by
  induction offers generalizing want with
  | nil => simp [reach]
  | cons offer offers inductionHypothesis =>
    obtain ⟨a, offered⟩ := offer
    cases eq_or_lt_of_le wanted with
    | inl met => simp [← met, reach_met le_rfl]
    | inr more =>
      rw [fill_cons more.ne'] at positive
      rw [reach_cons more]
      obtain ⟨taken, later⟩ := List.forall_mem_cons.mp positive
      refine List.forall_mem_cons.mpr ⟨lt_of_lt_of_le taken (min_le_right _ _), ?_⟩
      by_cases enough : want ≤ offered
      · simp [reach_met (sub_nonpos.mpr enough)]
      · rw [show min want offered = offered from min_eq_right (le_of_not_ge enough)] at later
        exact inductionHypothesis (by omega) later

end Reach

end Greedy
