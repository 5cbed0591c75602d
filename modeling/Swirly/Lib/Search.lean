import Mathlib

/-!
# Searching a list for another

The position of the first occurrence, as the `find` of a string gives it.
-/

variable {α : Type*} [DecidableEq α]

/-- The position of the first occurrence of a list that is not empty. -/
def search (sub : List α) : List α → Option Nat
  | [] => none
  | x :: xs => if sub <+: x :: xs then some 0 else (search sub xs).map (· + 1)

/-- What comes after the first occurrence. -/
def afterFirst (sub xs : List α) : Option (List α) := (search sub xs).map fun pos => xs.drop (pos + sub.length)

variable {sep : α} {sub xs ys : List α}

theorem search_here (nonempty : sub ≠ []) : search sub (sub ++ ys) = some 0 := by
  cases sub with
  | nil => exact absurd rfl nonempty
  | cons x sub => exact if_pos (List.prefix_append (x :: sub) ys)

/-- What starts with a separator does not start where there is none. -/
theorem search_skip (absent : sep ∉ xs) : search (sep :: sub) (xs ++ ys) = (search (sep :: sub) ys).map (· + xs.length) := by
  induction xs with
  | nil =>
    rw [List.nil_append]
    cases search (sep :: sub) ys <;> rfl
  | cons x xs inductionHypothesis =>
    have other : ¬ sep :: sub <+: x :: (xs ++ ys) := by
      rw [List.cons_prefix_cons]
      rintro ⟨same, -⟩
      exact absent (same ▸ List.mem_cons_self)
    have rest := inductionHypothesis fun inside => absent (List.mem_cons_of_mem x inside)
    rw [List.cons_append, search, if_neg other, rest, Option.map_map]
    congr 1

theorem afterFirst_here (nonempty : sub ≠ []) : afterFirst sub (sub ++ ys) = some ys := by
  rw [afterFirst, search_here nonempty, Option.map_some, Nat.zero_add, List.drop_left]

theorem afterFirst_skip (absent : sep ∉ xs) : afterFirst (sep :: sub) (xs ++ ys) = afterFirst (sep :: sub) ys := by
  rw [afterFirst, afterFirst, search_skip absent, Option.map_map]
  congr 1
  funext pos
  have order : pos + xs.length + (sep :: sub).length = xs.length + (pos + (sep :: sub).length) := by omega
  rw [Function.comp_apply, order, List.drop_append]
  simp

/-- A separator that something else follows. -/
theorem afterFirst_next (other : ¬ sub <+: ys) : afterFirst (sep :: sub) (sep :: ys) = afterFirst (sep :: sub) ys := by
  have here : ¬ sep :: sub <+: sep :: ys := by
    rw [List.cons_prefix_cons]
    exact fun both => other both.2
  rw [afterFirst, afterFirst, search, if_neg here, Option.map_map]
  congr 1
  funext pos
  rw [Function.comp_apply, Nat.add_right_comm, List.drop_succ_cons]

/-- The first occurrence of a separator ends what has none of it. -/
theorem search_separator (xs : List α) (ys : List α) (absent : sep ∉ xs) : search [sep] (xs ++ sep :: ys) = some xs.length := by
  have here : search [sep] (sep :: ys) = some 0 := search_here (List.cons_ne_nil sep [])
  rw [search_skip absent, here, Option.map_some, Nat.zero_add]

theorem search_absent (absent : sep ∉ xs) : search (sep :: sub) xs = none := by
  have skipped : search (sep :: sub) (xs ++ []) = (search (sep :: sub) []).map (· + xs.length) := search_skip absent
  rwa [List.append_nil, search, Option.map_none] at skipped

/-- What comes before the first separator, if there is one, and everything otherwise. -/
theorem takeWhile_search (xs : List α) :
    ((search [sep] xs).elim xs fun pos => xs.take pos) = xs.takeWhile (· ≠ sep) := by
  by_cases present : sep ∈ xs
  · obtain ⟨before, after, split, absent⟩ := List.eq_append_cons_of_mem present
    have outside : ∀ x ∈ before, (decide (x ≠ sep)) = true := by
      intro x inside
      exact decide_eq_true fun same => absent (same ▸ inside)
    rw [split, search_separator before after absent, Option.elim_some, List.take_left,
      List.takeWhile_append_of_pos outside, List.takeWhile_cons]
    simp
  · have outside : ∀ x ∈ xs, (decide (x ≠ sep)) = true := by
      intro x inside
      exact decide_eq_true fun same => present (same ▸ inside)
    rw [search_absent present, Option.elim_none, List.takeWhile_eq_self_iff.mpr outside]
