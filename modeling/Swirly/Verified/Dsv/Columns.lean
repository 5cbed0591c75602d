import Swirly.Fin.Dsv
import Swirly.Verified.Fix.Tokens

/-!
# Columns and lines

What is joined is split again, as long as no column has a delimiter in it, and a number is read back from its digits unless
it wraps.
-/

namespace Swirly

namespace Dsv

/-! ## Splitting -/

theorem tokens_field {delim : UInt8} {s : Bytes} (free : delim ∉ s) (rest : Bytes) :
    tokens [delim] (s ++ delim :: rest) = s :: tokens [delim] rest := by
  induction s with
  | nil => simp [tokens]
  | cons c s inductionHypothesis =>
    rw [List.mem_cons, not_or] at free
    have other : c ∉ [delim] := by
      rw [List.mem_singleton]
      exact Ne.symm free.1
    rw [List.cons_append, tokens, if_neg other, inductionHypothesis free.2]

theorem tokens_last {delim : UInt8} {s : Bytes} (free : delim ∉ s) (some : s ≠ []) : tokens [delim] s = [s] := by
  induction s with
  | nil => exact absurd rfl some
  | cons c s inductionHypothesis =>
    rw [List.mem_cons, not_or] at free
    have other : c ∉ [delim] := by
      rw [List.mem_singleton]
      exact Ne.symm free.1
    rw [tokens, if_neg other]
    cases s with
    | nil => rfl
    | cons d s => rw [inductionHypothesis free.2 (List.cons_ne_nil d s)]

/-- A column is read where it was written, and an empty one at the end is read as a missing one. -/
theorem col_split {columns : List Bytes} (free : ∀ c ∈ columns, tab ∉ c) (i : Nat) :
    (split (join columns)).col i = Row.col columns i := by
  induction columns generalizing i with
  | nil => rfl
  | cons c columns inductionHypothesis =>
    rw [List.forall_mem_cons] at free
    cases columns with
    | nil =>
      have alone : join [c] = c := by simp [join, List.intercalate]
      by_cases empty : c = []
      · subst empty
        cases i <;> rfl
      · rw [split, alone, tokens_last free.1 empty]
    | cons d columns =>
      have more : join (c :: d :: columns) = c ++ tab :: join (d :: columns) := by simp [join, List.intercalate]
      rw [split, more, tokens_field free.1]
      cases i with
      | zero => rfl
      | succ i => exact inductionHypothesis free.2 i

/-- Neither of the delimiters. -/
def Clean (s : Bytes) : Prop := tab ∉ s ∧ newline ∉ s

theorem newline_not_mem_join {columns : List Bytes} (clean : ∀ c ∈ columns, Clean c) : newline ∉ join columns := by
  have differ : newline ≠ tab := by decide
  induction columns with
  | nil => exact List.not_mem_nil
  | cons c columns inductionHypothesis =>
    rw [List.forall_mem_cons] at clean
    cases columns with
    | nil => simpa [join] using clean.1.2
    | cons d columns =>
      have others := inductionHypothesis clean.2
      rw [join, List.intercalate_cons_cons]
      simp only [List.mem_append, List.mem_singleton, not_or]
      exact ⟨⟨clean.1.2, differ⟩, others⟩

theorem lines_split {rows : List Row} (clean : ∀ row ∈ rows, ∀ c ∈ row, Clean c) :
    tokens [newline] (rows.flatMap fun row => join row ++ [newline]) = rows.map join := by
  induction rows with
  | nil => rfl
  | cons row rows inductionHypothesis =>
    rw [List.forall_mem_cons] at clean
    rw [List.flatMap_cons, List.append_assoc, List.singleton_append, tokens_field (newline_not_mem_join clean.1),
      inductionHypothesis clean.2, List.map_cons]

/-! ## Numbers -/

theorem takeWhile_decimal (n : Nat) : (decimal n).takeWhile RestBody.isDigit = decimal n :=
  List.takeWhile_eq_self_iff.mpr (isDigit_decimal n)

theorem value_digit (n : Nat) : (digitChar (Fin.ofNat 10 n)).toNat - 48 = n % 10 := by
  rw [toNat_digitChar, Nat.add_sub_cancel_left, Fin.val_ofNat]

theorem isSpace_of_isDigit {c : UInt8} (digit : RestBody.isDigit c) : RestBody.isSpace c = false := by
  simp only [RestBody.isDigit, Bool.and_eq_true, decide_eq_true_eq, UInt8.le_iff_toNat_le] at digit
  simp only [RestBody.isSpace, Bool.or_eq_false_iff, Bool.and_eq_false_iff, decide_eq_false_iff_not, UInt8.le_iff_toNat_le,
    ← UInt8.toNat_inj]
  have values : (48 : UInt8).toNat = 48 ∧ (57 : UInt8).toNat = 57 ∧ (32 : UInt8).toNat = 32 ∧ (9 : UInt8).toNat = 9 ∧
      (13 : UInt8).toNat = 13 := by decide
  omega

theorem dropWhile_digits {s : Bytes} (digits : ∀ c ∈ s, RestBody.isDigit c) : s.dropWhile RestBody.isSpace = s := by
  cases s with
  | nil => rfl
  | cons c s => rw [List.dropWhile_cons, isSpace_of_isDigit (digits c (List.mem_cons_self ..)), if_neg Bool.false_ne_true]

theorem stou_insertInt (w n : Nat) : stou w (insertInt n) = n % 2 ^ w := by
  have positive : insertInt n = decimal n := rfl
  rw [positive, stou, dropWhile_digits (isDigit_decimal n), takeWhile_decimal]
  induction n using Nat.strong_induction_on with
  | h n inductionHypothesis =>
    by_cases small : n < 10
    · rw [decimal_of_lt small, List.foldl_cons, List.foldl_nil, value_digit, Nat.mod_eq_of_lt small, Nat.zero_mul, Nat.zero_add]
    · have split : n / 10 * 10 + n % 10 = n := by omega
      rw [decimal_of_ge (not_lt.mp small), List.foldl_append, inductionHypothesis (n / 10) (by omega) rfl, List.foldl_cons,
        List.foldl_nil, value_digit, Nat.add_mod, Nat.mod_mul_mod, ← Nat.add_mod, split]

end Dsv

end Swirly
