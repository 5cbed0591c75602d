import Swirly.Util.TypeTraits
import Swirly.Verified.Dsv.Columns

/-!
# Integers read back from text

What `stoi` and `stou` read from the decimal rendering of a number, type by type.  The traits of the 64-bit types read 32 bits,
and the magnitude of the least `int` is no `int`.
-/

namespace Swirly

namespace IntType

variable {t : IntType}

theorem store_zero (t : IntType) : t.store 0 = some 0 := by cases t <;> rfl

theorem digits_eq (t : IntType) (s : Bytes) : t.digits s = t.moreDigits 0 s := by
  cases s with
  | nil => rfl
  | cons c rest =>
    rw [digits, moreDigits, zero_mul, store_zero]
    rfl

theorem moreDigits_append {s : Bytes} (all : ∀ c ∈ s, RestBody.isDigit c) (i : Int) (rest : Bytes) :
    t.moreDigits i (s ++ rest) = (t.moreDigits i s).bind fun i => t.moreDigits i rest := by
  induction s generalizing i with
  | nil => rfl
  | cons c s inductionHypothesis =>
    rw [List.forall_mem_cons] at all
    rw [List.cons_append, moreDigits, moreDigits, if_pos all.1, if_pos all.1, Option.bind_assoc]
    congr 1
    funext i
    rw [Option.bind_assoc]
    congr 1
    funext i
    exact inductionHypothesis all.2 i

theorem moreDigits_last (i : Int) (n : Nat) : t.moreDigits i [digitChar (Fin.ofNat 10 n)] =
    (t.store (i * 10)).bind fun i => t.store (i + (n % 10 : Nat)) := by
  have digit : RestBody.isDigit (digitChar (Fin.ofNat 10 n)) := isDigit_digitChar _
  rw [moreDigits, if_pos digit, Dsv.value_digit]
  congr 1
  funext i
  exact Option.bind_fun_some _

theorem digits_small {n : Nat} (small : n < 10) : t.digits (decimal n) = t.store n := by
  rw [decimal_of_lt small, digits_eq, moreDigits_last, zero_mul, store_zero, Option.bind_some, zero_add, Nat.mod_eq_of_lt small]

theorem digits_large {n : Nat} (large : 10 ≤ n) : t.digits (decimal n) =
    (t.digits (decimal (n / 10))).bind fun i => (t.store (i * 10)).bind fun i => t.store (i + (n % 10 : Nat)) := by
  rw [decimal_of_ge large, digits_eq, digits_eq, moreDigits_append (isDigit_decimal _)]
  congr 1
  funext i
  exact moreDigits_last i n

/-! ## Type by type -/

/-- An `int`, or wider: what does not fit is undefined, and the magnitude of the least value does not. -/
structure Wide (t : IntType) : Prop where
  store : ∀ n, t.store n = if t.Holds n then some n else none
  min : t.min = -t.max - 1
  ten : 10 ≤ t.max

theorem wide_int32 : int32.Wide := ⟨fun _ => rfl, by decide, by decide⟩

theorem wide_int64 : int64.Wide := ⟨fun _ => rfl, by decide, by decide⟩

theorem Wide.store_natural (wide : t.Wide) {n : Int} (low : 0 ≤ n) : t.store n = if n ≤ t.max then some n else none := by
  have := wide.min
  have := wide.ten
  have same : t.Holds n ↔ n ≤ t.max := by
    rw [Holds]
    omega
  simp only [wide.store, same]

theorem Wide.digits_decimal (wide : t.Wide) (n : Nat) : t.digits (decimal n) = if (n : Int) ≤ t.max then some (n : Int) else none := by
  induction n using Nat.strong_induction_on with
  | h n inductionHypothesis =>
    by_cases small : n < 10
    · rw [digits_small small, wide.store_natural (by omega)]
    · rw [digits_large (by omega), inductionHypothesis (n / 10) (by omega)]
      -- A prefix of the digits that does not fit is no prefix of a number that does.
      by_cases before : ((n / 10 : Nat) : Int) ≤ t.max
      · rw [if_pos before, Option.bind_some, wide.store_natural (by omega)]
        by_cases shifted : ((n / 10 : Nat) : Int) * 10 ≤ t.max
        · have value : ((n / 10 : Nat) : Int) * 10 + (n % 10 : Nat) = n := by omega
          rw [if_pos shifted, Option.bind_some, wide.store_natural (by omega), value]
        · rw [if_neg shifted, Option.bind_none, if_neg (by omega)]
      · rw [if_neg before, Option.bind_none, if_neg (by omega)]

theorem store_int16 {n : Int} (modest : int32.Holds n) : int16.store n = some (n.bmod (2 ^ 16)) := if_pos modest

theorem digits_int16 (n : Nat) : int16.digits (decimal n) = some ((n : Int).bmod (2 ^ 16)) := by
  induction n using Nat.strong_induction_on with
  | h n inductionHypothesis =>
    by_cases small : n < 10
    · rw [digits_small small]
      apply store_int16
      rw [Holds, min, max]
      omega
    · have value : ((n / 10 : Nat) : Int) * 10 + (n % 10 : Nat) = n := by omega
      have narrow (i : Int) : -2 ^ 15 ≤ i.bmod (2 ^ 16) ∧ i.bmod (2 ^ 16) < 2 ^ 15 := by
        rw [Int.bmod_def]
        omega
      have first := narrow (n / 10 : Nat)
      have second := narrow ((n / 10 : Nat) * 10)
      rw [digits_large (by omega), inductionHypothesis (n / 10) (by omega), Option.bind_some, store_int16, Option.bind_some,
        Int.bmod_mul_bmod, store_int16, Int.bmod_add_bmod, value]
      · rw [Holds, min, max]
        omega
      · rw [Holds, min, max]
        omega

/-! ## Signs -/

theorem stoi_decimal (n : Nat) : t.stoi (decimal n) = t.digits (decimal n) := by
  have all := isDigit_decimal n
  rw [stoi, Dsv.dropWhile_digits all]
  cases split : decimal n with
  | nil => exact absurd split (decimal_ne_nil n)
  | cons c rest =>
    rw [split] at all
    have digit := all c (List.mem_cons_self ..)
    have minus : c ≠ 45 := by rintro rfl; cases digit
    have plus : c ≠ 43 := by rintro rfl; cases digit
    simp only [minus, plus, if_false]

theorem stoi_minus (n : Nat) : t.stoi (45 :: decimal n) = (t.digits (decimal n)).bind fun i => t.store (-i) := by
  have notSpace : RestBody.isSpace 45 = false := by decide
  rw [stoi, List.dropWhile_cons, notSpace, if_neg Bool.false_ne_true]
  simp only [if_true, decimal_ne_nil, if_false]

/-- A number is read as it is, or not at all. -/
theorem Wide.stoi_insertInt (wide : t.Wide) (v : Int) :
    t.stoi (insertInt v) = if t.min < v ∧ v ≤ t.max then some v else none := by
  have least := wide.min
  have ten := wide.ten
  cases v with
  | ofNat n =>
    have positive : insertInt (Int.ofNat n) = decimal n := rfl
    have same : (t.min < (n : Int) ∧ (n : Int) ≤ t.max) ↔ (n : Int) ≤ t.max := by omega
    rw [positive, stoi_decimal, wide.digits_decimal, Int.ofNat_eq_natCast]
    simp only [same]
  -- The digits of the least number are those of one more than the greatest.
  | negSucc n =>
    have minus : insertInt (Int.negSucc n) = 45 :: decimal (n + 1) := insertInt_negSucc n
    have value : Int.negSucc n = -((n + 1 : Nat) : Int) := rfl
    rw [minus, stoi_minus, wide.digits_decimal, value]
    by_cases fits : ((n + 1 : Nat) : Int) ≤ t.max
    · have within : t.Holds (-((n + 1 : Nat) : Int)) := by
        rw [Holds]
        omega
      rw [if_pos fits, Option.bind_some, wide.store, if_pos within, if_pos (by omega)]
    · rw [if_neg fits, Option.bind_none, if_neg (by omega)]

theorem stoi_int32_iff (v : Int) : int32.stoi (insertInt v) = some v ↔ -2 ^ 31 < v ∧ v < 2 ^ 31 := by
  rw [wide_int32.stoi_insertInt]
  have bounds : int32.min = -2 ^ 31 ∧ int32.max = 2 ^ 31 - 1 := ⟨rfl, rfl⟩
  simp only [bounds, ite_eq_left_iff, reduceCtorEq, imp_false, not_not]
  omega

theorem stoi_int16 {v : Int} (holds : int16.Holds v) : int16.stoi (insertInt v) = some v := by
  rw [Holds, min, max] at holds
  cases v with
  | ofNat n =>
    have positive : insertInt (Int.ofNat n) = decimal n := rfl
    have same : (n : Int).bmod (2 ^ 16) = n := by
      rw [Int.ofNat_eq_natCast] at holds
      rw [Int.bmod_def]
      omega
    rw [positive, stoi_decimal, digits_int16, same, Int.ofNat_eq_natCast]
  | negSucc n =>
    have minus : insertInt (Int.negSucc n) = 45 :: decimal (n + 1) := insertInt_negSucc n
    have value : Int.negSucc n = -((n + 1 : Nat) : Int) := rfl
    have narrow : -2 ^ 15 ≤ ((n + 1 : Nat) : Int).bmod (2 ^ 16) ∧ ((n + 1 : Nat) : Int).bmod (2 ^ 16) < 2 ^ 15 := by
      rw [Int.bmod_def]
      omega
    have within : int32.Holds (-((n + 1 : Nat) : Int).bmod (2 ^ 16)) := by
      rw [Holds, min, max]
      omega
    have same : (-((n + 1 : Nat) : Int)).bmod (2 ^ 16) = -((n + 1 : Nat) : Int) := by
      rw [Int.bmod_def]
      omega
    rw [minus, stoi_minus, digits_int16, Option.bind_some, store_int16 within, ← zero_sub, Int.sub_bmod_bmod, zero_sub, same, value]

end IntType

open IntType in
/-- The values that are read back: an `int` but the least one, and 64 bits as far as 32 go. -/
def IntegerType.ReadBack (ty : IntegerType) (v : Int) : Prop :=
  match ty.underlying with
  | int32 => v ≠ -2 ^ 31
  | int64 => -2 ^ 31 < v ∧ v < 2 ^ 31
  | uint64 => v < 2 ^ 32
  | int16 | uint16 | uint32 => True

open IntType in
theorem fromStringInt_iff (t : IntType) {v : Int} (holds : t.Holds v) :
    TypeTraits.fromStringInt t (insertInt v) = some v ↔ (IntegerType.arithmetic t).ReadBack v := by
  cases t with
  | int16 => exact iff_of_true (stoi_int16 holds) trivial
  | int32 =>
    have bounds : -2 ^ 31 ≤ v ∧ v ≤ 2 ^ 31 - 1 := holds
    have least : -2 ^ 31 < v ∧ v < 2 ^ 31 ↔ v ≠ -2 ^ 31 := by omega
    exact (stoi_int32_iff v).trans least
  -- `stoi` computes in an `int` for this type too.
  | int64 => exact stoi_int32_iff v
  | uint16 =>
    obtain ⟨n, rfl⟩ := Int.eq_ofNat_of_zero_le holds.1
    have bounds : (n : Int) ≤ 2 ^ 16 - 1 := holds.2
    have same : n % 2 ^ 16 = n := by omega
    refine iff_of_true ?_ trivial
    rw [TypeTraits.fromStringInt, Dsv.stou_insertInt, same]
  | uint32 =>
    obtain ⟨n, rfl⟩ := Int.eq_ofNat_of_zero_le holds.1
    have bounds : (n : Int) ≤ 2 ^ 32 - 1 := holds.2
    have same : n % 2 ^ 32 = n := by omega
    refine iff_of_true ?_ trivial
    rw [TypeTraits.fromStringInt, Dsv.stou_insertInt, same]
  -- `stou` adds the digits up in an `unsigned`, and wraps there.
  | uint64 =>
    obtain ⟨n, rfl⟩ := Int.eq_ofNat_of_zero_le holds.1
    have small : ((n % 2 ^ 32 : Nat) : Int) = n ↔ (n : Int) < 2 ^ 32 := by omega
    rw [TypeTraits.fromStringInt, Dsv.stou_insertInt, Option.some.injEq]
    exact small

/-- A value is read back from its decimal rendering, without undefined behaviour, exactly when it is one of these. -/
theorem fromString_iff (ty : IntegerType) {v : Int} (holds : ty.underlying.Holds v) :
    TypeTraits.fromString ty (insertInt v) = some v ↔ ty.ReadBack v := by
  cases ty with
  | arithmetic t => exact fromStringInt_iff t holds
  | enumeration t => exact fromStringInt_iff t holds
  | intWrapper t => exact fromStringInt_iff t holds

/-- A number of lots below `2 ^ 31`. -/
theorem fromString_lots : TypeTraits.fromString (.intWrapper .int64) (insertInt (-1000)) = some (-1000) :=
  (fromString_iff (.intWrapper .int64) (by decide)).mpr ⟨by decide, by decide⟩

/-- A number of lots from `2 ^ 31` on overflows. -/
theorem lots_overflow : ¬ ∀ (ty : IntegerType) (v : Int), ty.underlying.Holds v →
    TypeTraits.fromString ty (insertInt v) = some v := by
  intro all
  have wrong := all (.intWrapper .int64) 3000000000 (by decide)
  revert wrong
  decide +kernel

end Swirly
