import Mathlib

/-! # Byte strings

Character data is a list of bytes.  Bytes compare unsigned, as `memcmp` does, and lists of bytes
compare lexicographically. -/

abbrev Bytes := List UInt8

instance UInt8.linearOrder : LinearOrder UInt8 where
  le_refl := UInt8.le_refl
  le_trans _ _ _ := UInt8.le_trans
  le_antisymm _ _ := UInt8.le_antisymm
  le_total := UInt8.le_total
  lt_iff_le_not_ge a b := by
    rw [UInt8.not_le, iff_and_self]
    exact UInt8.le_of_lt
  min a b := if a ≤ b then a else b
  max a b := if a ≤ b then b else a
  toDecidableLE := inferInstance
  toDecidableEq := inferInstance

instance UInt8.lawful : @LawfulBEq UInt8 instBEqOfDecidableEq := inferInstance

instance Bytes.lawful : LawfulBEq Bytes := inferInstance

/-- The bytes of an ASCII literal. -/
def bytes (s : String) : Bytes := s.toList.map fun c => UInt8.ofNat c.toNat

/-- The ASCII text of a byte string. -/
def text (s : Bytes) : String := String.ofList (s.map fun c => Char.ofNat c.toNat)

/-- Copy at most `n` bytes, padded with NUL to exactly `n`. -/
def pstrcpy (n : Nat) (s : Bytes) : Bytes := s.take n ++ List.replicate (n - s.length) 0

@[simp] theorem length_pstrcpy (n : Nat) (s : Bytes) : (pstrcpy n s).length = n := by
  simp only [pstrcpy, List.length_append, List.length_take, List.length_replicate]
  omega

/-- `to_string_view` of a character array: the bytes before the first NUL. -/
def toStringView (s : Bytes) : Bytes := s.takeWhile (· ≠ 0)

theorem toStringView_padded (s : Bytes) (n : Nat) : toStringView (s ++ List.replicate n 0) = toStringView s := by
  induction s with
  | nil =>
    cases n with
    | zero => rfl
    | succ n => rfl
  | cons c s inductionHypothesis =>
    simp only [toStringView, List.cons_append, List.takeWhile_cons] at inductionHypothesis ⊢
    rw [inductionHypothesis]

@[simp] theorem toStringView_idem (s : Bytes) : toStringView (toStringView s) = toStringView s :=
  List.takeWhile_idem

theorem length_toStringView_le (s : Bytes) : (toStringView s).length ≤ s.length :=
  (List.takeWhile_sublist _).length_le

/-- What fits into an array is read back from it. -/
theorem toStringView_pstrcpy {n : Nat} {s : Bytes} (fits : s.length ≤ n) : toStringView (pstrcpy n s) = toStringView s := by
  rw [pstrcpy, List.take_of_length_le fits, toStringView_padded]
