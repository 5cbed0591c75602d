import Swirly.Verified.Fix.Parse

/-!
# Well-formed messages

A message of the transport, `8=FIX.x.y^9=len^body10=ddd^`, and what a parser makes of its bytes, all of them or the first of
them.
-/

namespace Swirly

/-- A digit can be a literal. -/
instance neZeroTen : NeZero 10 := ⟨by decide⟩

/-- The character of a digit. -/
def digitChar (d : Fin 10) : UInt8 := UInt8.ofNat (48 + d)

/-- The number that a list of digits stands for, on top of `n`. -/
def ofDigits (n : Nat) (ds : List (Fin 10)) : Nat := ds.foldl (fun n (d : Fin 10) => n * 10 + d.val) n

/-- A message with any number of digits for its length, whose size is a size. -/
structure Frame where
  major : Fin 10
  minor : Fin 10
  len : List (Fin 10)
  body : Bytes
  check : Fin 10 × Fin 10 × Fin 10
  counted : ofDigits 0 len = body.length
  sized : FixParser.bodyLenStart + len.length + 1 + body.length + FixParser.checkSumLen < 2 ^ 64

/-- The version field, up to the `x`, between `x` and `y`, and from there to the length. -/
def beginString (major minor : Fin 10) : Bytes :=
  bytes "8=FIX." ++ digitChar major :: bytes "." ++ [digitChar minor, soh]

def lengthField (len : List (Fin 10)) : Bytes := bytes "9=" ++ len.map digitChar ++ [soh]

def trailer (check : Fin 10 × Fin 10 × Fin 10) : Bytes :=
  bytes "10=" ++ [digitChar check.1, digitChar check.2.1, digitChar check.2.2, soh]

namespace Frame

variable (f : Frame)

def encoded : Bytes := beginString f.major f.minor ++ lengthField f.len ++ f.body ++ trailer f.check

/-- What a receiver is told. -/
def ver : FixVersion := { major := f.major, minor := f.minor }

end Frame

/-- What a call of `on_message` tells. -/
def FixMessage.told (m : FixMessage) : FixVersion × Bytes := (m.ver, m.body.text)

def Frame.told (f : Frame) : FixVersion × Bytes := (f.ver, f.body)

theorem toNat_digitChar (d : Fin 10) : (digitChar d).toNat = 48 + d := by
  revert d
  decide

theorem isDigit_digitChar (d : Fin 10) : isDigit (digitChar d) = true := by
  revert d
  decide

theorem charValue_digitChar (d : Fin 10) : charValue (digitChar d) - 48 = d := by
  revert d
  decide

theorem ofDigits_ge (n : Nat) (ds : List (Fin 10)) : n ≤ ofDigits n ds := by
  induction ds generalizing n with
  | nil => exact Nat.le_refl _
  | cons d ds inductionHypothesis => exact le_trans (by omega) (inductionHypothesis (n * 10 + d))

namespace FixParser

/-- The digits of a number that is a size. -/
theorem digits_numeral {n : Nat} {ds : List (Fin 10)} (fits : ofDigits n ds < 2 ^ 64) {c : UInt8} (other : isDigit c = false)
    (rest : Bytes) : digits n (ds.map digitChar ++ c :: rest) = (ofDigits n ds, c :: rest) := by
  induction ds generalizing n with
  | nil => rw [List.map_nil, List.nil_append, digits, if_neg (by simp [other]), ofDigits, List.foldl_nil]
  | cons d ds inductionHypothesis =>
    have fits : ofDigits (n * 10 + d) ds < 2 ^ 64 := fits
    have bound := ofDigits_ge (n * 10 + d) ds
    have ten : sizeT (n * 10) = n * 10 := Nat.mod_eq_of_lt (by omega)
    have next : sizeT (sizeT (n * 10) + ((digitChar d).toNat - 48)) = n * 10 + d := by
      rw [ten, toNat_digitChar, Nat.add_sub_cancel_left]
      exact Nat.mod_eq_of_lt (by omega)
    rw [List.map_cons, List.cons_append, digits, if_pos (isDigit_digitChar d), next]
    exact inductionHypothesis fits

end FixParser

namespace Frame

variable {f : Frame} {more : Bytes}

/-- What the parser reads of the header. -/
def parser (f : Frame) : FixParser := { offset := FixParser.bodyLenStart + f.len.length + 1, bodyLen := f.body.length }

theorem length_beginString (major minor : Fin 10) : (beginString major minor).length = 10 := rfl

theorem length_trailer (check : Fin 10 × Fin 10 × Fin 10) : (trailer check).length = FixParser.checkSumLen := rfl

theorem length_lengthField (len : List (Fin 10)) : (lengthField len).length = len.length + 3 := by
  have name : (bytes "9=").length = 2 := rfl
  simp only [lengthField, List.length_append, List.length_map, name, List.length_singleton]
  omega

theorem length_encoded (f : Frame) :
    f.encoded.length = FixParser.bodyLenStart + f.len.length + 1 + f.body.length + FixParser.checkSumLen := by
  simp only [encoded, List.length_append, length_beginString, length_trailer, length_lengthField, FixParser.bodyLenStart]
  omega

theorem parser_len (f : Frame) : f.parser.len = f.encoded.length := by
  have sized := f.sized
  rw [length_encoded, FixParser.len, parser]
  simp only [sizeT, Nat.mod_add_mod]
  rw [Nat.mod_eq_of_lt sized]

theorem drop_header (f : Frame) (more : Bytes) :
    (f.encoded ++ more).drop FixParser.bodyLenStart =
      f.len.map digitChar ++ soh :: (f.body ++ trailer f.check ++ more) := by
  have start : (beginString f.major f.minor ++ bytes "9=").length = FixParser.bodyLenStart := rfl
  have split : f.encoded ++ more = (beginString f.major f.minor ++ bytes "9=") ++
      (f.len.map digitChar ++ soh :: (f.body ++ trailer f.check ++ more)) := by
    simp [encoded, lengthField]
  rw [split, ← start, List.drop_left]

theorem parseBodyLen_encoded (f : Frame) (more : Bytes) : FixParser.parseBodyLen (f.encoded ++ more) = .ok (some f.parser) := by
  have sized := f.sized
  have large : FixParser.bodyLenStart < (f.encoded ++ more).length := by
    rw [List.length_append, length_encoded]
    omega
  have read : FixParser.digits 0 ((f.encoded ++ more).drop FixParser.bodyLenStart) =
      (f.body.length, soh :: (f.body ++ trailer f.check ++ more)) := by
    rw [drop_header, FixParser.digits_numeral (by rw [f.counted]; omega) rfl, f.counted]
  rw [FixParser.parseBodyLen_of_digits large read, if_neg (not_not.mpr rfl), parser]
  simp only [List.length_append, length_encoded, length_trailer]
  congr 3
  omega

/-- The message that is handed over is the one that was sent. -/
theorem told_message (f : Frame) (more : Bytes) : (f.parser.message (f.encoded ++ more)).told = f.told := by
  have body : (f.encoded ++ more).drop f.parser.offset = f.body ++ (trailer f.check ++ more) := by
    have length : (f.len.map digitChar ++ [soh]).length = f.len.length + 1 := by simp
    have header := f.drop_header more
    rw [← List.singleton_append, ← List.append_assoc] at header
    have dropped := congrArg (List.drop (f.len.length + 1)) header
    rw [List.drop_drop, ← length, List.drop_left, List.append_assoc, length, ← Nat.add_assoc] at dropped
    exact dropped
  have major : (f.encoded ++ more).getD 6 0 = digitChar f.major := rfl
  have minor : (f.encoded ++ more).getD 8 0 = digitChar f.minor := rfl
  have text : (f.parser.message (f.encoded ++ more)).body.text = f.body := by
    simp only [FixParser.message, StringView.text, body]
    exact List.take_left
  rw [FixMessage.told, text, told, ver, FixParser.message, major, minor, charValue_digitChar, charValue_digitChar]

/-- A parser waits at the first bytes of a message. -/
theorem waits {tail : Bytes} (split : tail ++ more = f.encoded) (unfinished : more ≠ []) :
    ∃ p, FixParser.Waits p tail := by
  have found : FixParser.parseBodyLen (tail ++ more) = .ok (some f.parser) := by
    have found := f.parseBodyLen_encoded []
    rwa [List.append_nil, ← split] at found
  cases read : FixParser.parseBodyLen tail with
  | error e =>
    rw [FixParser.parseBodyLen_append_error read more] at found
    cases found
  | ok result =>
    cases result with
    | none => exact ⟨_, .header read⟩
    | some p =>
      rw [FixParser.parseBodyLen_append read more] at found
      cases found
      refine ⟨_, .body read ?_⟩
      rw [f.parser_len, ← split, List.length_append]
      have some_ := List.length_pos_iff.mpr unfinished
      omega

end Frame

end Swirly
