import Mathlib
import Swirly.Fix.Parser

/-!
# One call of the parser

More bytes do not change what has been read of a header.  So a parser that waits for more bytes goes on as a new parser
would that is given all of them.
-/

namespace Swirly

namespace FixParser

variable {bs buf more : Bytes} {p : FixParser} {n v : Nat} {c : UInt8} {rest : Bytes} {fuel sum : Nat} {calls : List FixMessage}

theorem digits_append (read : digits n bs = (v, c :: rest)) (more : Bytes) :
    digits n (bs ++ more) = (v, c :: (rest ++ more)) := by
  induction bs generalizing n with
  | nil => cases read
  | cons first bs inductionHypothesis =>
    rw [digits] at read
    rw [List.cons_append, digits]
    split at read
    next digit =>
      rw [if_pos digit]
      exact inductionHypothesis read
    next other =>
      rw [if_neg other]
      cases read
      rfl

/-- What is left is a suffix. -/
theorem length_digits (n : Nat) (bs : Bytes) : (digits n bs).2.length ≤ bs.length := by
  induction bs generalizing n with
  | nil => exact Nat.le_refl _
  | cons first bs inductionHypothesis =>
    rw [digits]
    split
    next => exact (inductionHypothesis _).trans (Nat.le_succ _)
    next => exact Nat.le_refl _

/-- How a body length is read. -/
inductive Reads (buf : Bytes) : Except ProtocolException (Option FixParser) → Prop
  | short (small : buf.length ≤ bodyLenStart) : Reads buf (.ok none)
  | open_ {v : Nat} (large : bodyLenStart < buf.length) (read : digits 0 (buf.drop bodyLenStart) = (v, [])) :
    Reads buf (.ok none)
  | invalid {v : Nat} {c : UInt8} {rest : Bytes} (large : bodyLenStart < buf.length)
      (read : digits 0 (buf.drop bodyLenStart) = (v, c :: rest)) (other : c ≠ soh) : Reads buf (.error invalidBodyLength)
  | found {v : Nat} {rest : Bytes} (large : bodyLenStart < buf.length)
      (read : digits 0 (buf.drop bodyLenStart) = (v, soh :: rest)) :
    Reads buf (.ok (some { offset := buf.length - rest.length, bodyLen := v }))

theorem parseBodyLen_reads (buf : Bytes) : Reads buf (parseBodyLen buf) := by
  rw [parseBodyLen]
  split
  next small => exact .short small
  next large =>
    have large : bodyLenStart < buf.length := not_le.mp large
    cases read : digits 0 (buf.drop bodyLenStart) with
    | mk v rest =>
      cases rest with
      | nil => exact .open_ large read
      | cons c rest =>
        simp only
        split
        next other => exact .invalid large read other
        next same =>
          rw [not_not.mp same] at read
          exact .found large read

theorem parseBodyLen_of_digits (large : bodyLenStart < buf.length) (read : digits 0 (buf.drop bodyLenStart) = (v, c :: rest)) :
    parseBodyLen buf =
      if c ≠ soh then .error invalidBodyLength else .ok (some { offset := buf.length - rest.length, bodyLen := v }) := by
  rw [parseBodyLen, if_neg (not_le.mpr large), read]

theorem digits_drop_append (large : bodyLenStart < buf.length) (read : digits 0 (buf.drop bodyLenStart) = (v, c :: rest))
    (more : Bytes) : digits 0 ((buf ++ more).drop bodyLenStart) = (v, c :: (rest ++ more)) := by
  rw [List.drop_append_of_le_length large.le]
  exact digits_append read more

/-- A header that has been read stays as it is. -/
theorem parseBodyLen_append (found : parseBodyLen buf = .ok (some p)) (more : Bytes) :
    parseBodyLen (buf ++ more) = .ok (some p) := by
  have reads := parseBodyLen_reads buf
  rw [found] at reads
  cases reads with
  | found large read =>
    have longer : bodyLenStart < (buf ++ more).length := by
      rw [List.length_append]
      omega
    rw [parseBodyLen_of_digits longer (digits_drop_append large read more)]
    simp only [List.length_append, Nat.add_sub_add_right, ne_eq, not_true, if_false]

theorem parseBodyLen_append_error {e : ProtocolException} (invalid : parseBodyLen buf = .error e) (more : Bytes) :
    parseBodyLen (buf ++ more) = .error e := by
  have reads := parseBodyLen_reads buf
  rw [invalid] at reads
  cases reads with
  | invalid large read other =>
    have longer : bodyLenStart < (buf ++ more).length := by
      rw [List.length_append]
      omega
    rw [parseBodyLen_of_digits longer (digits_drop_append large read more), if_pos other]

/-- The body begins after the header and inside the buffer. -/
theorem offset_bounds (found : parseBodyLen buf = .ok (some p)) : bodyLenStart < p.offset ∧ p.offset ≤ buf.length := by
  have reads := parseBodyLen_reads buf
  rw [found] at reads
  cases reads with
  | @found v rest large read =>
    have shorter := length_digits 0 (buf.drop bodyLenStart)
    rw [read, List.length_drop, List.length_cons] at shorter
    simp only
    omega

/-- The rounds of the loop from the next header on. -/
def enter (fuel : Nat) (buf : Bytes) (sum : Nat) (calls : List FixMessage) : Option Parsed :=
  match parseBodyLen buf with
  | .error e => some { parser := make, calls, result := .threw e }
  | .ok none => some { parser := make, calls, result := .returned sum }
  | .ok (some next) => loop fuel next buf sum calls

theorem parse_make (fuel : Nat) (buf : Bytes) : parse fuel make buf = enter fuel buf 0 [] := rfl

/-- The message that is handed over. -/
def message (p : FixParser) (buf : Bytes) : FixMessage where
  ver := { major := charValue (buf.getD 6 0) - 48, minor := charValue (buf.getD 8 0) - 48 }
  body := { base := buf, offset := p.offset, size := p.bodyLen }

theorem loop_short (short : buf.length < p.len) :
    loop (fuel + 1) p buf sum calls = some { parser := p, calls, result := .returned sum } := by
  rw [loop, if_pos short]

/-- A message is handed over, and the next header follows. -/
theorem loop_message (whole : p.len ≤ buf.length) (large : 8 < buf.length) :
    loop (fuel + 1) p buf sum calls = enter fuel (buf.drop p.len) (sum + p.len) (calls ++ [p.message buf]) := by
  have major : buf[6]? = some (buf.getD 6 0) := by
    rw [List.getD_eq_getElem?_getD, List.getElem?_eq_getElem (by omega), Option.getD_some]
  have minor : buf[8]? = some (buf.getD 8 0) := by
    rw [List.getD_eq_getElem?_getD, List.getElem?_eq_getElem large, Option.getD_some]
  have skipped : advance buf p.len = buf.drop p.len := by rw [advance, min_eq_left whole]
  rw [loop, if_neg (not_lt.mpr whole), major, minor]
  simp only [skipped]
  rfl

/-- The parser has done all it can with the bytes. -/
inductive Waits : FixParser → Bytes → Prop
  | header {bs : Bytes} (none_ : parseBodyLen bs = .ok none) : Waits make bs
  | body {p : FixParser} {bs : Bytes} (found : parseBodyLen bs = .ok (some p)) (short : bs.length < p.len) : Waits p bs

/-- A parser that waits goes on as a new one would. -/
theorem Waits.resume (waits : Waits p bs) (fuel : Nat) (more : Bytes) : parse fuel p (bs ++ more) = parse fuel make (bs ++ more) := by
  cases waits with
  | header => rfl
  | body found =>
    have offset : p.offset ≠ 0 := by
      have bounds := (offset_bounds found).1
      omega
    rw [parse, if_neg offset, parse_make, enter, parseBodyLen_append found more]

theorem Waits.enter (waits : Waits p bs) (fuel sum : Nat) (calls : List FixMessage) :
    FixParser.enter (fuel + 1) bs sum calls = some { parser := p, calls, result := .returned sum } := by
  cases waits with
  | header none_ => rw [FixParser.enter, none_]
  | body found short =>
    rw [FixParser.enter, found]
    exact loop_short short

end FixParser

end Swirly
