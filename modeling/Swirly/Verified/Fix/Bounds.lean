import Swirly.Lib.Run
import Swirly.Verified.Fix.Parse

/-!
# The bounds of the buffer

The length in a header is any number of digits, kept in 64 bits, and is added to the sizes of the header and of the trailer
before it is compared with the size of the buffer.  The parser stays in its buffer exactly as long as it takes no message for
which that sum wraps.
-/

namespace Swirly

namespace FixParser

variable {p q : FixParser} {buf chunk : Bytes} {fuel sum : Nat} {calls : List FixMessage} {parsed : Parsed}

/-- The body that is handed over, and the trailer after it, are in the buffer. -/
structure Inside (buf : Bytes) (call : FixMessage) : Prop where
  suffix : call.body.base <:+ buf
  fits : call.body.offset + call.body.size + checkSumLen ≤ call.body.base.length

/-- The parser reads nothing beyond the buffer, and has done with no more bytes than there are. -/
def Result.Within (buf : Bytes) : Result → Prop
  | .returned sum => sum ≤ buf.length
  | .threw _ => True
  | .overread => False

/-- A call of `parse` ends and stays in its buffer. -/
def Contained (p : FixParser) (buf : Bytes) : Prop :=
  ∃ fuel parsed, parse fuel p buf = some parsed ∧ (∀ call ∈ parsed.calls, Inside buf call) ∧ parsed.result.Within buf

/-- For every message that can be taken, one after the other, the size of its header, the length that this declares and the
size of the trailer have a sum of 64 bits. -/
inductive Bounded : Bytes → Prop
  | more {buf : Bytes} (none_ : parseBodyLen buf = .ok none) : Bounded buf
  | invalid {buf : Bytes} {e : ProtocolException} (error : parseBodyLen buf = .error e) : Bounded buf
  | short {buf : Bytes} {p : FixParser} (found : parseBodyLen buf = .ok (some p)) (short : buf.length < p.len) : Bounded buf
  | message {buf : Bytes} {p : FixParser} (found : parseBodyLen buf = .ok (some p)) (whole : p.len ≤ buf.length)
      (fits : p.offset + p.bodyLen + checkSumLen < 2 ^ 64) (rest : Bounded (buf.drop p.len)) : Bounded buf

theorem len_of_fits (fits : p.offset + p.bodyLen + checkSumLen < 2 ^ 64) : p.len = p.offset + p.bodyLen + checkSumLen := by
  rw [len, sizeT, sizeT, Nat.mod_add_mod]
  exact Nat.mod_eq_of_lt fits

theorem Inside.mono {buf' : Bytes} {call : FixMessage} (inside : Inside buf' call) (suffix : buf' <:+ buf) : Inside buf call :=
  ⟨inside.suffix.trans suffix, inside.fits⟩

/-- What the rounds of the loop leave, from `sum` on. -/
structure Rounds (buf : Bytes) (sum : Nat) (calls : List FixMessage) (parsed : Parsed) : Prop where
  inside : ∃ news, parsed.calls = calls ++ news ∧ ∀ call ∈ news, Inside buf call
  returned : ∀ total, parsed.result = .returned total →
    sum ≤ total ∧ total ≤ sum + buf.length ∧ Waits parsed.parser (buf.drop (total - sum))
  within : parsed.result ≠ .overread

/-- While the sums do not wrap, the loop ends after a round for each byte at the latest. -/
theorem Bounded.rounds (bounded : Bounded buf) (enough : buf.length < fuel) (sum : Nat) (calls : List FixMessage) :
    ∃ parsed, enter fuel buf sum calls = some parsed ∧ Rounds buf sum calls parsed := by
  induction bounded generalizing fuel sum calls with
  | @more buf none_ =>
    refine ⟨{ parser := .make, calls, result := .returned sum }, by rw [enter, none_], ⟨[], by simp, by simp⟩, ?_, by simp⟩
    rintro total ⟨⟩
    exact ⟨Nat.le_refl _, Nat.le_add_right _ _, by simpa using Waits.header none_⟩
  | @invalid buf e error =>
    exact ⟨{ parser := .make, calls, result := .threw e }, by rw [enter, error], ⟨[], by simp, by simp⟩, by simp, by simp⟩
  | @short buf p found short =>
    obtain ⟨rounds, rfl⟩ : ∃ rounds, fuel = rounds + 1 := ⟨fuel - 1, by omega⟩
    refine ⟨{ parser := p, calls, result := .returned sum }, ?_, ⟨[], by simp, by simp⟩, ?_, by simp⟩
    · rw [enter, found]
      exact loop_short short
    · rintro total ⟨⟩
      exact ⟨Nat.le_refl _, Nat.le_add_right _ _, by simpa using Waits.body found short⟩
  | @message buf p found whole fits rest inductionHypothesis =>
    obtain ⟨rounds, rfl⟩ : ∃ rounds, fuel = rounds + 1 := ⟨fuel - 1, by omega⟩
    obtain ⟨start, inside⟩ := offset_bounds found
    have large : 8 < buf.length := lt_of_lt_of_le (lt_trans (by decide) start) inside
    have len := len_of_fits fits
    have left : (buf.drop p.len).length = buf.length - p.len := List.length_drop
    have positive : 0 < p.len := by omega
    obtain ⟨parsed, entered, after⟩ := inductionHypothesis (show (buf.drop p.len).length < rounds by omega) (sum + p.len)
      (calls ++ [p.message buf])
    refine ⟨parsed, ?_, ?_, ?_, after.within⟩
    · rw [enter, found]
      exact (loop_message whole large).trans entered
    · obtain ⟨news, split, inside⟩ := after.inside
      refine ⟨p.message buf :: news, by rw [split]; simp, List.forall_mem_cons.mpr ⟨⟨List.suffix_refl _, ?_⟩, ?_⟩⟩
      · show p.offset + p.bodyLen + checkSumLen ≤ buf.length
        omega
      · intro call member
        exact (inside call member).mono (List.drop_suffix _ _)
    · intro total returned
      obtain ⟨least, most, waits⟩ := after.returned total returned
      refine ⟨by omega, by omega, ?_⟩
      rw [List.drop_drop] at waits
      rwa [show total - sum = p.len + (total - (sum + p.len)) by omega]

/-- The calls that have been made stay. -/
theorem calls_kept (entered : enter fuel buf sum calls = some parsed) : calls <+: parsed.calls := by
  induction fuel generalizing buf sum calls with
  | zero =>
    rw [enter] at entered
    split at entered
    next =>
      cases entered
      exact List.prefix_refl _
    next =>
      cases entered
      exact List.prefix_refl _
    next => cases entered
  | succ rounds inductionHypothesis =>
    rw [enter] at entered
    split at entered
    next =>
      cases entered
      exact List.prefix_refl _
    next =>
      cases entered
      exact List.prefix_refl _
    next p found =>
      by_cases short : buf.length < p.len
      · rw [loop_short short] at entered
        cases entered
        exact List.prefix_refl _
      · obtain ⟨start, inside⟩ := offset_bounds found
        have large : 8 < buf.length := lt_of_lt_of_le (lt_trans (by decide) start) inside
        rw [loop_message (not_lt.mp short) large] at entered
        exact (List.prefix_append _ _).trans (inductionHypothesis entered)

/-- A loop that ends and hands over nothing beyond the buffer has met no sum that wraps. -/
theorem bounded_of_inside (entered : enter fuel buf sum calls = some parsed) (sized : buf.length < 2 ^ 64)
    (inside : ∀ call ∈ parsed.calls, call.body.offset + call.body.size + checkSumLen ≤ call.body.base.length) :
    Bounded buf := by
  induction fuel generalizing buf sum calls with
  | zero =>
    rw [enter] at entered
    split at entered
    next error => exact .invalid error
    next none_ => exact .more none_
    next => cases entered
  | succ rounds inductionHypothesis =>
    rw [enter] at entered
    split at entered
    next error => exact .invalid error
    next none_ => exact .more none_
    next p found =>
      by_cases short : buf.length < p.len
      · exact .short found short
      · have whole := not_lt.mp short
        obtain ⟨start, reaches⟩ := offset_bounds found
        have large : 8 < buf.length := lt_of_lt_of_le (lt_trans (by decide) start) reaches
        rw [loop_message whole large] at entered
        have handed : p.message buf ∈ parsed.calls := by
          apply (calls_kept entered).subset
          simp
        have fits : p.offset + p.bodyLen + checkSumLen ≤ buf.length := inside _ handed
        apply Bounded.message found whole (by omega)
        exact inductionHypothesis entered (by rw [List.length_drop]; omega)

theorem Waits.feed_contained_iff {pending : Bytes} (waits : Waits p pending) (sized : (pending ++ chunk).length < 2 ^ 64) :
    Contained p (pending ++ chunk) ↔ Bounded (pending ++ chunk) := by
  constructor
  · rintro ⟨fuel, parsed, ends, inside, -⟩
    rw [waits.resume, parse_make] at ends
    exact bounded_of_inside ends sized fun call member => (inside call member).fits
  · intro bounded
    obtain ⟨parsed, entered, rounds⟩ := bounded.rounds (Nat.lt_succ_self _) 0 []
    obtain ⟨news, split, inside⟩ := rounds.inside
    refine ⟨_, parsed, by rw [waits.resume, parse_make, entered], ?_, ?_⟩
    · intro call member
      rw [split] at member
      exact inside call member
    · cases result : parsed.result with
      | returned total =>
        obtain ⟨-, most, -⟩ := rounds.returned total result
        show total ≤ _
        omega
      | threw => trivial
      | overread => exact absurd result rounds.within

end FixParser

/-- The bytes that the parser has not done with, and its state. -/
structure FixStreamReader where
  parser : FixParser
  pending : Bytes

namespace FixStreamReader

open FixParser (Bounded Contained Waits)

def make : FixStreamReader := { parser := .make, pending := [] }

variable (r : FixStreamReader)

/-- More bytes come and the parser is called.  An exception ends the stream. -/
def step (chunk : Bytes) : Option FixStreamReader :=
  match r.parser.parse ((r.pending ++ chunk).length + 1) (r.pending ++ chunk) with
  | some { parser, calls := _, result := .returned sum } => some { parser, pending := (r.pending ++ chunk).drop sum }
  | _ => none

variable {r} {chunks : List Bytes} {chunk : Bytes}

theorem step_waits {t : FixStreamReader} (waits : Waits r.parser r.pending) (bounded : Bounded (r.pending ++ chunk))
    (stepped : r.step chunk = some t) : Waits t.parser t.pending := by
  obtain ⟨parsed, entered, rounds⟩ := bounded.rounds (Nat.lt_succ_self _) 0 []
  rw [step, waits.resume, FixParser.parse_make, entered] at stepped
  split at stepped
  next parser calls sum same =>
    obtain rfl := Option.some.inj same
    cases stepped
    have returned := (rounds.returned sum rfl).2.2
    rwa [Nat.sub_zero] at returned
  next => cases stepped

/-- In a stream that has kept to the bound so far, the next call of the parser stays in its buffer exactly if the bytes keep
to the bound. -/
theorem contained_iff (run : Run step (fun r chunk => Bounded (r.pending ++ chunk)) make chunks r)
    (sized : (r.pending ++ chunk).length < 2 ^ 64) :
    Contained r.parser (r.pending ++ chunk) ↔ Bounded (r.pending ++ chunk) := by
  have waits : Waits r.parser r.pending := by
    apply run.invariant (I := fun r => Waits r.parser r.pending)
    · intro t chunk u waits bounded stepped
      exact step_waits waits bounded stepped
    · exact .header rfl
  exact waits.feed_contained_iff sized

/-- A whole message and the header of one that is not complete. -/
theorem contained_iff_partial :
    ∃ r, Run step (fun r chunk => Bounded (r.pending ++ chunk)) make [bytes "8=FIX.4.4" ++ [soh] ++ bytes "9="] r ∧
      (Contained r.parser (r.pending ++ (bytes "0" ++ [soh] ++ bytes "10=000" ++ [soh])) ↔
        Bounded (r.pending ++ (bytes "0" ++ [soh] ++ bytes "10=000" ++ [soh]))) := by
  obtain ⟨r, stepped⟩ : ∃ r, make.step (bytes "8=FIX.4.4" ++ [soh] ++ bytes "9=") = some r := ⟨_, rfl⟩
  have run : Run step (fun r chunk => Bounded (r.pending ++ chunk)) make [bytes "8=FIX.4.4" ++ [soh] ++ bytes "9="] r :=
    .single (.more rfl) stepped
  refine ⟨r, run, contained_iff run ?_⟩
  cases stepped
  decide

/-- A header with the length `2 ^ 64 - 40`, which with the header and the trailer makes no bytes at all. -/
def stuck : Bytes := bytes "8=FIX.4.4" ++ [soh] ++ bytes "9=18446744073709551576" ++ [soh]

/-- The parser hands over a body of that length again and again. -/
theorem contained_stuck : ¬ ∀ chunk : Bytes, chunk.length < 2 ^ 64 → Contained .make ([] ++ chunk) := by
  intro contained
  obtain ⟨fuel, parsed, ends, -⟩ := contained stuck (by decide)
  have found : FixParser.parseBodyLen stuck = .ok (some { offset := 33, bodyLen := 18446744073709551576 }) := by decide
  have round (fuel sum : Nat) (calls : List FixMessage) : FixParser.enter fuel stuck sum calls = none := by
    induction fuel generalizing sum calls with
    | zero =>
      rw [FixParser.enter, found]
      rfl
    | succ rounds inductionHypothesis =>
      rw [FixParser.enter, found]
      exact (FixParser.loop_message (by decide) (by decide)).trans (inductionHypothesis _ _)
  rw [List.nil_append, FixParser.parse_make, round] at ends
  cases ends

end FixStreamReader

end Swirly
