import Swirly.Verified.Body.Meaning

/-!
# The accessors of a body

A body whose strings and numbers fit is read in any pieces, and the accessors are what is written last for each key; those
that are symbols, up to the first NUL.
-/

namespace Swirly

open RestBody

namespace Member

/-- The string is no longer than its field, and the number is one of its field's type. -/
def Within (m : Member) : Prop :=
  match m.written with
  | .null | .word _ => True
  | .str letters => ∀ max, m.field.value = .str max → letters.length ≤ max
  | .num lit => m.field.Holds lit.value

/-- A state is written without a minus sign. -/
def Unsigned (m : Member) : Prop :=
  match m.written with
  | .null | .word _ | .str _ => True
  | .num lit => m.field = .state → lit.sign ≠ .minus

theorem not_refused {m : Member} (within : m.Within) (unsigned : m.Unsigned) : ¬ m.Refused := by
  intro refused
  rw [Refused] at refused
  rw [Within] at within
  rw [Unsigned] at unsigned
  cases written : m.written with
  | null =>
    rw [written] at refused
    cases refused
  | word typed =>
    rw [written] at refused
    cases refused
  | str letters =>
    simp only [written] at refused within
    obtain ⟨max, value, long⟩ := refused
    exact absurd (within max value) (not_le.mpr long)
  | num lit =>
    simp only [written] at refused unsigned
    exact unsigned refused.1 refused.2

end Member

namespace Document

theorem mem_of_last {d : Document} {f : Field} {w : JsonValue} (last : d.last f = w) (present : w ≠ .null) :
    ∃ m ∈ d.all, m.field = f ∧ m.written = w := by
  rw [Document.last] at last
  cases found : (d.all.filter (·.field = f)).getLast? with
  | none =>
    rw [found] at last
    exact absurd last.symm present
  | some m =>
    rw [found] at last
    have member := List.mem_of_getLast? found
    rw [List.mem_filter, decide_eq_true_eq] at member
    exact ⟨m, member.1, member.2, last⟩

/-- The type of a field wraps no number that is written last for it. -/
theorem wrap_last {d : Document} (within : ∀ m ∈ d.all, m.Within) (f : Field) :
    f.wrap (d.last f).number = (d.last f).number := by
  rw [Field.wrap_eq_iff]
  have zero : f.Holds 0 := by cases f <;> decide
  cases last : d.last f with
  | null | str | word => exact zero
  | num lit =>
    obtain ⟨m, member, rfl, written⟩ := mem_of_last last (by simp)
    have fits := within m member
    rw [Member.Within, written] at fits
    exact fits

/-- The string that is written last for a field fits into it. -/
theorem length_last {d : Document} (within : ∀ m ∈ d.all, m.Within) {f : Field} {max : Nat} (value : f.value = .str max) :
    (d.last f).string.length ≤ max := by
  cases last : d.last f with
  | null | num | word => exact Nat.zero_le _
  | str letters =>
    obtain ⟨m, member, rfl, written⟩ := mem_of_last last (by simp)
    have fits := within m member
    rw [Member.Within, written] at fits
    simpa [JsonValue.string] using fits max value

/-- The text of a symbol ends where that of the string does. -/
theorem symbol_last {d : Document} (within : ∀ m ∈ d.all, m.Within) {f : Field} (value : f.value = .str maxSymbol) :
    toStringView (Symbol.assign (d.last f).string).buf = toStringView (d.last f).string :=
  toStringView_pstrcpy (length_last within value)

theorem accessors_of_last (d : Document) (within : ∀ m ∈ d.all, m.Within) (unsigned : ∀ m ∈ d.all, m.Unsigned)
    {chunks : List Bytes} (split : chunks.flatten = d.text) :
    ∃ b, reset.parses chunks = .ok
        ((List.range chunks.length).map fun i => decide (d.front.length < (chunks.take (i + 1)).flatten.length), b) ∧
      (∀ f, f ∈ b.fields ↔ d.last f ≠ .null) ∧
      toStringView b.getSymbol.buf = toStringView (d.last .symbol).string ∧
      toStringView b.getAccnt.buf = toStringView (d.last .accnt).string ∧
      toStringView b.getInstr.buf = toStringView (d.last .instr).string ∧
      b.settlDate = (d.last .settlDate).number ∧ b.ref = (d.last .ref).string ∧ b.state = (d.last .state).number ∧
      b.side = (d.last .side).side ∧ b.lots = (d.last .lots).number ∧ b.ticks = (d.last .ticks).number ∧
      b.minLots = (d.last .minLots).number ∧ b.liqInd = (d.last .liqInd).liqInd ∧
      toStringView b.getCpty.buf = toStringView (d.last .cpty).string := by
  have held : ∀ m ∈ d.all, ¬ m.Refused := fun m member => Member.not_refused (within m member) (unsigned m member)
  obtain ⟨b, parsed, means⟩ := d.parses_held held split
  have texts : ∀ f max, f.value = .str max → b.text f = (d.last f).string := means.texts
  have numbers : ∀ f, f.value = .num → b.number f = (d.last f).number := by
    intro f value
    rw [means.numbers f value, wrap_last within]
  have symbols : ∀ f, f.value = .str maxSymbol → toStringView (Symbol.assign (b.text f)).buf = toStringView (d.last f).string := by
    intro f value
    rw [texts f _ value, symbol_last within value]
  exact ⟨b, parsed, means.fields, symbols .symbol rfl, symbols .accnt rfl, symbols .instr rfl, numbers .settlDate rfl,
    texts .ref _ rfl, numbers .state rfl, means.side, numbers .lots rfl, numbers .ticks rfl, numbers .minLots rfl, means.liqInd,
    symbols .cpty rfl⟩

/-- `{"symbol":"a\"b","LOTS":-7,"symbol":null,"symbol":"c"}`. -/
def repeated : Document :=
  let string (letters : List Letter) : Member := ⟨.symbol, bytes "symbol", by decide +kernel, .str letters, ⟨_, rfl⟩, .nothing, .nothing, .nothing, .nothing⟩
  let quoted := string [.plain 97 (by decide), .escaped quote, .plain 98 (by decide)]
  let number : Literal := ⟨.minus, bytes "7", by decide +kernel, by decide +kernel⟩
  let lots : Member := ⟨.lots, bytes "LOTS", by decide +kernel, .num number, rfl, .nothing, .nothing, .nothing, .nothing⟩
  let null : Member := ⟨.symbol, bytes "symbol", by decide +kernel, .null, rfl, .nothing, .nothing, .nothing, .nothing⟩
  ⟨.nothing, .members quoted [lots, null, string [.plain 99 (by decide)]], .nothing⟩

theorem accessors_repeated :
    ∃ flags b, reset.parses (repeated.text.map fun c => [c]) = .ok (flags, b) ∧ toStringView b.getSymbol.buf = bytes "c" ∧
      b.lots = -7 := by
  have within : ∀ m ∈ repeated.all, m.Within := by
    intro m member
    simp only [all, repeated, Object.all, List.mem_cons, List.not_mem_nil, or_false] at member
    obtain rfl | rfl | rfl | rfl := member
    · intro max value
      cases value
      decide
    · show Field.lots.Holds _
      decide
    · trivial
    · intro max value
      cases value
      decide
  have unsigned : ∀ m ∈ repeated.all, m.Unsigned := by
    intro m member
    simp only [all, repeated, Object.all, List.mem_cons, List.not_mem_nil, or_false] at member
    obtain rfl | rfl | rfl | rfl := member
    · trivial
    · intro isState
      cases isState
    · trivial
    · trivial
  have split : (repeated.text.map fun c => [c]).flatten = repeated.text := by decide +kernel
  obtain ⟨b, parsed, -, symbol, -, -, -, -, -, -, lots, -⟩ := accessors_of_last repeated within unsigned split
  exact ⟨_, b, parsed, symbol, lots⟩

/-- `{"state":-0}`. -/
def minusZero : Document :=
  let zero : Literal := ⟨.minus, bytes "0", by decide +kernel, by decide +kernel⟩
  ⟨.nothing, .members ⟨.state, bytes "state", by decide +kernel, .num zero, rfl, .nothing, .nothing, .nothing, .nothing⟩ [], .nothing⟩

/-- An account of the bytes `A`, NUL and `B`. -/
def nulAccnt : Document :=
  let letters : List Letter := [.plain 65 (by decide), .plain 0 (by decide), .plain 66 (by decide)]
  ⟨.nothing, .members ⟨.accnt, bytes "accnt", by decide +kernel, .str letters, ⟨_, rfl⟩, .nothing, .nothing, .nothing, .nothing⟩ [],
    .nothing⟩

/-- The sign of a state is looked at, and not its number; and an account ends at a NUL. -/
theorem minusZero_refused :
    ((∀ m ∈ minusZero.all, m.Within) ∧ reset.parses [minusZero.text] = .error ⟨.badRequest, "negative state field"⟩) ∧
      (∀ m ∈ nulAccnt.all, m.Within ∧ m.Unsigned) ∧ (nulAccnt.last .accnt).string = [65, 0, 66] ∧
      ∃ flags b, reset.parses [nulAccnt.text] = .ok (flags, b) ∧ toStringView b.getAccnt.buf = [65] := by
  have within : ∀ m ∈ nulAccnt.all, m.Within ∧ m.Unsigned := by
    intro m member
    simp only [all, nulAccnt, Object.all, List.mem_singleton] at member
    subst member
    refine ⟨?_, trivial⟩
    intro max value
    cases value
    decide
  refine ⟨⟨?_, by decide +kernel⟩, within, by decide +kernel, ?_⟩
  · intro m member
    simp only [all, minusZero, Object.all, List.mem_singleton] at member
    subst member
    show Field.state.Holds _
    decide
  · cases parsed : reset.parses [nulAccnt.text] with
    | error e =>
      have reads : (reset.parses [nulAccnt.text]).toOption.isSome := by decide +kernel
      rw [parsed] at reads
      cases reads
    | ok result =>
      have cut : (reset.parses [nulAccnt.text]).toOption.map (fun r => toStringView r.2.getAccnt.buf) = some [65] := by
        decide +kernel
      rw [parsed] at cut
      exact ⟨result.1, result.2, rfl, Option.some.inj cut⟩

end Document

end Swirly
