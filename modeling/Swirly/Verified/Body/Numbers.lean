import Swirly.Verified.Body.Accessors

/-!
# Numbers that a body gets wrong

Digits are collected in a word of 64 bits that wraps, and the word is narrowed to the field's type.  A literal that the
type cannot hold is accepted, and another number is stored in its place.
-/

namespace Swirly

open RestBody

namespace Document

theorem last_of_place {d : Document} {before after : List Member} {m : Member} (place : d.all = before ++ m :: after)
    (last : ∀ o ∈ after, o.field ≠ m.field) : d.last m.field = m.written := by
  have others : after.filter (·.field = m.field) = [] := by
    rw [List.filter_eq_nil_iff]
    intro o member
    simpa using last o member
  simp [Document.last, place, others]

/-- The number is stored as it is written, and refused where the type cannot hold it. -/
def Exact (d : Document) (f : Field) (lit : Literal) : Prop :=
  (∀ chunks : List Bytes, chunks.flatten = d.text → ∀ flags b, reset.parses chunks = .ok (flags, b) →
    b.number f = lit.value) ∧
  (¬ f.Holds lit.value → ∀ chunks : List Bytes, chunks.flatten = d.text →
    ∃ msg, reset.parses chunks = .error ⟨.badRequest, msg⟩)

/-- The last number of a field is exact where its type can hold it, or where the body is refused for another reason. -/
theorem exact_iff (d : Document) {before after : List Member} {m : Member} {lit : Literal}
    (place : d.all = before ++ m :: after) (number : m.written = .num lit) (last : ∀ o ∈ after, o.field ≠ m.field) :
    d.Exact m.field lit ↔ m.field.Holds lit.value ∨ ∃ o ∈ d.all, o.Refused := by
  have value : m.field.value = .num := by
    have suits := m.suits
    rw [number] at suits
    exact suits
  have written : (d.last m.field).number = lit.value := by rw [last_of_place place last, number]; rfl
  have stored : (∀ o ∈ d.all, ¬ o.Refused) → ∀ chunks : List Bytes, chunks.flatten = d.text →
      ∃ flags b, reset.parses chunks = .ok (flags, b) ∧ b.number m.field = m.field.wrap lit.value := by
    intro held chunks split
    obtain ⟨b, parsed, means⟩ := d.parses_held held split
    exact ⟨_, b, parsed, by rw [means.numbers m.field value, written]⟩
  constructor
  · rintro ⟨exact, rejected⟩
    by_cases refused : ∃ o ∈ d.all, o.Refused
    · exact .inr refused
    · left
      have held : ∀ o ∈ d.all, ¬ o.Refused := fun o member here => refused ⟨o, member, here⟩
      obtain ⟨flags, b, parsed, wrapped⟩ := stored held [d.text] (by simp)
      rw [← Field.wrap_eq_iff, ← wrapped]
      exact exact [d.text] (by simp) flags b parsed
  · intro condition
    by_cases refused : ∃ o ∈ d.all, o.Refused
    · constructor
      · intro chunks split flags b parsed
        obtain ⟨msg, thrown⟩ := d.parses_refused refused split
        rw [thrown] at parsed
        cases parsed
      · intro _ chunks split
        exact d.parses_refused refused split
    · have holds : m.field.Holds lit.value := condition.resolve_right refused
      have held : ∀ o ∈ d.all, ¬ o.Refused := fun o member here => refused ⟨o, member, here⟩
      constructor
      · intro chunks split flags b parsed
        obtain ⟨flags', b', again, wrapped⟩ := stored held chunks split
        rw [parsed] at again
        cases again
        rw [wrapped, Field.wrap_eq_iff]
        exact holds
      · intro outside
        exact absurd holds outside

theorem suits_lots (lit : Literal) : (JsonValue.num lit).Suits .lots := rfl

def lotsMember (lit : Literal) : Member :=
  ⟨.lots, bytes "lots", by decide +kernel, .num lit, suits_lots lit, .nothing, .nothing, .nothing, .nothing⟩

/-- `{"lots":…}`. -/
def lotsOf (lit : Literal) : Document :=
  ⟨.nothing, .members (lotsMember lit) [], .nothing⟩

/-- Leading zeros do no harm. -/
def few : Literal := ⟨.minus, bytes "0012", by decide, by decide +kernel⟩

theorem exact_lots : (lotsOf few).Exact .lots few := by
  have place : (lotsOf few).all = [] ++ lotsMember few :: [] := rfl
  apply (exact_iff (lotsOf few) place rfl (List.forall_mem_nil _)).mpr
  left
  show Field.lots.Holds (-12)
  decide

/-- 2^64 + 1. -/
def tooMany : Literal := ⟨.none, bytes "18446744073709551617", by decide, by decide +kernel⟩

/-- That many lots are accepted as one lot. -/
theorem inexact_lots : ¬ (lotsOf tooMany).Exact .lots tooMany := by
  intro exact
  have read : (reset.parses [(lotsOf tooMany).text]).map (fun r => r.2.lots) = .ok 1 := by decide +kernel
  have value : tooMany.value = 18446744073709551617 := by decide +kernel
  cases parsed : reset.parses [(lotsOf tooMany).text] with
  | error thrown =>
    rw [parsed] at read
    cases read
  | ok result =>
    rw [parsed] at read
    simp only [Except.map, Except.ok.injEq] at read
    have stored : result.2.lots = tooMany.value := exact.1 [(lotsOf tooMany).text] (by simp) result.1 result.2 parsed
    rw [read, value] at stored
    cases stored

end Document

end Swirly
