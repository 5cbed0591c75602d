import Swirly.Verified.Body.Meaning

/-!
# The strings of bodies

Which strings a body can bring in, and what its grammar reads where a string is written as it is: the string comes back only
if it has neither a quote nor a backslash.
-/

namespace Swirly

namespace RestBody

/-! ## What is accepted -/

/-- The string is the value of the member in a body that is complete. -/
def Accepted (f : Field) (s : Bytes) : Prop := ∃ buf b, reset.parse buf = .ok (true, b) ∧ b.text f = s

theorem accepted_of_final {f : Field} {buf s : Bytes} (final : (buf.foldl step reset).cs = .final)
    (read : (buf.foldl step reset).text f = s) : Accepted f s := by
  refine ⟨buf, buf.foldl step reset, ?_, read⟩
  have running : (buf.foldl step reset).Running := by
    intro msg
    rw [final]
    exact Cs.noConfusion
  rw [parse_running running, decide_eq_true final]

/-- No string is longer than the array it is read into. -/
def Bounded (b : RestBody) : Prop := ∀ f max, f.value = .str max → (b.text f).length ≤ max

theorem bounded_goto {b : RestBody} (bounded : b.Bounded) (cs : Cs) : (b.goto cs).Bounded := by
  intro f max value
  rw [text_goto]
  exact bounded f max value

theorem text_setText_of_ne (b : RestBody) (s : Bytes) {f g : Field} (other : g ≠ f) : (b.setText s f).text g = b.text g := by
  cases f <;> cases g <;> first | rfl | exact absurd rfl other

theorem bounded_setText {b : RestBody} (bounded : b.Bounded) {f : Field} {max : Nat} (value : f.value = .str max) {s : Bytes}
    (fits : s.length ≤ max) : (b.setText s f).Bounded := by
  intro g most value'
  by_cases same : g = f
  · subst same
    rw [value, Field.Value.str.injEq] at value'
    rw [text_setText value, ← value']
    exact fits
  · rw [text_setText_of_ne b s same]
    exact bounded g most value'

theorem bounded_addChar {b : RestBody} (bounded : b.Bounded) {f : Field} {max : Nat} (value : f.value = .str max)
    (c : UInt8) : (b.addChar f max c).Bounded := by
  simp only [addChar]
  split
  · apply bounded_goto (b := b.setText (b.text f ++ [c]) f)
    apply bounded_setText bounded value
    rw [List.length_append, List.length_singleton]
    omega
  · exact bounded_goto bounded _

theorem bounded_afterValue {b : RestBody} (bounded : b.Bounded) (c : UInt8) : (b.afterValue c).Bounded := by
  simp only [afterValue]
  split
  · exact bounded
  split_ifs
  all_goals exact bounded_goto bounded _

theorem bounded_null {b : RestBody} (bounded : b.Bounded) (f : Field) : (b.null f).Bounded := by
  cases f with
  | symbol | accnt | instr | ref | cpty =>
    exact bounded_setText (b := b.clearField _) bounded rfl (Nat.zero_le _)
  | settlDate | state | side | lots | ticks | minLots | liqInd => exact bounded

theorem bounded_endNum {b : RestBody} (bounded : b.Bounded) (f : Field) : (b.endNum f).Bounded := by
  cases f with
  | state =>
    simp only [endNum]
    split
    · exact bounded
    · exact bounded_goto bounded _
  | symbol | accnt | instr | settlDate | ref | side | lots | ticks | minLots | liqInd | cpty => exact bounded

theorem bounded_endWord {b : RestBody} (bounded : b.Bounded) (f : Field) (word : Bytes) : (b.endWord f word).Bounded := by
  cases f <;> exact bounded

theorem bounded_beginValue {b : RestBody} (bounded : b.Bounded) (f : Field) (c : UInt8) : (b.beginValue f c).Bounded := by
  simp only [beginValue]
  split
  · exact bounded_goto bounded _
  · split
    · split
      · exact bounded_goto (bounded_setText bounded ‹_› (Nat.zero_le _)) _
      · exact bounded_goto bounded _
    all_goals split_ifs
    all_goals exact bounded

theorem bounded_stepName {b : RestBody} (bounded : b.Bounded) (typed : Bytes) (c : UInt8) :
    (b.stepName typed c).Bounded := by
  simp only [stepName]
  split_ifs
  · split
    all_goals exact bounded
  all_goals exact bounded

theorem bounded_stepWord {b : RestBody} (bounded : b.Bounded) (f : Field) (words : List Bytes) (typed : Bytes) (c : UInt8) :
    (b.stepWord f words typed c).Bounded := by
  simp only [stepWord]
  split_ifs
  all_goals exact bounded

theorem bounded_stepNull {b : RestBody} (bounded : b.Bounded) (f : Field) (typed : Bytes) (c : UInt8) :
    (b.stepNull f typed c).Bounded := by
  simp only [stepNull]
  split_ifs
  all_goals exact bounded

theorem bounded_step {b : RestBody} (bounded : b.Bounded) (c : UInt8) : (b.step c).Bounded := by
  -- Only the states that hold a string or end a number write to the request.
  cases state : b.cs with
  | start | object | comma | colon | final =>
    simp only [step, state]
    split_ifs
    all_goals exact bounded
  | name typed =>
    simp only [step, state]
    exact bounded_stepName bounded typed c
  | value f =>
    simp only [step, state]
    split
    · exact bounded
    · exact bounded_beginValue bounded f c
  | null f typed =>
    simp only [step, state]
    exact bounded_stepNull bounded f typed c
  | nullEnd f =>
    simp only [step, state]
    split
    · exact bounded_afterValue (bounded_null bounded f) c
    · exact bounded
  | word f typed =>
    simp only [step, state]
    split
    · exact bounded_stepWord bounded f _ typed c
    all_goals exact bounded
  | wordEnd f word =>
    simp only [step, state]
    split
    · exact bounded_afterValue (bounded_endWord bounded f word) c
    · exact bounded
  -- The one place where a string grows: `addChar` is asked whether there is room.
  | str f =>
    simp only [step, state]
    split
    · split_ifs
      · exact bounded
      · exact bounded
      · exact bounded_addChar bounded ‹_› c
    all_goals exact bounded
  | escape f =>
    simp only [step, state]
    split
    · exact bounded_addChar bounded ‹_› c
    all_goals exact bounded
  | strEnd f =>
    simp only [step, state]
    split
    · exact bounded_afterValue (b := b.setField f) bounded c
    · exact bounded
  | reqDigit f =>
    simp only [step, state]
    split
    all_goals exact bounded
  | optDigit f =>
    simp only [step, state]
    split_ifs
    · exact bounded
    · exact bounded_afterValue (bounded_endNum bounded f) c
    · exact bounded
  | members =>
    simp only [step, state]
    exact bounded_afterValue bounded c
  | error => simpa only [step, state] using bounded

theorem bounded_foldl {b : RestBody} (bounded : b.Bounded) (buf : Bytes) : (buf.foldl step b).Bounded := by
  induction buf generalizing b with
  | nil => exact bounded
  | cons c buf inductionHypothesis => exact inductionHypothesis (bounded_step bounded c)

theorem Accepted.length_le {f : Field} {max : Nat} (value : f.value = .str max) {s : Bytes} (accepted : Accepted f s) :
    s.length ≤ max := by
  obtain ⟨buf, b, read, rfl⟩ := accepted
  have started : reset.Bounded := by
    intro f max value
    cases f <;> exact Nat.zero_le _
  have bounded := bounded_foldl started buf f max value
  simp only [parse] at read
  split at read
  · cases read
  · split at read
    · cases read
    · cases read
      exact bounded
    · cases read

end RestBody

open RestBody

/-! ## What is read back -/

namespace Letter

theorem quote_ne_backslash : quote ≠ backslash := by decide

variable {letters : List Letter} {s t rest more : Bytes}

theorem backslash_first (same : backslash :: rest = t ++ quote :: more) :
    ∃ t', t = backslash :: t' ∧ rest = t' ++ quote :: more := by
  cases t with
  | nil => exact absurd (List.cons.inj same).1.symm quote_ne_backslash
  | cons c t =>
    obtain ⟨first, others⟩ := List.cons.inj same
    exact ⟨t, by rw [first], others⟩

/-- Letters do not end behind the text that they are read from: it would go on with backslashes for ever. -/
theorem not_behind {n : Nat} (front : t <+: s) (decoded : letters.map decode = List.replicate (n + 1) backslash ++ s)
    (same : letters.flatMap text ++ quote :: rest = t ++ quote :: more) : False := by
  induction letters generalizing n s t with
  | nil => cases decoded
  | cons letter letters inductionHypothesis =>
    rw [List.map_cons, List.replicate_succ, List.cons_append] at decoded
    obtain ⟨first, decodedOthers⟩ := List.cons.inj decoded
    cases letter with
    | plain c ordinary => exact ordinary.2 first
    | escaped c =>
      rw [decode] at first
      subst first
      -- Two backslashes of the text are one of the string, so the string has two more to come.
      obtain ⟨t', rfl, next⟩ := backslash_first same
      obtain ⟨t, rfl, others⟩ := backslash_first next
      obtain ⟨s, rfl⟩ := front
      apply inductionHypothesis (n := n + 1) (List.prefix_append t s) _ others
      rw [decodedOthers]
      simp [List.replicate_succ', List.append_assoc]

/-- A string that is read back from its own front, written as it is, has nothing to escape and is complete. -/
theorem read_back (front : t <+: s) (decoded : letters.map decode = s)
    (same : letters.flatMap text ++ quote :: rest = t ++ quote :: more) :
    (∀ c ∈ t, c ≠ quote ∧ c ≠ backslash) ∧ s = t ∧ letters.flatMap text = t := by
  induction letters generalizing s t with
  | nil =>
    cases decoded
    cases List.prefix_nil.mp front
    exact ⟨List.forall_mem_nil _, rfl, rfl⟩
  | cons letter letters inductionHypothesis =>
    cases t with
    | nil =>
      cases letter with
      | plain c ordinary => exact absurd (List.cons.inj same).1 ordinary.1
      | escaped c => exact absurd (List.cons.inj same).1.symm quote_ne_backslash
    | cons x t =>
      obtain ⟨s, rfl⟩ := front
      obtain ⟨first, decodedOthers⟩ := List.cons.inj decoded
      cases letter with
      | plain c ordinary =>
        cases first
        obtain ⟨-, sameOthers⟩ := List.cons.inj same
        obtain ⟨others, whole, written⟩ := inductionHypothesis (List.prefix_append t s) decodedOthers sameOthers
        refine ⟨List.forall_mem_cons.mpr ⟨ordinary, others⟩, congrArg (c :: ·) whole, ?_⟩
        rw [List.flatMap_cons, written]
        rfl
      | escaped c =>
        exfalso
        rw [decode] at first
        subst first
        -- The first byte of the text is a backslash, and it is the first of the string, too.
        obtain ⟨escape, sameOthers⟩ := List.cons.inj same
        obtain ⟨t, rfl, others⟩ := backslash_first (escape.symm ▸ sameOthers)
        exact not_behind (n := 0) (List.prefix_append t s) decodedOthers others

/-- What needs no escape is read as it is. -/
theorem read_plain (ordinary : ∀ c ∈ s, c ≠ quote ∧ c ≠ backslash) :
    ∃ letters : List Letter, letters.flatMap text = s ∧ letters.map decode = s := by
  induction s with
  | nil => exact ⟨[], rfl, rfl⟩
  | cons c s inductionHypothesis =>
    obtain ⟨letters, written, read⟩ := inductionHypothesis fun c inside => ordinary c (List.mem_cons_of_mem _ inside)
    exists plain c (ordinary c (List.mem_cons_self ..)) :: letters
    rw [List.flatMap_cons, List.map_cons, written, read]
    exact ⟨rfl, rfl⟩

end Letter

end Swirly
