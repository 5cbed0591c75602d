import Swirly.Verified.Body.Machine

/-!
# What the machine does with a document

A document whose members are all read leaves what its members leave, one after the other, and any other one stops the
machine.
-/

namespace Swirly

open RestBody

/-- The machine stops at the value: the string is too long, or the state has a minus sign. -/
def JsonValue.Refused (f : Field) : JsonValue → Prop
  | .str letters => ∃ max, f.value = .str max ∧ max < letters.length
  | .num lit => f = .state ∧ lit.sign = .minus
  | .null | .word _ => False

def Member.Refused (m : Member) : Prop := m.written.Refused m.field

namespace RestBody

/-- What a value that is read leaves in the body. -/
def enter (b : RestBody) (f : Field) : JsonValue → RestBody
  | .null => b.null f
  | .str letters => (b.setText (letters.map Letter.decode) f).setField f
  | .num lit => (b.setNum lit.sign.unit lit.magnitude).endNum f
  | .word typed => b.endWord f (typed.map toLower)

def enterAll (b : RestBody) (ms : List Member) : RestBody := ms.foldl (fun b m => b.enter m.field m.written) b

/-! ## Values -/

/-- After a value, the state that the machine was in no longer counts unless it is the error state. -/
theorem afterValue_goto (b : RestBody) {cs : Cs} (running : ∀ msg, cs ≠ .error msg) (c : UInt8) :
    (b.goto cs).afterValue c = (b.goto .members).afterValue c := by
  cases cs with
  | error msg => exact absurd rfl (running msg)
  | _ => rfl

theorem afterValue_space (b : RestBody) {c : UInt8} (space : isSpace c) :
    (b.goto .members).afterValue c = b.goto .members := by
  simp only [afterValue, cs_goto, space, if_true]
  rfl

theorem isEnd_of_space {c : UInt8} (space : isSpace c) : isEnd c := by
  simp [isEnd, space]

theorem not_digit_of_isEnd {c : UInt8} (ends : isEnd c) : isDigit c = false := by
  cases digit : isDigit c with
  | false => rfl
  | true =>
    simp only [isEnd, not_space_of_digit digit, Bool.false_or, Bool.or_eq_true, decide_eq_true_eq] at ends
    obtain rfl | rfl := ends
    · exact absurd digit (by decide)
    · exact absurd digit (by decide)

@[simp] theorem goto_null (b : RestBody) (f : Field) (cs : Cs) : (b.goto cs).null f = (b.null f).goto cs := by
  cases f <;> rfl

@[simp] theorem goto_setField (b : RestBody) (f : Field) (cs : Cs) : (b.goto cs).setField f = (b.setField f).goto cs := rfl

@[simp] theorem goto_endWord (b : RestBody) (f : Field) (word : Bytes) (cs : Cs) :
    (b.goto cs).endWord f word = (b.endWord f word).goto cs := by
  cases f <;> rfl

theorem goto_endNum (b : RestBody) {f : Field} (cs : Cs) (positive : f = .state → 0 ≤ b.sign) :
    (b.goto cs).endNum f = (b.endNum f).goto cs := by
  cases f with
  | state =>
    have sign : 0 ≤ b.sign := positive rfl
    have moved : 0 ≤ (b.goto cs).sign := sign
    simp only [endNum, sign, moved, if_true]
    rfl
  | _ => rfl

theorem step_value {b : RestBody} {f : Field} {w : JsonValue} (suits : w.Suits f) (held : ¬ w.Refused f) {c : UInt8}
    (ends : isEnd c) :
    (w.text ++ [c]).foldl step (b.goto (.value f)) = ((b.enter f w).goto .members).afterValue c := by
  rw [List.foldl_append]
  cases w with
  | null =>
    have nullable : f.nullable = true := suits
    have read : (bytes "null").foldl step (b.goto (.value f)) = b.goto (.nullEnd f) := by
      have first : (b.goto (.value f)).step 110 = b.goto (.null f [110]) := by
        have notSpace : isSpace 110 = false := by decide
        simp only [step, cs_goto, notSpace, beginValue, nullable, decide_true, Bool.and_true, Bool.false_eq_true, if_false,
          if_true]
        rfl
      show (bytes "ull").foldl step ((b.goto (.value f)).step 110) = b.goto (.nullEnd f)
      rw [first]
      rfl
    rw [JsonValue.text, read]
    simp only [List.foldl_cons, List.foldl_nil, step, cs_goto, ends, if_true, goto_null, enter]
    exact afterValue_goto _ (by simp) c
  | str letters =>
    obtain ⟨max, value⟩ := suits
    have fits : letters.length ≤ max := by
      by_contra long
      exact held ⟨max, value, not_le.mp long⟩
    rw [JsonValue.text, step_string value fits]
    simp only [List.foldl_cons, List.foldl_nil, step, cs_goto, ends, if_true, goto_setField, enter]
    exact afterValue_goto _ (by simp) c
  | num lit =>
    have notDigit : isDigit c = false := not_digit_of_isEnd ends
    have positive : f = .state → 0 ≤ (b.setNum lit.sign.unit lit.magnitude).sign := by
      intro isState
      have notMinus : lit.sign ≠ .minus := fun minus => held ⟨isState, minus⟩
      show 0 ≤ lit.sign.unit
      cases sign : lit.sign with
      | none | plus => decide
      | minus => exact absurd sign notMinus
    rw [JsonValue.text, step_literal suits]
    simp only [List.foldl_cons, List.foldl_nil, step, cs_goto, notDigit, ends, Bool.false_eq_true, if_false, if_true,
      goto_endNum _ _ positive, enter]
    exact afterValue_goto _ (by simp) c
  | word typed =>
    obtain ⟨words, value, known⟩ := suits
    have opened : (b.goto (.value f)).step quote = b.goto (.word f []) := by
      have notSpace : isSpace quote = false := by decide
      have notNull : quote ≠ 110 := by decide
      simp only [step, cs_goto, notSpace, beginValue, notNull, value, decide_false, Bool.and_false, Bool.false_eq_true,
        if_false, if_true]
      rfl
    have read : (JsonValue.word typed).text.foldl step (b.goto (.value f)) = b.goto (.wordEnd f (typed.map toLower)) := by
      rw [JsonValue.text, List.cons_append, List.foldl_cons, opened]
      exact step_word value known
    rw [read]
    simp only [List.foldl_cons, List.foldl_nil, step, cs_goto, ends, if_true, goto_endWord, enter]
    exact afterValue_goto _ (by simp) c

theorem step_refused {b : RestBody} {f : Field} {w : JsonValue} (suits : w.Suits f) (refused : w.Refused f) {c : UInt8}
    (ends : isEnd c) : ∃ msg, ((w.text ++ [c]).foldl step (b.goto (.value f))).cs = .error msg := by
  cases w with
  | null => cases refused
  | word typed => cases refused
  | str letters =>
    obtain ⟨max, value, long⟩ := refused
    obtain ⟨msg, failed⟩ := step_too_long (b := b) (s := []) value (by simpa using long) (Nat.zero_le _)
    exists msg
    rw [JsonValue.text, List.cons_append, List.cons_append, List.foldl_cons, step_opened value, List.append_assoc, List.foldl_append,
      foldl_error failed, failed]
  | num lit =>
    obtain ⟨rfl, minus⟩ := refused
    have notDigit : isDigit c = false := not_digit_of_isEnd ends
    exists "negative state field"
    rw [List.foldl_append, JsonValue.text, step_literal rfl, minus]
    simp only [List.foldl_cons, List.foldl_nil, step, cs_goto, notDigit, ends, Bool.false_eq_true, if_false, if_true]
    rfl

end RestBody

/-! ## Members -/

namespace Member

/-- The states in which a member begins. -/
def Begins (cs : Cs) : Prop := cs = .object ∨ cs = .comma

theorem step_begin {b : RestBody} {cs : Cs} (begins : Begins cs) : (b.goto cs).step quote = b.goto (.name []) := by
  have notSpace : isSpace quote = false := by decide
  obtain rfl | rfl := begins
  · simp only [step, cs_goto, notSpace, Bool.false_eq_true, if_false, if_true]
    rfl
  · simp only [step, cs_goto, notSpace, Bool.false_eq_true, if_false, if_true]
    rfl

theorem step_pair (m : Member) {b : RestBody} {cs : Cs} (begins : Begins cs) :
    m.pair.foldl step (b.goto cs) = m.written.text.foldl step (b.goto (.value m.field)) := by
  have waits : Waits cs := by
    obtain rfl | rfl := begins
    · trivial
    · trivial
  have key := step_key (b := b) m.typed
  have colon : (b.goto (.colon m.field)).step colon = b.goto (.value m.field) := by
    have notSpace : isSpace RestBody.colon = false := by decide
    simp only [step, cs_goto, notSpace, Bool.false_eq_true, if_false, if_true]
    rfl
  rw [List.foldl_append, List.foldl_cons, List.foldl_nil] at key
  simp only [pair, List.cons_append, List.append_assoc, List.foldl_append, List.foldl_cons, step_blank waits m.before.spaces,
    step_begin begins, key, step_blank (show Waits (.colon m.field) from trivial) m.beforeColon.spaces, colon,
    step_blank (show Waits (.value m.field) from trivial) m.afterColon.spaces]

/-- The state behind a member and the byte after it. -/
def behind (c : UInt8) : Cs := if c = comma then .comma else .final

theorem afterValue_behind (b : RestBody) {c : UInt8} (ends : c = comma ∨ c = closeBrace) :
    (b.goto .members).afterValue c = b.goto (behind c) := by
  obtain rfl | rfl := ends
  · rfl
  · rfl

theorem step_text (m : Member) (held : ¬ m.Refused) {b : RestBody} {cs : Cs} (begins : Begins cs) {c : UInt8}
    (ends : c = comma ∨ c = closeBrace) :
    (m.text ++ [c]).foldl step (b.goto cs) = (b.enter m.field m.written).goto (behind c) := by
  have isEnd : isEnd c := by
    obtain rfl | rfl := ends
    · rfl
    · rfl
  rw [text, List.append_assoc, List.foldl_append, step_pair m begins, ← List.foldl_append]
  have spaces := m.after.spaces
  cases after : m.after.text with
  | nil =>
    rw [List.nil_append, step_value m.suits held isEnd, afterValue_behind _ ends]
  | cons space blank =>
    rw [after] at spaces
    have first : RestBody.isSpace space := spaces space (List.mem_cons_self ..)
    have others : ∀ c ∈ blank, RestBody.isSpace c := fun c member => spaces c (List.mem_cons_of_mem _ member)
    have read := step_value (b := b) m.suits held (isEnd_of_space first)
    rw [afterValue_space _ first] at read
    rw [List.cons_append, ← List.singleton_append, ← List.append_assoc, List.foldl_append, read, List.foldl_append,
      step_blank (show Waits .members from trivial) others]
    exact afterValue_behind _ ends

theorem step_text_refused (m : Member) (refused : m.Refused) {b : RestBody} {cs : Cs} (begins : Begins cs) {c : UInt8}
    (ends : c = comma ∨ c = closeBrace) : ∃ msg, ((m.text ++ [c]).foldl step (b.goto cs)).cs = .error msg := by
  have isEnd : isEnd c := by
    obtain rfl | rfl := ends
    · rfl
    · rfl
  rw [text, List.append_assoc, List.foldl_append, step_pair m begins, ← List.foldl_append]
  have spaces := m.after.spaces
  cases after : m.after.text with
  | nil => exact step_refused m.suits refused isEnd
  | cons space blank =>
    rw [after] at spaces
    have first : RestBody.isSpace space := spaces space (List.mem_cons_self ..)
    obtain ⟨msg, failed⟩ := step_refused (b := b) m.suits refused (isEnd_of_space first)
    exists msg
    rw [List.cons_append, ← List.singleton_append, ← List.append_assoc, List.foldl_append, foldl_error failed, failed]

/-! ## Lists of members -/

theorem step_members {first : Member} {others : List Member} (held : ∀ m ∈ first :: others, ¬ m.Refused) {b : RestBody}
    {cs : Cs} (begins : Begins cs) :
    ((first.text ++ others.flatMap fun m => comma :: m.text) ++ [closeBrace]).foldl step (b.goto cs) =
      (b.enterAll (first :: others)).goto .final := by
  induction others generalizing first b cs with
  | nil =>
    rw [List.flatMap_nil, List.append_nil, step_text first (held first (List.mem_cons_self ..)) begins (.inr rfl)]
    rfl
  | cons second others inductionHypothesis =>
    have one := step_text first (held first (List.mem_cons_self ..)) (b := b) begins (.inl rfl)
    have rest := inductionHypothesis (fun m member => held m (List.mem_cons_of_mem _ member))
      (b := b.enter first.field first.written) (.inr rfl : Begins (behind comma))
    simp only [List.flatMap_cons, List.cons_append, List.append_assoc, List.foldl_append, List.foldl_cons,
      List.foldl_nil] at one rest ⊢
    rw [one, rest]
    rfl

theorem step_members_refused {first : Member} {others : List Member} (refused : ∃ m ∈ first :: others, m.Refused)
    {b : RestBody} {cs : Cs} (begins : Begins cs) :
    ∃ msg, (((first.text ++ others.flatMap fun m => comma :: m.text) ++ [closeBrace]).foldl step (b.goto cs)).cs =
      .error msg := by
  induction others generalizing first b cs with
  | nil =>
    obtain ⟨m, member, refused⟩ := refused
    rw [List.mem_singleton] at member
    subst member
    simpa using step_text_refused m refused (b := b) begins (.inr rfl)
  | cons second others inductionHypothesis =>
    have shape : (first.text ++ ((second :: others).flatMap fun m => comma :: m.text)) ++ [closeBrace] =
        (first.text ++ [comma]) ++ ((second.text ++ others.flatMap fun m => comma :: m.text) ++ [closeBrace]) := by
      simp
    rw [shape, List.foldl_append]
    by_cases here : first.Refused
    · obtain ⟨msg, failed⟩ := step_text_refused first here (b := b) begins (.inl rfl)
      exact ⟨msg, by rw [foldl_error failed, failed]⟩
    · rw [step_text first here begins (.inl rfl)]
      apply inductionHypothesis _ (.inr rfl)
      obtain ⟨m, member, refused⟩ := refused
      rcases List.mem_cons.mp member with rfl | member
      · exact absurd refused here
      · exact ⟨m, member, refused⟩

end Member

/-! ## Documents -/

namespace Document

theorem step_open (d : Document) : (d.before.text ++ [openBrace]).foldl step reset = reset.goto .object := by
  have opened : (reset.goto .start).step openBrace = reset.goto .object := by decide
  have blank := step_blank (b := reset) (show Waits .start from trivial) d.before.spaces
  rw [List.foldl_append, List.foldl_cons, List.foldl_nil, ← opened]
  exact congrArg (step · openBrace) blank

theorem front_eq (d : Document) : d.front ++ [closeBrace] = (d.before.text ++ [openBrace]) ++ (d.object.text ++ [closeBrace]) := by
  simp [front]

theorem text_eq (d : Document) : d.text = (d.front ++ [closeBrace]) ++ d.after.text := by
  simp [text]

/-- The machine is final behind the closing brace, with what the members have left. -/
theorem step_front (d : Document) (held : ∀ m ∈ d.all, ¬ m.Refused) :
    (d.front ++ [closeBrace]).foldl step reset = (reset.enterAll d.all).goto .final := by
  rw [front_eq, List.foldl_append, step_open]
  rw [all] at held ⊢
  cases object : d.object with
  | empty inside =>
    rw [Object.text, List.foldl_append, step_blank (show Waits .object from trivial) inside.spaces]
    rfl
  | members first others =>
    rw [object] at held
    exact Member.step_members held (.inl rfl)

theorem step_front_refused (d : Document) (refused : ∃ m ∈ d.all, m.Refused) :
    ∃ msg, ((d.front ++ [closeBrace]).foldl step reset).cs = .error msg := by
  rw [front_eq, List.foldl_append, step_open]
  rw [all] at refused
  cases object : d.object with
  | empty inside =>
    rw [object] at refused
    obtain ⟨m, member, -⟩ := refused
    exact absurd member (List.not_mem_nil)
  | members first others =>
    rw [object] at refused
    exact Member.step_members_refused refused (.inl rfl)

theorem step_document (d : Document) (held : ∀ m ∈ d.all, ¬ m.Refused) :
    d.text.foldl step reset = (reset.enterAll d.all).goto .final := by
  rw [text_eq, List.foldl_append, step_front d held, step_blank (show Waits .final from trivial) d.after.spaces]

theorem step_document_refused (d : Document) (refused : ∃ m ∈ d.all, m.Refused) :
    ∃ msg, (d.text.foldl step reset).cs = .error msg := by
  obtain ⟨msg, failed⟩ := step_front_refused d refused
  exact ⟨msg, by rw [text_eq, List.foldl_append, foldl_error failed, failed]⟩

end Document

end Swirly
