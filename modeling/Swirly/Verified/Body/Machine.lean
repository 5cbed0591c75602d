import Swirly.Verified.Body.Grammar

/-!
# What the machine does with a member

The machine of `Web/RestBody.lean` is followed over the pieces of a member: white space, the key, a value, and the byte
behind it, on which the value is stored.  A member is refused where a string is too long or a state has a minus sign.
-/

namespace Swirly

namespace RestBody

/-- The body in another state of the machine. -/
def goto (b : RestBody) (cs : Cs) : RestBody := { b with cs := cs }

@[simp] theorem cs_goto (b : RestBody) (cs : Cs) : (b.goto cs).cs = cs := rfl

@[simp] theorem goto_goto (b : RestBody) (first second : Cs) : (b.goto first).goto second = b.goto second := rfl

/-! ## White space -/

/-- The states in which white space stands. -/
def Waits : Cs → Prop
  | .start | .object | .comma | .colon _ | .value _ | .members | .final => True
  | _ => False

theorem step_space {b : RestBody} {cs : Cs} (waits : Waits cs) {c : UInt8} (space : isSpace c) :
    (b.goto cs).step c = b.goto cs := by
  cases cs with
  | start | object | comma | colon | value | final => simp [step, space]
  | members =>
    simp only [step, afterValue, cs_goto, space, if_true]
    rfl
  | name | null | nullEnd | word | wordEnd | str | escape | strEnd | reqDigit | optDigit | error => cases waits

theorem step_blank {b : RestBody} {cs : Cs} (waits : Waits cs) {text : Bytes} (spaces : ∀ c ∈ text, isSpace c) :
    text.foldl step (b.goto cs) = b.goto cs := by
  induction text with
  | nil => rfl
  | cons c text inductionHypothesis =>
    rw [List.foldl_cons, step_space waits (spaces c (List.mem_cons_self ..))]
    exact inductionHypothesis fun c member => spaces c (List.mem_cons_of_mem _ member)

@[simp] theorem step_error {b : RestBody} {msg : String} (failed : b.cs = .error msg) (c : UInt8) : b.step c = b := by
  simp [step, failed]

/-- The error state is left no more. -/
theorem foldl_error {b : RestBody} {msg : String} (failed : b.cs = .error msg) (text : Bytes) : text.foldl step b = b := by
  induction text with
  | nil => rfl
  | cons c text inductionHypothesis => rw [List.foldl_cons, step_error failed, inductionHypothesis]

/-! ## Keys and words -/

/-- Letters of either case lead through one of the texts that the machine is looking for. -/
theorem foldl_typed {state : Bytes → Cs} {texts : List Bytes} {whole : Bytes} {b : RestBody} (known : whole ∈ texts)
    (plain : quote ∉ whole)
    (next : ∀ typed c, c ≠ quote → (texts.any fun t => (typed ++ [toLower c]).isPrefixOf t) →
      (b.goto (state typed)).step c = b.goto (state (typed ++ [toLower c])))
    {typed rest : Bytes} (spelled : typed ++ rest.map toLower = whole) :
    rest.foldl step (b.goto (state typed)) = b.goto (state whole) := by
  induction rest generalizing typed with
  | nil =>
    rw [List.map_nil, List.append_nil] at spelled
    rw [spelled]
    rfl
  | cons c rest inductionHypothesis =>
    rw [List.map_cons, ← List.singleton_append, ← List.append_assoc] at spelled
    have unquoted : c ≠ quote := by
      rintro rfl
      apply plain
      rw [← spelled]
      simp [toLower, quote]
    have candidate : texts.any fun t => (typed ++ [toLower c]).isPrefixOf t := by
      rw [List.any_eq_true]
      exact ⟨whole, known, List.isPrefixOf_iff_prefix.mpr ⟨_, spelled⟩⟩
    rw [List.foldl_cons, next typed c unquoted candidate]
    exact inductionHypothesis spelled

theorem unquoted_name (f : Field) : quote ∉ f.name := by cases f <;> decide

theorem find_name (f : Field) : Field.all.find? (·.name = f.name) = some f := by cases f <;> decide

theorem mem_all (f : Field) : f ∈ Field.all := by cases f <;> decide

theorem step_key {b : RestBody} {f : Field} {key : Bytes} (typed : key.map toLower = f.name) :
    (key ++ [quote]).foldl step (b.goto (.name [])) = b.goto (.colon f) := by
  have spelled : key.foldl step (b.goto (.name [])) = b.goto (.name f.name) := by
    have known : f.name ∈ Field.all.map Field.name := List.mem_map_of_mem (mem_all f)
    apply foldl_typed known (unquoted_name f) _ typed
    intro typed c unquoted candidate
    have candidate : (Field.all.any fun f => (typed ++ [toLower c]).isPrefixOf f.name) = true := by
      rw [List.any_map] at candidate
      exact candidate
    simp only [step, stepName, cs_goto, unquoted, if_false, candidate, if_true]
    rfl
  rw [List.foldl_append, spelled]
  simp only [List.foldl_cons, List.foldl_nil, step, stepName, cs_goto, if_true, find_name]
  rfl

theorem unquoted_words {f : Field} {words : List Bytes} (value : f.value = .words words) {word : Bytes}
    (known : word ∈ words) : quote ∉ word := by
  have all : ∀ word ∈ [bytes "buy", bytes "sell", bytes "maker", bytes "taker"], quote ∉ word := by decide
  apply all
  cases f <;> simp only [Field.value, Field.Value.words.injEq, reduceCtorEq] at value
  all_goals
    subst value
    simp only [List.mem_cons, List.not_mem_nil, or_false] at known ⊢
    tauto

theorem step_word {b : RestBody} {f : Field} {words : List Bytes} (value : f.value = .words words) {typed : Bytes}
    (known : typed.map toLower ∈ words) :
    (typed ++ [quote]).foldl step (b.goto (.word f [])) = b.goto (.wordEnd f (typed.map toLower)) := by
  have spelled : typed.foldl step (b.goto (.word f [])) = b.goto (.word f (typed.map toLower)) := by
    apply foldl_typed known (unquoted_words value known) _ (List.nil_append _)
    intro typed c unquoted candidate
    simp only [step, value, stepWord, cs_goto, unquoted, if_false, candidate, if_true]
    rfl
  rw [List.foldl_append, spelled]
  simp only [List.foldl_cons, List.foldl_nil, step, value, stepWord, cs_goto, if_true, known]
  rfl

/-! ## Strings -/

theorem text_setText {b : RestBody} {f : Field} {max : Nat} (value : f.value = .str max) (s : Bytes) :
    (b.setText s f).text f = s := by
  cases f <;> first | rfl | cases value

@[simp] theorem setText_setText (b : RestBody) (f : Field) (s t : Bytes) : (b.setText s f).setText t f = b.setText t f := by
  cases f <;> rfl

@[simp] theorem goto_setText (b : RestBody) (f : Field) (s : Bytes) (cs : Cs) :
    (b.goto cs).setText s f = (b.setText s f).goto cs := by
  cases f <;> rfl

@[simp] theorem text_goto (b : RestBody) (f : Field) (cs : Cs) : (b.goto cs).text f = b.text f := by
  cases f <;> rfl

theorem addChar_fits {b : RestBody} {f : Field} {max : Nat} (value : f.value = .str max) {s : Bytes} {cs : Cs} {c : UInt8}
    (fits : s.length < max) :
    ((b.setText s f).goto cs).addChar f max c = (b.setText (s ++ [c]) f).goto (.str f) := by
  simp only [addChar, text_goto, text_setText value, fits, if_true, goto_setText, setText_setText]
  rfl

/-- A letter is one byte of the string, whether it is escaped or not. -/
theorem step_letter {b : RestBody} {f : Field} {max : Nat} (value : f.value = .str max) (letter : Letter) :
    ∃ cs, letter.text.foldl step (b.goto (.str f)) = (b.goto cs).addChar f max letter.decode := by
  cases letter with
  | plain c ordinary =>
    exists .str f
    simp only [Letter.text, Letter.decode, List.foldl_cons, List.foldl_nil, step, cs_goto, value, ordinary.1, ordinary.2,
      if_false]
  | escaped c =>
    exists .escape f
    have notQuote : backslash ≠ quote := by decide
    simp only [Letter.text, Letter.decode, List.foldl_cons, List.foldl_nil, step, cs_goto, value, notQuote, if_false, if_true]
    rfl

theorem step_letters {b : RestBody} {f : Field} {max : Nat} (value : f.value = .str max) {letters : List Letter} {s : Bytes}
    (fits : s.length + letters.length ≤ max) :
    (letters.flatMap Letter.text).foldl step ((b.setText s f).goto (.str f)) =
      (b.setText (s ++ letters.map Letter.decode) f).goto (.str f) := by
  induction letters generalizing s with
  | nil => simp
  | cons letter letters inductionHypothesis =>
    rw [List.length_cons] at fits
    obtain ⟨cs, added⟩ := step_letter (b := b.setText s f) value letter
    have one : letter.text.foldl step ((b.setText s f).goto (.str f)) =
        (b.setText (s ++ [letter.decode]) f).goto (.str f) := by
      rw [added, addChar_fits value]
      omega
    have others : (s ++ [letter.decode]).length + letters.length ≤ max := by
      rw [List.length_append, List.length_singleton]
      omega
    rw [List.flatMap_cons, List.foldl_append, one, inductionHypothesis others]
    simp

theorem step_opened {b : RestBody} {f : Field} {max : Nat} (value : f.value = .str max) :
    (b.goto (.value f)).step quote = (b.setText [] f).goto (.str f) := by
  have notSpace : isSpace quote = false := by decide
  have notNull : quote ≠ 110 := by decide
  simp only [step, cs_goto, notSpace, beginValue, notNull, value, decide_false, Bool.and_false, Bool.false_eq_true, if_false,
    if_true, goto_setText]
  rfl

theorem step_string {b : RestBody} {f : Field} {max : Nat} (value : f.value = .str max) {letters : List Letter}
    (fits : letters.length ≤ max) :
    (quote :: letters.flatMap Letter.text ++ [quote]).foldl step (b.goto (.value f)) =
      (b.setText (letters.map Letter.decode) f).goto (.strEnd f) := by
  have read := step_letters (b := b) (s := []) value (by simpa using fits)
  rw [List.cons_append, List.foldl_cons, List.foldl_append, step_opened value, read, List.nil_append]
  simp only [List.foldl_cons, List.foldl_nil, step, cs_goto, value, if_true]
  rfl

/-- The first letter too many stops the machine. -/
theorem step_too_long {b : RestBody} {f : Field} {max : Nat} (value : f.value = .str max) {letters : List Letter} {s : Bytes}
    (long : max < s.length + letters.length) (inside : s.length ≤ max) :
    ∃ msg, ((letters.flatMap Letter.text).foldl step ((b.setText s f).goto (.str f))).cs = .error msg := by
  induction letters generalizing s with
  | nil =>
    simp only [List.length_nil] at long
    omega
  | cons letter letters inductionHypothesis =>
    rw [List.length_cons] at long
    obtain ⟨cs, added⟩ := step_letter (b := b.setText s f) value letter
    rw [List.flatMap_cons, List.foldl_append, added]
    by_cases fits : s.length < max
    · rw [addChar_fits value fits]
      apply inductionHypothesis
      · rw [List.length_append, List.length_singleton]
        omega
      · rw [List.length_append, List.length_singleton]
        omega
    · have failed : ((b.setText s f).goto cs).addChar f max letter.decode =
          ((b.setText s f).goto cs).fail "max length exceeded" := by
        simp only [addChar, text_goto, text_setText value, fits, if_false]
      exact ⟨"max length exceeded", by rw [failed, foldl_error rfl]; rfl⟩

/-! ## Numbers -/

/-- The machine's number, with the digits in a word of 64 bits. -/
def setNum (b : RestBody) (sign : Int) (digits : Nat) : RestBody := { b with sign := sign, digits := digits % 2 ^ 64 }

theorem addDigit_setNum (b : RestBody) (sign : Int) (n : Nat) (c : UInt8) :
    (b.setNum sign n).addDigit c = b.setNum sign (n * 10 + (c.toNat - 48)) := by
  simp only [setNum, addDigit, RestBody.mk.injEq, true_and, and_true]
  omega

theorem step_digit {b : RestBody} {f : Field} {c : UInt8} (digit : isDigit c) (sign : Int) (n : Nat) {cs : Cs}
    (number : cs = .reqDigit f ∨ cs = .optDigit f) :
    ((b.setNum sign n).goto cs).step c = (b.setNum sign (n * 10 + (c.toNat - 48))).goto (.optDigit f) := by
  rw [← addDigit_setNum]
  obtain rfl | rfl := number
  · simp only [step, cs_goto, digit, if_true]
    rfl
  · simp only [step, cs_goto, digit, if_true]
    rfl

theorem step_digits {b : RestBody} {f : Field} {digits : Bytes} (decimal : ∀ c ∈ digits, isDigit c) (sign : Int) (n : Nat) :
    digits.foldl step ((b.setNum sign n).goto (.optDigit f)) =
      (b.setNum sign (digits.foldl (fun n c => n * 10 + (c.toNat - 48)) n)).goto (.optDigit f) := by
  induction digits generalizing n with
  | nil => rfl
  | cons c digits inductionHypothesis =>
    rw [List.foldl_cons, step_digit (decimal c (List.mem_cons_self ..)) sign n (.inr rfl)]
    exact inductionHypothesis (fun c member => decimal c (List.mem_cons_of_mem _ member)) _

theorem not_space_of_digit {c : UInt8} (digit : isDigit c) : isSpace c = false := by
  simp only [isDigit, isSpace, Bool.and_eq_true, decide_eq_true_eq, UInt8.le_iff_toNat_le, UInt8.reduceToNat] at digit ⊢
  simp only [Bool.or_eq_false_iff, decide_eq_false_iff_not, Bool.and_eq_false_iff, not_le, ← UInt8.toNat_inj,
    UInt8.reduceToNat]
  omega

theorem step_literal {b : RestBody} {f : Field} (value : f.value = .num) (lit : Literal) :
    lit.text.foldl step (b.goto (.value f)) = (b.setNum lit.sign.unit lit.magnitude).goto (.optDigit f) := by
  obtain ⟨sign, digits, nonempty, decimal⟩ := lit
  cases digits with
  | nil => exact absurd rfl nonempty
  | cons c digits =>
    have digit : isDigit c := decimal c (List.mem_cons_self ..)
    have others : ∀ c ∈ digits, isDigit c := fun c member => decimal c (List.mem_cons_of_mem _ member)
    have first : ∀ unit : Int, ((b.setNum unit 0).goto (.reqDigit f)).step c =
        (b.setNum unit (0 * 10 + (c.toNat - 48))).goto (.optDigit f) := fun unit => step_digit digit unit 0 (.inl rfl)
    cases sign with
    | none =>
      have notNull : c ≠ 110 := by
        rintro rfl
        revert digit
        decide
      have notMinus : c ≠ 45 := by
        rintro rfl
        revert digit
        decide
      have notPlus : c ≠ 43 := by
        rintro rfl
        revert digit
        decide
      have began : (b.goto (.value f)).step c = (b.setNum 1 (0 * 10 + (c.toNat - 48))).goto (.optDigit f) := by
        simp only [step, cs_goto, not_space_of_digit digit, beginValue, notNull, value, notMinus, notPlus, digit,
          decide_false, Bool.and_false, Bool.false_eq_true, if_false, if_true]
        rfl
      simp only [Literal.text, Sign.text, List.nil_append, List.foldl_cons, began]
      exact step_digits others 1 _
    | plus =>
      have began : (b.goto (.value f)).step 43 = (b.setNum 1 0).goto (.reqDigit f) := by
        have notSpace : isSpace 43 = false := by decide
        have notMinus : (43 : UInt8) ≠ 45 := by decide
        have notNull : (43 : UInt8) ≠ 110 := by decide
        simp only [step, cs_goto, notSpace, beginValue, notNull, value, notMinus, decide_false, Bool.and_false,
          Bool.false_eq_true, if_false, if_true]
        rfl
      simp only [Literal.text, Sign.text, List.cons_append, List.nil_append, List.foldl_cons, began, first 1]
      exact step_digits others 1 _
    | minus =>
      have began : (b.goto (.value f)).step 45 = (b.setNum (-1) 0).goto (.reqDigit f) := by
        have notSpace : isSpace 45 = false := by decide
        have notNull : (45 : UInt8) ≠ 110 := by decide
        simp only [step, cs_goto, notSpace, beginValue, notNull, value, decide_false, Bool.and_false, Bool.false_eq_true,
          if_false, if_true]
        rfl
      simp only [Literal.text, Sign.text, List.cons_append, List.nil_append, List.foldl_cons, began, first (-1)]
      exact step_digits others (-1) _

end RestBody

end Swirly
