import Swirly.Verified.Body.Document

/-!
# What a body means

A body that is read to its end, in whatever pieces, holds for every key what is written at its last occurrence.  A number
is stored in the type of its field, which wraps what it cannot hold.
-/

namespace Swirly

open RestBody

/-! ## Pieces -/

namespace RestBody

/-- Successive calls of `parse`: what they return, and the body after them. -/
def parses (b : RestBody) : List Bytes → Except Exception (List Bool × RestBody)
  | [] => .ok ([], b)
  | chunk :: chunks => do
    let first ← b.parse chunk
    let others ← first.2.parses chunks
    .ok (first.1 :: others.1, others.2)

def Running (b : RestBody) : Prop := ∀ msg, b.cs ≠ .error msg

theorem running_of_foldl {b : RestBody} {text : Bytes} (running : (text.foldl step b).Running) : b.Running := by
  intro msg failed
  rw [foldl_error failed] at running
  exact running msg failed

theorem parse_running {b : RestBody} {buf : Bytes} (running : (buf.foldl step b).Running) :
    b.parse buf = .ok (decide ((buf.foldl step b).cs = .final), buf.foldl step b) := by
  have began := running_of_foldl running
  simp only [parse]
  split
  case h_1 failed => exact absurd failed (began _)
  case h_2 =>
    split
    case h_1 failed => exact absurd failed (running _)
    case h_2 isFinal => simp [isFinal]
    case h_3 _ notFinal =>
      have incomplete : (buf.foldl step b).cs ≠ .final := notFinal
      simp [incomplete]

theorem parse_failed {b : RestBody} {buf : Bytes} {msg : String} (failed : (buf.foldl step b).cs = .error msg) :
    ∃ msg, b.parse buf = .error ⟨.badRequest, msg⟩ := by
  simp only [parse]
  split
  case h_1 => exact ⟨_, rfl⟩
  case h_2 =>
    rw [failed]
    exact ⟨_, rfl⟩

/-- The calls go through the bytes so far, and a call returns whether the machine is final after them. -/
theorem parses_running {b : RestBody} {chunks : List Bytes} (running : (chunks.flatten.foldl step b).Running) :
    b.parses chunks = .ok
      ((List.range chunks.length).map fun i => decide (((chunks.take (i + 1)).flatten.foldl step b).cs = .final),
        chunks.flatten.foldl step b) := by
  induction chunks generalizing b with
  | nil => rfl
  | cons chunk chunks inductionHypothesis =>
    rw [List.flatten_cons, List.foldl_append] at running
    rw [parses, parse_running (running_of_foldl running)]
    simp only [bind, Except.bind]
    rw [inductionHypothesis running, List.length_cons, List.range_succ_eq_map, List.flatten_cons, List.foldl_append]
    simp only [List.map_cons, List.map_map, Function.comp_def, List.take_succ_cons, List.take_zero, List.flatten_cons,
      List.flatten_nil, List.foldl_append]
    rfl

theorem parses_failed {b : RestBody} {chunks : List Bytes} (began : b.Running) {msg : String}
    (failed : (chunks.flatten.foldl step b).cs = .error msg) : ∃ msg, b.parses chunks = .error ⟨.badRequest, msg⟩ := by
  induction chunks generalizing b with
  | nil => exact absurd failed (began msg)
  | cons chunk chunks inductionHypothesis =>
    rw [List.flatten_cons, List.foldl_append] at failed
    rw [parses]
    by_cases running : (chunk.foldl step b).Running
    · obtain ⟨msg, later⟩ := inductionHypothesis running failed
      exists msg
      rw [parse_running running]
      simp only [bind, Except.bind]
      rw [later]
    · obtain ⟨msg, here⟩ : ∃ msg, (chunk.foldl step b).cs = .error msg := by
        by_contra none
        exact running fun msg here => none ⟨msg, here⟩
      obtain ⟨msg, thrown⟩ := parse_failed here
      exact ⟨msg, by rw [thrown]; rfl⟩

end RestBody

/-! ## Fields -/

namespace Field

/-- The numbers of the field's type: a date of 32 bits, a state of 32 bits without a sign, or 64 bits. -/
def Holds : Field → Int → Prop
  | settlDate, n => -2 ^ 31 ≤ n ∧ n < 2 ^ 31
  | state, n => 0 ≤ n ∧ n < 2 ^ 32
  | _, n => -2 ^ 63 ≤ n ∧ n < 2 ^ 63

instance (f : Field) (n : Int) : Decidable (f.Holds n) := by
  cases f <;> exact inferInstanceAs (Decidable (_ ∧ _))

/-- What the field's type makes of a number. -/
def wrap : Field → Int → Int
  | settlDate, n => n.bmod (2 ^ 32)
  | state, n => n % 2 ^ 32
  | _, n => n.bmod (2 ^ 64)

theorem wrap_eq_iff (f : Field) (n : Int) : f.wrap n = n ↔ f.Holds n := by
  have date : n.bmod (2 ^ 32) = n ↔ -2 ^ 31 ≤ n ∧ n < 2 ^ 31 := by
    rw [Int.bmod_eq_iff (by decide)]
    omega
  have long : n.bmod (2 ^ 64) = n ↔ -2 ^ 63 ≤ n ∧ n < 2 ^ 63 := by
    rw [Int.bmod_eq_iff (by decide)]
    omega
  cases f with
  | settlDate => exact date
  | state =>
    simp only [wrap, Holds]
    omega
  | _ => exact long

end Field

namespace JsonValue

/-- The text, the number and the words of what is written: empty or zero for a null. -/
def string : JsonValue → Bytes
  | str letters => letters.map Letter.decode
  | null | num _ | word _ => []

def number : JsonValue → Int
  | num lit => lit.value
  | null | str _ | word _ => 0

def side : JsonValue → Option Side
  | word typed => if typed.map toLower = bytes "buy" then some .buy else some .sell
  | null | str _ | num _ => none

def liqInd : JsonValue → LiqInd
  | word typed => if typed.map toLower = bytes "maker" then .maker else .taker
  | null | str _ | num _ => .none

end JsonValue

namespace RestBody

/-- The accessor of a numeric field. -/
def number (b : RestBody) : Field → Int
  | .settlDate => b.settlDate
  | .state => b.state
  | .lots => b.lots
  | .ticks => b.ticks
  | .minLots => b.minLots
  | .symbol | .accnt | .instr | .ref | .side | .liqInd | .cpty => 0

/-- The body holds what is written last for each key. -/
structure Means (b : RestBody) (last : Field → JsonValue) : Prop where
  fields : ∀ f, f ∈ b.fields ↔ last f ≠ .null
  texts : ∀ f max, f.value = .str max → b.text f = (last f).string
  numbers : ∀ f, f.value = .num → b.number f = f.wrap (last f).number
  side : b.side = (last .side).side
  liqInd : b.liqInd = (last .liqInd).liqInd

theorem means_reset : reset.Means fun _ => .null where
  fields f := by simp [reset]
  texts f max _ := by cases f <;> rfl
  numbers f value := by cases f <;> rfl
  side := rfl
  liqInd := rfl

/-! ## One value -/

theorem num_setNum (b : RestBody) (lit : Literal) :
    (b.setNum lit.sign.unit lit.magnitude).num = lit.value.bmod (2 ^ 64) := by
  show (lit.sign.unit * ((lit.magnitude % 2 ^ 64 : Nat) : Int)).bmod (2 ^ 64) = lit.value.bmod (2 ^ 64)
  rw [Int.natCast_mod, Int.mul_emod_bmod, Literal.value]

theorem fields_enter (b : RestBody) {f : Field} {w : JsonValue} (suits : w.Suits f) (held : ¬ w.Refused f) (g : Field) :
    g ∈ (b.enter f w).fields ↔ if g = f then w ≠ .null else g ∈ b.fields := by
  have set : g ∈ (b.setField f).fields ↔ if g = f then True else g ∈ b.fields := by
    simp only [setField, List.mem_insert_iff]
    split <;> simp_all
  cases w with
  | null =>
    have cleared : (b.null f).fields = b.fields.filter (· ≠ f) := by cases f <;> rfl
    simp only [enter, cleared, List.mem_filter, decide_eq_true_eq]
    split <;> simp_all
  | str letters =>
    have entered : (b.enter f (.str letters)).fields = (b.setField f).fields := by cases f <;> rfl
    simpa [entered] using set
  | num lit =>
    have entered : (b.enter f (.num lit)).fields = (b.setField f).fields := by
      cases f with
      | state =>
        have notMinus : lit.sign ≠ .minus := fun minus => held ⟨rfl, minus⟩
        cases sign : lit.sign with
        | minus => exact absurd sign notMinus
        | none | plus => simp [enter, endNum, setNum, sign, Sign.unit, setField]
      | settlDate | lots | ticks | minLots => rfl
      | symbol | accnt | instr | ref | side | liqInd | cpty => cases suits
    simpa [entered] using set
  | word typed =>
    obtain ⟨words, value, -⟩ := suits
    have entered : (b.enter f (.word typed)).fields = (b.setField f).fields := by
      cases f <;> first | rfl | cases value
    simpa [entered] using set

/-- A value is stored in its own field. -/
theorem enter_aside (b : RestBody) {f g : Field} (w : JsonValue) (other : g ≠ f) :
    (b.enter f w).text g = b.text g ∧ (b.enter f w).number g = b.number g := by
  cases w with
  | null => cases f <;> cases g <;> first | exact ⟨rfl, rfl⟩ | exact absurd rfl other
  | str letters => cases f <;> cases g <;> first | exact ⟨rfl, rfl⟩ | exact absurd rfl other
  | word typed => cases f <;> exact ⟨rfl, rfl⟩
  | num lit =>
    cases f with
    | state =>
      simp only [enter, endNum]
      split <;> cases g <;> first | exact ⟨rfl, rfl⟩ | exact absurd rfl other
    | _ => cases g <;> first | exact ⟨rfl, rfl⟩ | exact absurd rfl other

theorem text_enter (b : RestBody) {f : Field} {w : JsonValue} (suits : w.Suits f) {max : Nat} (value : f.value = .str max) :
    (b.enter f w).text f = w.string := by
  cases w with
  | null => cases f <;> rfl
  | str letters => exact text_setText value _
  | num lit =>
    have number : f.value = .num := suits
    rw [value] at number
    cases number
  | word typed =>
    obtain ⟨words, isWord, -⟩ := suits
    rw [value] at isWord
    cases isWord

theorem number_enter (b : RestBody) {f : Field} {w : JsonValue} (suits : w.Suits f) (held : ¬ w.Refused f)
    (value : f.value = .num) : (b.enter f w).number f = f.wrap w.number := by
  cases w with
  | null => cases f <;> rfl
  | str letters =>
    obtain ⟨max, isStr⟩ := suits
    rw [value] at isStr
    cases isStr
  | word typed =>
    obtain ⟨words, isWord, -⟩ := suits
    rw [value] at isWord
    cases isWord
  | num lit =>
    have stored := num_setNum b lit
    -- The number is already wrapped to 64 bits when it is narrowed to the field's type.
    cases f with
    | settlDate =>
      show (b.setNum lit.sign.unit lit.magnitude).num.bmod (2 ^ 32) = lit.value.bmod (2 ^ 32)
      rw [stored, Int.bmod_bmod_of_dvd (by decide)]
    | state =>
      have positive : 0 ≤ (b.setNum lit.sign.unit lit.magnitude).sign := by
        show 0 ≤ lit.sign.unit
        cases sign : lit.sign with
        | minus => exact absurd ⟨rfl, sign⟩ held
        | none | plus => decide
      simp only [enter, endNum, positive, if_true, number, Field.wrap, JsonValue.number, stored]
      have whole : lit.value.bmod (2 ^ 64) % ((2 ^ 64 : Nat) : Int) = lit.value % ((2 ^ 64 : Nat) : Int) := Int.bmod_emod
      generalize lit.value.bmod (2 ^ 64) = word at whole ⊢
      omega
    | lots | ticks | minLots => exact stored
    | symbol | accnt | instr | ref | side | liqInd | cpty => cases value

theorem side_enter (b : RestBody) {f : Field} {w : JsonValue} (suits : w.Suits f) :
    (b.enter f w).side = if f = .side then w.side else b.side := by
  cases w with
  | null => cases f <;> first | rfl | cases suits
  | str letters => cases f <;> first | rfl | exact absurd suits (by rintro ⟨max, isStr⟩; cases isStr)
  | word typed => cases f <;> rfl
  | num lit =>
    cases f with
    | state =>
      simp only [enter, endNum]
      split <;> rfl
    | side => cases suits
    | _ => rfl

theorem liqInd_enter (b : RestBody) {f : Field} {w : JsonValue} (suits : w.Suits f) :
    (b.enter f w).liqInd = if f = .liqInd then w.liqInd else b.liqInd := by
  cases w with
  | null => cases f <;> rfl
  | str letters => cases f <;> first | rfl | exact absurd suits (by rintro ⟨max, isStr⟩; cases isStr)
  | word typed => cases f <;> rfl
  | num lit =>
    cases f with
    | state =>
      simp only [enter, endNum]
      split <;> rfl
    | liqInd => cases suits
    | _ => rfl

theorem Means.enter {b : RestBody} {last : Field → JsonValue} (means : b.Means last) {f : Field} {w : JsonValue}
    (suits : w.Suits f) (held : ¬ w.Refused f) : (b.enter f w).Means (Function.update last f w) where
  fields g := by
    rw [fields_enter b suits held, Function.update_apply, means.fields g]
    split <;> rfl
  texts g max value := by
    by_cases here : g = f
    · subst here
      rw [Function.update_self, text_enter b suits value]
    · rw [Function.update_of_ne here, (enter_aside b w here).1, means.texts g max value]
  numbers g value := by
    by_cases here : g = f
    · subst here
      rw [Function.update_self, number_enter b suits held value]
    · rw [Function.update_of_ne here, (enter_aside b w here).2, means.numbers g value]
  side := by
    rw [side_enter b suits, means.side]
    by_cases here : f = .side
    · simp [here]
    · simp [here, Ne.symm here]
  liqInd := by
    rw [liqInd_enter b suits, means.liqInd]
    by_cases here : f = .liqInd
    · simp [here]
    · simp [here, Ne.symm here]

/-! ## All values -/

/-- What is written last for a key, over what was written before. -/
def lastOf (before : Field → JsonValue) (ms : List Member) (f : Field) : JsonValue :=
  ((ms.filter (·.field = f)).getLast?.map Member.written).getD (before f)

theorem lastOf_cons (before : Field → JsonValue) (m : Member) (ms : List Member) :
    lastOf before (m :: ms) = lastOf (Function.update before m.field m.written) ms := by
  funext f
  by_cases here : m.field = f
  · subst here
    simp only [lastOf, decide_true, List.filter_cons_of_pos, List.getLast?_cons, Function.update_self]
    cases (ms.filter (·.field = m.field)).getLast? with
    | none => rfl
    | some _ => rfl
  · simp only [lastOf, here, decide_false, Bool.false_eq_true, not_false_eq_true, List.filter_cons_of_neg,
      Function.update_of_ne (Ne.symm here)]

theorem Means.enterAll {b : RestBody} {last : Field → JsonValue} (means : b.Means last) {ms : List Member}
    (held : ∀ m ∈ ms, ¬ m.Refused) : (b.enterAll ms).Means (lastOf last ms) := by
  induction ms generalizing b last with
  | nil => exact means
  | cons m ms inductionHypothesis =>
    rw [lastOf_cons]
    exact inductionHypothesis (means.enter m.suits (held m (List.mem_cons_self ..)))
      fun m member => held m (List.mem_cons_of_mem _ member)

theorem Means.goto {b : RestBody} {last : Field → JsonValue} (means : b.Means last) (cs : Cs) : (b.goto cs).Means last where
  fields := means.fields
  texts f max value := by rw [text_goto, means.texts f max value]
  numbers f value := by
    rw [← means.numbers f value]
    cases f <;> rfl
  side := means.side
  liqInd := means.liqInd

end RestBody

/-! ## Documents -/

namespace Document

/-- What is written at the last occurrence of a key.  A key that is absent is null. -/
def last (d : Document) (f : Field) : JsonValue := ((d.all.filter (·.field = f)).getLast?.map Member.written).getD .null

/-- A prefix of the text ends behind the closing brace, or before it. -/
theorem final_iff (d : Document) (held : ∀ m ∈ d.all, ¬ m.Refused) {read rest : Bytes} (split : read ++ rest = d.text) :
    (read.foldl step reset).cs = .final ↔ d.front.length < read.length := by
  constructor
  · intro isFinal
    by_contra short
    -- The rest of the front would be read in the final state, and the brace behind it.
    obtain ⟨more, front⟩ : read <+: d.front := by
      apply List.prefix_of_prefix_length_le (List.prefix_append read rest) _ (not_lt.mp short)
      rw [split, text]
      exact List.prefix_append _ _
    have closed := step_front d held
    rw [← front, List.append_assoc, List.foldl_append] at closed
    have stays : ∀ {b : RestBody} {s : Bytes}, b.cs = .final → ((s ++ [closeBrace]).foldl step b).cs ≠ .final := by
      intro b s
      induction s generalizing b with
      | nil =>
        intro finished
        simp [step, finished, show isSpace closeBrace = false from rfl, parseError, fail]
      | cons c s inductionHypothesis =>
        intro finished
        by_cases space : isSpace c
        · rw [List.cons_append, List.foldl_cons]
          apply inductionHypothesis
          simp [step, finished, space]
        · have failed : (b.step c).cs = .error "parse error" := by simp [step, finished, space, parseError, fail]
          rw [List.cons_append, List.foldl_cons, foldl_error failed, failed]
          simp
    exact stays isFinal (by rw [closed]; rfl)
  · intro long
    obtain ⟨more, behind⟩ : d.front ++ [closeBrace] <+: read := by
      apply List.prefix_of_prefix_length_le _ (List.prefix_append read rest)
      · rw [List.length_append, List.length_singleton]
        exact long
      · rw [split, text_eq]
        exact List.prefix_append _ _
    have spaces : ∀ c ∈ more, isSpace c := by
      intro c member
      apply d.after.spaces
      have same : more ++ rest = d.after.text := by
        rw [← behind, text_eq, List.append_assoc] at split
        exact List.append_cancel_left split
      rw [← same]
      exact List.mem_append_left _ member
    rw [← behind, List.foldl_append, step_front d held, step_blank (show Waits .final from trivial) spaces]
    rfl

/-- A document whose members are all read is read in any pieces. -/
theorem parses_held (d : Document) (held : ∀ m ∈ d.all, ¬ m.Refused) {chunks : List Bytes} (split : chunks.flatten = d.text) :
    ∃ b, reset.parses chunks = .ok
        ((List.range chunks.length).map fun i => decide (d.front.length < (chunks.take (i + 1)).flatten.length), b) ∧
      b.Means d.last := by
  have whole := step_document d held
  have running : (chunks.flatten.foldl step reset).Running := by
    rw [split, whole]
    intro msg failed
    cases failed
  have flags : ∀ i, decide (((chunks.take (i + 1)).flatten.foldl step reset).cs = .final) =
      decide (d.front.length < (chunks.take (i + 1)).flatten.length) := by
    intro i
    have joined : (chunks.take (i + 1)).flatten ++ (chunks.drop (i + 1)).flatten = d.text := by
      rw [← List.flatten_append, List.take_append_drop, split]
    rw [decide_eq_decide]
    exact final_iff d held joined
  exists chunks.flatten.foldl step reset
  constructor
  · rw [parses_running running]
    simp only [flags]
  · rw [split, whole]
    exact (means_reset.enterAll held).goto .final

theorem parses_refused (d : Document) (refused : ∃ m ∈ d.all, m.Refused) {chunks : List Bytes}
    (split : chunks.flatten = d.text) : ∃ msg, reset.parses chunks = .error ⟨.badRequest, msg⟩ := by
  obtain ⟨msg, failed⟩ := step_document_refused d refused
  rw [← split] at failed
  exact parses_failed (by intro msg failed; cases failed) failed

end Document

end Swirly
