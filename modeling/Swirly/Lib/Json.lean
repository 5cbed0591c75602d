import Swirly.Lib.Bytes

/-!
# JSON texts

The grammar of RFC 8259 over the bytes of UTF-8.  A derivation of an object shows its members: the bytes of each name and
of each value, as they stand in the text.  What stands at the front of the members can be told apart from what follows it.
-/

namespace Json

/-! ## Strings -/

def quote : UInt8 := 34
def comma : UInt8 := 44
def colon : UInt8 := 58
def backslash : UInt8 := 92

/-- The characters that need no escape. -/
def Unescaped (c : Char) : Prop := 32 ≤ c.toNat ∧ c.toNat ≠ quote.toNat ∧ c.toNat ≠ backslash.toNat

def isHex (c : UInt8) : Bool := (48 ≤ c && c ≤ 57) || (65 ≤ c && c ≤ 70) || (97 ≤ c && c ≤ 102)

/-- What stands between the quotes of a string. -/
inductive Chars : Bytes → Prop
  | nil : Chars []
  | unescaped {c : Char} {s : Bytes} (plain : Unescaped c) (rest : Chars s) : Chars (String.utf8EncodeChar c ++ s)
  | escaped {c : UInt8} {s : Bytes} (known : c ∈ bytes "\"\\/bfnrt") (rest : Chars s) : Chars (backslash :: c :: s)
  | unicode {digits s : Bytes} (four : digits.length = 4) (hex : ∀ c ∈ digits, isHex c) (rest : Chars s) :
      Chars (backslash :: 117 :: digits ++ s)

/-- Strings that are written as they are. -/
def Plain (s : Bytes) : Prop := ∃ cs : List Char, (∀ c ∈ cs, Unescaped c) ∧ cs.flatMap String.utf8EncodeChar = s

def quoted (s : Bytes) : Bytes := quote :: s ++ [quote]

/-! ## Numbers -/

def isDigit (c : UInt8) : Bool := 48 ≤ c && c ≤ 57

def Digits (w : Bytes) : Prop := w ≠ [] ∧ ∀ c ∈ w, isDigit c

/-- No digit may follow a zero in front. -/
def Whole (w : Bytes) : Prop := Digits w ∧ (w.head? = some 48 → w = [48])

def Fraction (w : Bytes) : Prop := w = [] ∨ ∃ digits, Digits digits ∧ w = 46 :: digits

def Exponent (w : Bytes) : Prop :=
  w = [] ∨ ∃ e sign digits, e ∈ bytes "eE" ∧ sign ∈ [[], bytes "+", bytes "-"] ∧ Digits digits ∧ w = e :: sign ++ digits

def Number (w : Bytes) : Prop :=
  ∃ sign whole fraction exponent, sign ∈ [[], bytes "-"] ∧ Whole whole ∧ Fraction fraction ∧ Exponent exponent ∧
    w = sign ++ whole ++ fraction ++ exponent

/-! ## Values -/

def isSpace (c : UInt8) : Bool := c = 32 || c = 9 || c = 10 || c = 13

def Space (w : Bytes) : Prop := ∀ c ∈ w, isSpace c

mutual

inductive Value : Bytes → Prop
  | word {w : Bytes} (known : w ∈ [bytes "null", bytes "true", bytes "false"]) : Value w
  | number {w : Bytes} (number : Number w) : Value w
  | string {s : Bytes} (chars : Chars s) : Value (quoted s)
  | array {w : Bytes} (elements : Elements w) : Value (91 :: w ++ [93])
  | emptyArray {w : Bytes} (space : Space w) : Value (91 :: w ++ [93])
  | object {members : List (Bytes × Bytes)} {w : Bytes} (object : Object members w) : Value w

/-- The values between the brackets of an array. -/
inductive Elements : Bytes → Prop
  | one {before after w : Bytes} (front : Space before) (value : Value w) (back : Space after) :
      Elements (before ++ w ++ after)
  | more {before after w rest : Bytes} (front : Space before) (value : Value w) (back : Space after)
      (others : Elements rest) : Elements (before ++ w ++ after ++ comma :: rest)

/-- A name and its value, with the white space around them. -/
inductive Member : Bytes → Bytes → Bytes → Prop
  | mk {before beforeColon afterColon after name w : Bytes} (front : Space before) (chars : Chars name)
      (left : Space beforeColon) (right : Space afterColon) (value : Value w) (back : Space after) :
      Member name w (before ++ quoted name ++ beforeColon ++ colon :: (afterColon ++ w ++ after))

/-- The members between the braces of an object, by their names and values. -/
inductive Members : List (Bytes × Bytes) → Bytes → Prop
  | one {name value w : Bytes} (member : Member name value w) : Members [(name, value)] w
  | more {name value w rest : Bytes} {members : List (Bytes × Bytes)} (member : Member name value w)
      (others : Members members rest) : Members ((name, value) :: members) (w ++ comma :: rest)

inductive Object : List (Bytes × Bytes) → Bytes → Prop
  | members {members : List (Bytes × Bytes)} {w : Bytes} (some : Members members w) : Object members (123 :: w ++ [125])
  | empty {w : Bytes} (space : Space w) : Object [] (123 :: w ++ [125])

end

/-! ## The end of a string

Where a string ends is seen from the backslashes alone. -/

/-- Bytes in which every quote stands behind a backslash. -/
inductive Scanned : Bytes → Prop
  | nil : Scanned []
  | plain {c : UInt8} {s : Bytes} (ordinary : c ≠ quote ∧ c ≠ backslash) (rest : Scanned s) : Scanned (c :: s)
  | escaped (c : UInt8) {s : Bytes} (rest : Scanned s) : Scanned (backslash :: c :: s)

theorem Scanned.append_plain {w s : Bytes} (ordinary : ∀ c ∈ w, c ≠ quote ∧ c ≠ backslash) (rest : Scanned s) :
    Scanned (w ++ s) := by
  induction w with
  | nil => exact rest
  | cons c w inductionHypothesis =>
    apply Scanned.plain (ordinary c (List.mem_cons_self ..))
    exact inductionHypothesis fun c inside => ordinary c (List.mem_cons_of_mem _ inside)

theorem Scanned.unique {s t rest rest' : Bytes} (scanned : Scanned s) (scanned' : Scanned t)
    (same : s ++ quote :: rest = t ++ quote :: rest') : s = t ∧ rest = rest' := by
  have differ : quote ≠ backslash := by decide
  induction scanned generalizing t with
  | nil =>
    cases scanned' with
    | nil => exact ⟨rfl, (List.cons.inj same).2⟩
    | plain ordinary => exact absurd (List.cons.inj same).1.symm ordinary.1
    | escaped => exact absurd (List.cons.inj same).1 differ
  | plain ordinary _ inductionHypothesis =>
    cases scanned' with
    | nil => exact absurd (List.cons.inj same).1 ordinary.1
    | plain _ scanned' =>
      obtain ⟨first, others⟩ := List.cons.inj same
      obtain ⟨equal, left⟩ := inductionHypothesis scanned' others
      exact ⟨by rw [first, equal], left⟩
    | escaped => exact absurd (List.cons.inj same).1 ordinary.2
  | escaped c _ inductionHypothesis =>
    cases scanned' with
    | nil => exact absurd (List.cons.inj same).1.symm differ
    | plain ordinary => exact absurd (List.cons.inj same).1.symm ordinary.2
    | escaped d scanned' =>
      obtain ⟨first, others⟩ := List.cons.inj (List.cons.inj same).2
      obtain ⟨equal, left⟩ := inductionHypothesis scanned' others
      exact ⟨by rw [first, equal], left⟩

/-- A byte below 128 is the whole encoding of its character. -/
theorem toNat_of_mem_encode {c : Char} {b : UInt8} (inside : b ∈ String.utf8EncodeChar c) (ascii : b.toNat < 128) :
    c.toNat = b.toNat := by
  by_cases small : c.val.toNat ≤ 127
  · simp only [String.utf8EncodeChar, if_pos small, List.mem_singleton] at inside
    have value : c.val.toNat = c.toNat := rfl
    rw [inside, UInt8.toNat_ofNat']
    omega
  · -- Every byte of a longer encoding has its highest bit set.
    exfalso
    simp only [String.utf8EncodeChar, if_neg small] at inside
    split_ifs at inside
    all_goals simp only [List.mem_cons, List.not_mem_nil, or_false] at inside
    · rcases inside with equal | equal <;> rw [equal, UInt8.toNat_ofNat'] at ascii <;> omega
    · rcases inside with equal | equal | equal <;> rw [equal, UInt8.toNat_ofNat'] at ascii <;> omega
    · rcases inside with equal | equal | equal | equal <;> rw [equal, UInt8.toNat_ofNat'] at ascii <;> omega

theorem ordinary_of_mem_encode {c : Char} (plain : Unescaped c) {b : UInt8} (inside : b ∈ String.utf8EncodeChar c) :
    b ≠ quote ∧ b ≠ backslash := by
  constructor
  · rintro rfl
    exact plain.2.1 (toNat_of_mem_encode inside (by decide))
  · rintro rfl
    exact plain.2.2 (toNat_of_mem_encode inside (by decide))

theorem Chars.scanned {s : Bytes} (chars : Chars s) : Scanned s := by
  induction chars with
  | nil => exact Scanned.nil
  | unescaped plain _ scanned => exact scanned.append_plain fun b inside => ordinary_of_mem_encode plain inside
  | escaped _ _ scanned => exact Scanned.escaped _ scanned
  | unicode _ hex _ scanned =>
    apply Scanned.escaped
    apply scanned.append_plain
    intro c inside
    have digit := hex c inside
    constructor <;> rintro rfl <;> exact absurd digit (by decide)

theorem Plain.ordinary {s : Bytes} (plain : Plain s) : ∀ c ∈ s, c ≠ quote ∧ c ≠ backslash := by
  obtain ⟨cs, unescaped, rfl⟩ := plain
  intro b inside
  obtain ⟨c, member, inside⟩ := List.mem_flatMap.mp inside
  exact ordinary_of_mem_encode (unescaped c member) inside

theorem Plain.chars {s : Bytes} (plain : Plain s) : Chars s := by
  obtain ⟨cs, unescaped, rfl⟩ := plain
  induction cs with
  | nil => exact Chars.nil
  | cons c cs inductionHypothesis =>
    rw [List.flatMap_cons]
    apply Chars.unescaped (unescaped c (List.mem_cons_self ..))
    exact inductionHypothesis fun c inside => unescaped c (List.mem_cons_of_mem _ inside)

/-- Without a backslash there is no escape. -/
theorem Chars.plain {s : Bytes} (chars : Chars s) (unescaped : backslash ∉ s) : Plain s := by
  induction chars with
  | nil => exact ⟨[], List.forall_mem_nil _, rfl⟩
  | @unescaped c s plain _ inductionHypothesis =>
    obtain ⟨cs, others, rfl⟩ := inductionHypothesis fun inside => unescaped (List.mem_append_right _ inside)
    exact ⟨c :: cs, List.forall_mem_cons.mpr ⟨plain, others⟩, List.flatMap_cons⟩
  | escaped => exact absurd (List.mem_cons_self ..) unescaped
  | unicode => exact absurd (List.mem_cons_self ..) unescaped

/-! ## The front of the members -/

/-- The bytes of numbers and words. -/
def isToken (c : UInt8) : Bool := isDigit c || (97 ≤ c && c ≤ 122) || c ∈ bytes "+-.E"

theorem Space.front {w rest rest' : Bytes} {c : UInt8} (space : Space w) (other : isSpace c = false)
    (same : w ++ rest = c :: rest') : w = [] := by
  cases w with
  | nil => rfl
  | cons d w =>
    obtain ⟨rfl, -⟩ := List.cons.inj same
    rw [space d (List.mem_cons_self ..)] at other
    cases other

theorem isToken_of_mem_digits {w : Bytes} (digits : Digits w) {c : UInt8} (inside : c ∈ w) : isToken c := by
  simp [isToken, digits.2 c inside]

theorem Number.token {w : Bytes} (number : Number w) : w ≠ [] ∧ ∀ c ∈ w, isToken c := by
  have signs : ∀ sign ∈ [[], bytes "+", bytes "-"], ∀ c ∈ sign, isToken c := by decide +kernel
  have letters : ∀ c ∈ 46 :: bytes "eE", isToken c := by decide +kernel
  obtain ⟨sign, whole, fraction, exponent, signed, digits, fractional, scaled, rfl⟩ := number
  have nonempty : whole ≠ [] := digits.1.1
  constructor
  · simp [nonempty]
  intro c inside
  simp only [List.mem_append] at inside
  rcases inside with ((inside | inside) | inside) | inside
  · rcases List.mem_cons.mp signed with rfl | signed
    · cases inside
    · exact signs sign (List.mem_cons_of_mem _ (List.mem_cons_of_mem _ signed)) c inside
  · exact isToken_of_mem_digits digits.1 inside
  · rcases fractional with rfl | ⟨ds, digits, rfl⟩
    · cases inside
    · rcases List.mem_cons.mp inside with rfl | inside
      · exact letters _ (List.mem_cons_self ..)
      · exact isToken_of_mem_digits digits inside
  · rcases scaled with rfl | ⟨e, sign, ds, letter, signed, digits, rfl⟩
    · cases inside
    · rw [List.cons_append, List.mem_cons, List.mem_append] at inside
      rcases inside with rfl | inside | inside
      · exact letters _ (List.mem_cons_of_mem _ letter)
      · exact signs sign signed c inside
      · exact isToken_of_mem_digits digits inside

theorem Value.nonempty {w : Bytes} (value : Value w) : w ≠ [] := by
  cases value with
  | word known =>
    rintro rfl
    exact absurd known (by decide)
  | number number => exact number.token.1
  | string | array | emptyArray => exact List.cons_ne_nil _ _
  | object object =>
    cases object with
    | members | empty => exact List.cons_ne_nil _ _

/-- A value that starts with a quote is a string. -/
theorem Value.string_of_quote {w : Bytes} (value : Value (quote :: w)) : ∃ s, Chars s ∧ w = s ++ [quote] := by
  generalize whole : quote :: w = v at value
  cases value with
  | word known =>
    subst whole
    simp [bytes, quote] at known
  | number number =>
    subst whole
    exact absurd (number.token.2 quote (List.mem_cons_self ..)) (by decide +kernel)
  | string chars => exact ⟨_, chars, (List.cons.inj whole).2⟩
  | array => exact absurd (List.cons.inj whole).1 (by decide)
  | emptyArray => exact absurd (List.cons.inj whole).1 (by decide)
  | object object =>
    cases object with
    | members => exact absurd (List.cons.inj whole).1 (by decide)
    | empty => exact absurd (List.cons.inj whole).1 (by decide)

/-- A value that starts as numbers and words do is one of them. -/
theorem Value.token {c : UInt8} {w : Bytes} (value : Value (c :: w)) (first : isToken c) : ∀ d ∈ c :: w, isToken d := by
  have brackets : ∀ c ∈ [quote, 91, 123], isToken c = false := by decide +kernel
  generalize whole : c :: w = v at value
  cases value with
  | word known =>
    have all : ∀ w ∈ [bytes "null", bytes "true", bytes "false"], ∀ c ∈ w, isToken c := by decide +kernel
    exact all v known
  | number number => exact number.token.2
  | string | array | emptyArray =>
    exfalso
    rw [(List.cons.inj whole).1, brackets _ (by simp)] at first
    cases first
  | object object =>
    cases object with
    | members | empty =>
      exfalso
      rw [(List.cons.inj whole).1, brackets _ (by simp)] at first
      cases first

/-- Where the text of a member may end. -/
def Ends (rest : Bytes) : Prop := rest = [] ∨ ∃ more, rest = comma :: more

theorem Member.front {name value w rest : Bytes} (member : Member name value w) {known front : Bytes} {c : UInt8}
    (scanned : Scanned known) (solid : isSpace c = false) (same : w ++ rest = quoted known ++ colon :: c :: front) :
    name = known ∧ Value value ∧ ∃ after, Space after ∧ c :: front = value ++ after ++ rest := by
  have notSpace : isSpace quote = false ∧ isSpace colon = false := by decide
  cases member with
  | @mk before beforeColon afterColon after _ _ space chars left right valid back =>
    have nothing : before = [] := by
      apply space.front notSpace.1
      simpa [quoted] using same
    subst nothing
    have names : name ++ quote :: (beforeColon ++ colon :: (afterColon ++ value ++ after) ++ rest) =
        known ++ quote :: colon :: c :: front := by
      simpa [quoted] using same
    obtain ⟨rfl, same⟩ := chars.scanned.unique scanned names
    have nothing : beforeColon = [] := by
      apply left.front notSpace.2
      simpa using same
    subst nothing
    have same : afterColon ++ (value ++ after ++ rest) = c :: front := by simpa using same
    have nothing : afterColon = [] := right.front solid same
    subst nothing
    exact ⟨rfl, valid, after, back, same.symm⟩

/-- A string that is known to end is the value, and so is a number or a word. -/
inductive Simple : Bytes → Prop
  | string {s : Bytes} (scanned : Scanned s) : Simple (quoted s)
  | token {w : Bytes} (nonempty : w ≠ []) (tokens : ∀ c ∈ w, isToken c) : Simple w

theorem Ends.nothing {after rest more : Bytes} (space : Space after) (ends : Ends more) (same : more = after ++ rest) :
    after = [] := by
  obtain rfl | ⟨more, rfl⟩ := ends
  · exact (List.append_eq_nil_iff.mp same.symm).1
  · exact space.front (by decide) same.symm

theorem token_unique {v w rest more : Bytes} (tokens : ∀ c ∈ v, isToken c) (tokens' : ∀ c ∈ w, isToken c)
    (stops : ∀ c ∈ rest.head?, isToken c = false) (stops' : ∀ c ∈ more.head?, isToken c = false)
    (same : v ++ rest = w ++ more) : v = w := by
  have whole : ∀ {v rest : Bytes}, (∀ c ∈ v, isToken c) → (∀ c ∈ rest.head?, isToken c = false) →
      (v ++ rest).takeWhile isToken = v := by
    intro v rest tokens stops
    rw [List.takeWhile_append_of_pos tokens]
    cases rest with
    | nil => rw [List.takeWhile_nil, List.append_nil]
    | cons c rest => rw [List.takeWhile_cons, stops c rfl, if_neg Bool.false_ne_true, List.append_nil]
  rw [← whole tokens stops, same, whole tokens' stops']

theorem not_token_of_space {c : UInt8} (space : isSpace c) : isToken c = false := by
  simp only [isSpace, Bool.or_eq_true, decide_eq_true_eq] at space
  rcases space with ((rfl | rfl) | rfl) | rfl <;> decide +kernel

theorem Ends.stops {after rest : Bytes} (space : Space after) (ends : Ends rest) :
    ∀ c ∈ (after ++ rest).head?, isToken c = false := by
  intro c first
  cases after with
  | nil =>
    obtain rfl | ⟨more, rfl⟩ := ends
    · cases first
    · cases first
      decide +kernel
  | cons d after =>
    cases first
    exact not_token_of_space (space c (List.mem_cons_self ..))

theorem Member.front_simple {name value w rest : Bytes} (member : Member name value w) {known v more : Bytes}
    (scanned : Scanned known) (simple : Simple v) (ends : Ends rest) (ends' : Ends more)
    (same : w ++ rest = quoted known ++ colon :: (v ++ more)) : name = known ∧ value = v ∧ rest = more := by
  -- A string ends at its closing quote, a bare token where the characters of tokens end.
  cases simple with
  | @string s inside =>
    obtain ⟨rfl, valid, after, space, split⟩ := member.front scanned (c := quote) (by decide) same
    cases value with
    | nil => exact absurd rfl valid.nonempty
    | cons c value =>
      obtain ⟨rfl, split⟩ := List.cons.inj split
      obtain ⟨t, chars, rfl⟩ := valid.string_of_quote
      have strings : s ++ quote :: more = t ++ quote :: (after ++ rest) := by simpa using split
      obtain ⟨rfl, left⟩ := inside.unique chars.scanned strings
      cases ends'.nothing space left
      exact ⟨rfl, rfl, left.symm⟩
  | token nonempty tokens =>
    cases v with
    | nil => exact absurd rfl nonempty
    | cons c v =>
      have first : isToken c := tokens c (List.mem_cons_self ..)
      -- A token does not start with a blank, so the value starts where it does.
      have solid : isSpace c = false := by
        by_contra space
        rw [not_token_of_space (by simpa using space)] at first
        cases first
      obtain ⟨rfl, valid, after, space, split⟩ := member.front scanned solid same
      cases value with
      | nil => exact absurd rfl valid.nonempty
      | cons d value =>
        cases (List.cons.inj split).1
        have split : c :: v ++ more = c :: value ++ (after ++ rest) := by simpa using split
        have equal : c :: v = c :: value := by
          apply token_unique tokens (valid.token first) _ (ends.stops space) split
          exact @Ends.stops [] more (List.forall_mem_nil _) ends'
        rw [equal, List.append_cancel_left_eq] at split
        cases ends'.nothing space split
        exact ⟨rfl, equal.symm, split.symm⟩

/-! ## Member after member -/

/-- A member without white space. -/
def member (p : Bytes × Bytes) : Bytes := quoted p.1 ++ colon :: p.2

def rendered (ps : List (Bytes × Bytes)) : Bytes := [comma].intercalate (ps.map member)

/-- What follows a member. -/
def others (ps : List (Bytes × Bytes)) : Bytes := if ps = [] then [] else comma :: rendered ps

theorem rendered_cons (p : Bytes × Bytes) (ps : List (Bytes × Bytes)) :
    rendered (p :: ps) = quoted p.1 ++ colon :: (p.2 ++ others ps) := by
  cases ps with
  | nil => simp [rendered, others, member, List.intercalate]
  | cons q ps => simp [rendered, others, member, List.intercalate]

theorem ends_others (ps : List (Bytes × Bytes)) : Ends (others ps) := by
  rw [others]
  split
  · exact Or.inl rfl
  · exact Or.inr ⟨_, rfl⟩

theorem Members.of_rendered {ps : List (Bytes × Bytes)} (some : ps ≠ []) (valid : ∀ p ∈ ps, Chars p.1 ∧ Value p.2) :
    Members ps (rendered ps) := by
  have nothing : Space [] := List.forall_mem_nil _
  induction ps with
  | nil => exact absurd rfl some
  | cons p ps inductionHypothesis =>
    obtain ⟨chars, value⟩ := valid p (List.mem_cons_self ..)
    have first := Member.mk nothing chars nothing nothing value nothing
    rw [rendered_cons, others]
    split
    · subst ps
      simpa using Members.one first
    · have rest := inductionHypothesis ‹_› fun p inside => valid p (List.mem_cons_of_mem _ inside)
      simpa using Members.more first rest

/-- Only white space stands in an object without members. -/
theorem Object.inside {ms ps : List (Bytes × Bytes)} {p : Bytes × Bytes} (object : Object ms (123 :: rendered (p :: ps) ++ [125])) :
    Members ms (rendered (p :: ps)) := by
  generalize text : 123 :: rendered (p :: ps) ++ [125] = w at object
  cases object with
  | members some => rwa [List.append_cancel_right (List.cons.inj text).2]
  | empty space =>
    have inside := List.append_cancel_right (List.cons.inj text).2
    rw [rendered_cons] at inside
    rw [← inside] at space
    exact absurd (space quote (List.mem_cons_self ..)) (by decide)

/-- The first member, and the text of those that follow it. -/
theorem Members.uncons {ms : List (Bytes × Bytes)} {w : Bytes} (members : Members ms w) :
    ∃ name value front rest ms', ms = (name, value) :: ms' ∧ Member name value front ∧ w = front ++ rest ∧
      ((ms' = [] ∧ rest = []) ∨ ∃ more, rest = comma :: more ∧ Members ms' more) := by
  cases members with
  | one member => exact ⟨_, _, w, [], [], rfl, member, (List.append_nil w).symm, Or.inl ⟨rfl, rfl⟩⟩
  | more member others => exact ⟨_, _, _, _, _, rfl, member, rfl, Or.inr ⟨_, rfl, others⟩⟩

theorem Members.front {ms ps : List (Bytes × Bytes)} {p : Bytes × Bytes} (members : Members ms (rendered (p :: ps)))
    (scanned : Scanned p.1) (simple : Simple p.2) :
    ∃ ms', ms = p :: ms' ∧ ((ms' = [] ∧ ps = []) ∨ (ps ≠ [] ∧ Members ms' (rendered ps))) := by
  obtain ⟨name, value, front, rest, ms', rfl, member, split, follow⟩ := members.uncons
  have ends : Ends rest := by
    rcases follow with ⟨-, none⟩ | ⟨more, some, -⟩
    · exact Or.inl none
    · exact Or.inr ⟨more, some⟩
  rw [rendered_cons] at split
  obtain ⟨rfl, rfl, rfl⟩ := member.front_simple scanned simple ends (ends_others ps) split.symm
  refine ⟨ms', rfl, ?_⟩
  rcases follow with ⟨none, nothing⟩ | ⟨more, some, others⟩
  · rw [others] at nothing
    split at nothing
    · exact Or.inl ⟨none, ‹_›⟩
    · cases nothing
  · rw [Json.others] at some
    split at some
    · cases some
    · cases some
      exact Or.inr ⟨‹_›, others⟩

/-- The first value is a string when a quote comes first, even if it is not known where it ends. -/
theorem Members.front_string {ms ps : List (Bytes × Bytes)} {p : Bytes × Bytes} (members : Members ms (rendered (p :: ps)))
    (scanned : Scanned p.1) {s : Bytes} (string : p.2 = quoted s) :
    ∃ t rest more, Chars t ∧ (p.1, quoted t) ∈ ms ∧ t ++ quote :: rest = s ++ quote :: more := by
  obtain ⟨name, value, front, rest, ms', rfl, member, split, -⟩ := members.uncons
  rw [rendered_cons, string] at split
  obtain ⟨rfl, valid, after, -, split⟩ := member.front scanned (c := quote) (by decide) split.symm
  cases value with
  | nil => exact absurd rfl valid.nonempty
  | cons c value =>
    obtain ⟨rfl, split⟩ := List.cons.inj split
    obtain ⟨t, chars, rfl⟩ := valid.string_of_quote
    refine ⟨t, after ++ rest, others ps, chars, List.mem_cons_self .., ?_⟩
    simpa using split.symm

end Json
