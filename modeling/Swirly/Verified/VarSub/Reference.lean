import Swirly.Util.VarSub

/-!
# What substitution means

First, what a turn of the loop does to a string that the innermost call has read up to some character.

A string is read from left to right as characters and braces, and the braces pair up.  A reference is the text between a pair of
braces, which stands for the value of its name.  The code reads a string in another way: behind an escaped character it passes
over one character more.
-/

namespace Swirly

namespace VarSub

open Machine

/-! ## Turns -/

/-- The innermost call has come to the rest of the string. -/
def reading (front rest : Bytes) (call : Call) (callers : List Call) : Substitution :=
  { s := front ++ rest, call := { call with j := front.length }, callers }

section Turns

variable (fn : Bytes → Bytes) (front rest : Bytes) {call : Call} (callers : List Call) {ch : UInt8}

theorem reading_char (call : Call) (ch : UInt8) :
    (reading front (ch :: rest) call callers).s[(reading front (ch :: rest) call callers).call.j]? = some ch := by
  simp [reading]

/-- The next character is passed over. -/
theorem reading_next (call : Call) (ch state : UInt8) :
    (reading front (ch :: rest) call callers).next state = reading (front ++ [ch]) rest { call with state } callers := by
  simp [reading, Substitution.next]

theorem step_end (call : Call) : (reading front [] call callers).step fn = none := by
  simp [Substitution.step, reading]

theorem step_special (unescaped : call.state ≠ backslash) (special : ch = dollar ∨ ch = backslash) :
    (reading front (ch :: rest) call callers).step fn = some (reading (front ++ [ch]) rest { call with state := ch } callers) := by
  have closed : ¬ (call.state = dollar ∧ ch = openBrace) := by
    rintro ⟨-, rfl⟩
    exact absurd special (by decide)
  have state : (reading front (ch :: rest) call callers).call.state = call.state := rfl
  rw [Substitution.step, reading_char]
  simp only [state, if_neg unescaped, if_neg closed, if_pos special, reading_next]

theorem step_plain (unescaped : call.state ≠ backslash) (closed : ¬ (call.state = dollar ∧ ch = openBrace))
    (ordinary : ch ≠ dollar ∧ ch ≠ backslash) (unmatched : ch = closeBrace → callers = []) :
    (reading front (ch :: rest) call callers).step fn = some (reading (front ++ [ch]) rest { call with state := 0 } callers) := by
  have special : ¬ (ch = dollar ∨ ch = backslash) := not_or.mpr ordinary
  have state : (reading front (ch :: rest) call callers).call.state = call.state := rfl
  rw [Substitution.step, reading_char]
  simp only [state, if_neg unescaped, if_neg closed, if_neg special, reading_next]
  split
  next brace =>
    rw [unmatched brace]
    rfl
  next => rfl

/-- The backslash is removed, and the character behind the escaped one is passed over. -/
theorem step_unescape (escaped : call.state = backslash) (c d : UInt8) :
    (reading (front ++ [backslash]) (c :: d :: rest) call callers).step fn =
      some (reading (front ++ [c, d]) rest { call with state := 0 } callers) := by
  have state : (reading (front ++ [backslash]) (c :: d :: rest) call callers).call.state = backslash := escaped
  rw [Substitution.step, reading_char, state]
  simp [reading, Substitution.unescape, Substitution.next, List.eraseIdx_append_of_length_le]

/-- There is no character behind the escaped one. -/
theorem step_unescape_last (escaped : call.state = backslash) (c : UInt8) :
    ∃ st, (reading (front ++ [backslash]) [c] call callers).step fn = some st ∧ st.s = front ++ [c] ∧ st.step fn = none := by
  refine ⟨(reading (front ++ [backslash]) [c] call callers).unescape.next 0, ?_, ?_, ?_⟩
  · have state : (reading (front ++ [backslash]) [c] call callers).call.state = backslash := escaped
    rw [Substitution.step, reading_char, state]
    exact if_pos rfl
  · simp [reading, Substitution.unescape, Substitution.next, List.eraseIdx_append_of_length_le]
  · simp [reading, Substitution.unescape, Substitution.next, Substitution.step, List.eraseIdx_append_of_length_le]

/-- The call that waits for the closing brace. -/
def waiting (call : Call) (place : Nat) : Call :=
  if call.last ≤ place then { call with last := place + 1, inner := [], state := 0, j := place }
  else { call with state := 0, j := place }

theorem waiting_i (call : Call) (place : Nat) : (waiting call place).i = call.i := by
  rw [waiting]
  split <;> rfl

theorem waiting_j (call : Call) (place : Nat) : (waiting call place).j = place := by
  rw [waiting]
  split <;> rfl

theorem waiting_state (call : Call) (place : Nat) : (waiting call place).state = 0 := by
  rw [waiting]
  split <;> rfl

theorem waiting_last (call : Call) (place : Nat) : (waiting call place).last = max call.last (place + 1) := by
  rw [waiting]
  split
  next advanced => exact (max_eq_right (Nat.le_succ_of_le advanced)).symm
  next same => exact (max_eq_left (Nat.lt_of_not_le same)).symm

/-- The names that the guard knows at a position. -/
def guard (call : Call) (place : Nat) : List Bytes := if call.last ≤ place then [] else call.inner

theorem waiting_inner (call : Call) (place : Nat) : (waiting call place).inner = guard call place := by
  rw [waiting, guard]
  split <;> rfl

theorem guard_eq {call : Call} {place : Nat} (later : place < call.last) : guard call place = call.inner :=
  if_neg (Nat.not_le_of_lt later)

theorem step_open (pending : call.state = dollar) :
    (reading (front ++ [dollar]) (openBrace :: rest) call callers).step fn =
      some (reading (front ++ [dollar, openBrace]) rest (.search front.length 0) (waiting call front.length :: callers)) := by
  have unescaped : ¬ dollar = backslash := by decide
  have state : (reading (front ++ [dollar]) (openBrace :: rest) call callers).call.state = dollar := pending
  rw [Substitution.step, reading_char, state]
  simp only [if_neg unescaped, and_self, if_true, Option.some.injEq]
  rw [waiting]
  by_cases advanced : call.last ≤ front.length
  · have later : front.length + 1 > call.last := Nat.lt_succ_of_le advanced
    simp [reading, Substitution.descend, Call.search, advanced, later]
  · have same : ¬ front.length + 1 > call.last := by omega
    simp [reading, Substitution.descend, Call.search, advanced, same]

/-- The text that a name and its braces are replaced by. -/
theorem step_close {caller : Call} (name : Bytes) (unescaped : call.state ≠ backslash) (place : call.i = front.length)
    (back : caller.j = front.length) :
    (reading (front ++ dollar :: openBrace :: name) (closeBrace :: rest) call (caller :: callers)).step fn =
      some (if name ∉ caller.inner then reading front (fn name ++ rest) { caller with inner := name :: caller.inner } callers
        else reading front rest caller callers) := by
  have special : ¬ (closeBrace = dollar ∨ closeBrace = backslash) := by decide
  have closed : ¬ (call.state = dollar ∧ closeBrace = openBrace) := by
    rintro ⟨-, brace⟩
    exact absurd brace (by decide)
  have state : (reading (front ++ dollar :: openBrace :: name) (closeBrace :: rest) call (caller :: callers)).call.state = call.state := rfl
  have between : (reading (front ++ dollar :: openBrace :: name) (closeBrace :: rest) call (caller :: callers)).name = name := by
    simp [Substitution.name, reading, place]
  have replaced (text : Bytes) :
      (reading (front ++ dollar :: openBrace :: name) (closeBrace :: rest) call (caller :: callers)).replace text =
        front ++ (text ++ rest) := by
    simp [Substitution.replace, reading, place]
  rw [Substitution.step, reading_char]
  simp only [state, if_neg unescaped, if_neg closed, if_neg special, if_true]
  have ascends := Substitution.ascend.eq_def fn
    (reading (front ++ dollar :: openBrace :: name) (closeBrace :: rest) call (caller :: callers)) caller callers
  rw [between, replaced, replaced] at ascends
  refine (congrArg some ascends).trans (congrArg some ?_)
  split
  next => simp [reading, ← back]
  next => simp [reading, ← back]

end Turns

/-! ## Texts -/

inductive Piece where
  | char (c : UInt8)
  | opens
  | closes
  deriving DecidableEq

/-- A character without a backslash before it and without a brace behind it. -/
def Piece.single (c : UInt8) : Piece := if c = closeBrace then closes else char c

/-- A backslash followed by any character stands for that character. -/
def read : Bytes → List Piece
  | [] => []
  | [c] => [.single c]
  | c :: d :: rest =>
    if c = backslash then .char d :: read rest
    else if c = dollar ∧ d = openBrace then .opens :: read rest
    else .single c :: read (d :: rest)

/-- The same, but the character behind an escaped one is taken for itself, whatever it is. -/
def skim : Bytes → List Piece
  | [] => []
  | [c] => [.single c]
  | c :: d :: rest =>
    if c = backslash then
      match rest with
      | [] => [.char d]
      | e :: rest => .char d :: .char e :: skim rest
    else if c = dollar ∧ d = openBrace then .opens :: skim rest
    else .single c :: skim (d :: rest)

theorem skim_opens (rest : Bytes) : skim (dollar :: openBrace :: rest) = .opens :: skim rest := by
  rw [skim.eq_def]
  exact (if_neg (by decide)).trans (if_pos ⟨rfl, rfl⟩)

theorem skim_single {c d : UInt8} {rest : Bytes} (notBackslash : c ≠ backslash) (single : ¬ (c = dollar ∧ d = openBrace)) :
    skim (c :: d :: rest) = .single c :: skim (d :: rest) := by
  rw [skim.eq_def]
  exact (if_neg notBackslash).trans (if_neg single)

theorem skim_head {c : UInt8} (notBackslash : c ≠ backslash) (notDollar : c ≠ dollar) (rest : Bytes) :
    skim (c :: rest) = .single c :: skim rest := by
  cases rest with
  | nil => rfl
  | cons d rest => exact skim_single notBackslash fun opened => notDollar opened.1

/-- Characters and references. -/
inductive Text where
  | nil
  | char (c : UInt8) (rest : Text)
  | ref (name rest : Text)
  deriving DecidableEq

namespace Text

def append : Text → Text → Text
  | nil, t => t
  | char c rest, t => char c (rest.append t)
  | ref name rest, t => ref name (rest.append t)

/-- The expansion: nested references first. -/
def eval (fn : Bytes → Bytes) : Text → Bytes
  | nil => []
  | char c rest => c :: rest.eval fn
  | ref name rest => fn (name.eval fn) ++ rest.eval fn

@[simp] theorem eval_append (fn : Bytes → Bytes) (t u : Text) : (t.append u).eval fn = t.eval fn ++ u.eval fn := by
  induction t with
  | nil => rfl
  | char c rest inductionHypothesis => simp [append, eval, inductionHypothesis]
  | ref name rest _ inductionHypothesis => simp [append, eval, inductionHypothesis]

@[simp] theorem append_nil (t : Text) : t.append .nil = t := by
  induction t with
  | nil => rfl
  | char c rest inductionHypothesis => rw [append, inductionHypothesis]
  | ref name rest _ inductionHypothesis => rw [append, inductionHypothesis]

theorem append_assoc (t u v : Text) : (t.append u).append v = t.append (u.append v) := by
  induction t with
  | nil => rfl
  | char c rest inductionHypothesis => simp [append, inductionHypothesis]
  | ref name rest _ inductionHypothesis => simp [append, inductionHypothesis]

end Text

/-- The opening braces that are not matched stand for themselves. -/
def unwind : List Text → Text → Text
  | [], t => t
  | before :: stack, t => unwind stack (before.append (.char dollar (.char openBrace t)))

/-- Pair up the braces: the texts before each opening brace that is still open, and the text behind the last one. -/
def parse : List Text → Text → List Piece → Text
  | stack, t, [] => unwind stack t
  | stack, t, .char c :: pieces => parse stack (t.append (.char c .nil)) pieces
  | stack, t, .opens :: pieces => parse (t :: stack) .nil pieces
  | [], t, .closes :: pieces => parse [] (t.append (.char closeBrace .nil)) pieces
  | before :: stack, t, .closes :: pieces => parse stack (before.append (.ref t .nil)) pieces

/-- No character that means something. -/
def Plain (value : Bytes) : Prop := ∀ c ∈ value, c ≠ dollar ∧ c ≠ openBrace ∧ c ≠ closeBrace ∧ c ≠ backslash

instance (value : Bytes) : Decidable (Plain value) :=
  inferInstanceAs (Decidable (∀ c ∈ value, c ≠ dollar ∧ c ≠ openBrace ∧ c ≠ closeBrace ∧ c ≠ backslash))

/-! ## Simulation -/

/-- Some turns later. -/
def Reaches (fn : Bytes → Bytes) (st st' : Substitution) : Prop := ∃ n, after (Substitution.step fn) n st = some st'

/-- What texts become, and what is known of the names that a call has seen at a position. -/
structure Meaning where
  Writes : Text → Bytes → Prop
  /-- What takes the place of a reference. -/
  Replaces : Bytes → Bytes → Prop
  Guards : Call → Nat → Prop
  nil : Writes .nil []
  char (c : UInt8) : Writes (.char c .nil) [c]
  ref {t : Text} {name value : Bytes} (spelled : Writes t name) (replaced : Replaces name value) : Writes (.ref t .nil) value
  append {t u : Text} {v w : Bytes} (first : Writes t v) (second : Writes u w) : Writes (t.append u) (v ++ w)
  begins (i j place : Nat) : Guards (.search i j) place
  next {call other : Call} {place later : Nat} (guards : Guards call place) (advanced : place + 1 ≤ later)
    (same : other.last = call.last) : Guards other later
  waits {call : Call} {place : Nat} (guards : Guards call place) : Guards (waiting call place) place

/-- What takes the place of a reference to the name is passed over. -/
def Meaning.Passes (m : Meaning) (fn : Bytes → Bytes) (name : Bytes) : Prop :=
  ∀ (front rest : Bytes) (caller : Call) (callers : List Call), caller.state = 0 → front.length < caller.last →
    m.Guards caller front.length → ∃ value caller', m.Replaces name value ∧
      Reaches fn (if name ∉ caller.inner then reading front (fn name ++ rest) { caller with inner := name :: caller.inner } callers
        else reading front rest caller callers) (reading (front ++ value) rest caller' callers) ∧
      caller'.i = caller.i ∧ caller'.state = 0 ∧ m.Guards caller' (front ++ value).length

/-- The text may refer to the name. -/
def Meaning.Mentions (m : Meaning) : Text → Bytes → Prop
  | .nil, _ => False
  | .char _ rest, name => m.Mentions rest name
  | .ref t rest, name => m.Writes t name ∨ m.Mentions t name ∨ m.Mentions rest name

/-- No character before the rest matters for it. -/
def Idle (state : UInt8) (rest : Bytes) : Prop := rest = [] ∨ state = 0 ∨ state = dollar ∧ rest.head? ≠ some openBrace

variable {m : Meaning} {fn : Bytes → Bytes} {stack : List Text} {t before : Text} {front : Bytes} {call caller : Call}
  {callers : List Call} {rest : Bytes}

theorem Reaches.refl (st : Substitution) : Reaches fn st st := ⟨0, rfl⟩

theorem Reaches.head {st st' last : Substitution} (stepped : st.step fn = some st') (reaches : Reaches fn st' last) :
    Reaches fn st last := by
  obtain ⟨n, reached⟩ := reaches
  exact ⟨n + 1, (after_succ stepped).trans reached⟩

theorem Reaches.trans {st st' last : Substitution} (first : Reaches fn st st') (second : Reaches fn st' last) :
    Reaches fn st last := by
  obtain ⟨m, first⟩ := first
  obtain ⟨n, second⟩ := second
  exact ⟨m + n, after_trans first second⟩

theorem Idle.unescaped {state : UInt8} {c : UInt8} (idle : Idle state (c :: rest)) : state ≠ backslash := by
  obtain none_ | rfl | ⟨rfl, -⟩ := idle
  · cases none_
  · decide
  · decide

theorem Idle.closed {state : UInt8} {c : UInt8} (idle : Idle state (c :: rest)) : ¬ (state = dollar ∧ c = openBrace) := by
  rintro ⟨rfl, rfl⟩
  obtain none_ | zero | ⟨-, other⟩ := idle
  · cases none_
  · exact absurd zero (by decide)
  · exact other rfl

theorem Meaning.mentions_append {t u : Text} {name : Bytes} :
    m.Mentions (t.append u) name ↔ m.Mentions t name ∨ m.Mentions u name := by
  induction t with
  | nil => simp [Text.append, Mentions]
  | char c rest inductionHypothesis => simpa [Text.append, Mentions] using inductionHypothesis
  | ref inner rest _ inductionHypothesis => simp [Text.append, Mentions, inductionHypothesis, or_assoc]

theorem Meaning.mentions_unwind {name : Bytes} (mentioned : m.Mentions t name ∨ ∃ before ∈ stack, m.Mentions before name) :
    m.Mentions (unwind stack t) name := by
  induction stack generalizing t with
  | nil => simpa [unwind] using mentioned
  | cons before stack inductionHypothesis =>
    apply inductionHypothesis
    simp only [List.exists_mem_cons_iff] at mentioned
    simp only [mentions_append, Mentions]
    tauto

/-- What has been read is mentioned in the end. -/
theorem Meaning.mentions_parse {name : Bytes} (mentioned : m.Mentions t name ∨ ∃ before ∈ stack, m.Mentions before name)
    (pieces : List Piece) : m.Mentions (parse stack t pieces) name := by
  fun_induction parse stack t pieces with
  | case1 => exact mentions_unwind mentioned
  | case2 stack t c pieces inductionHypothesis =>
    apply inductionHypothesis
    simpa [mentions_append, Mentions] using mentioned
  | case3 stack t pieces inductionHypothesis =>
    apply inductionHypothesis
    simpa [List.exists_mem_cons_iff, Mentions] using mentioned
  | case4 t pieces inductionHypothesis =>
    apply inductionHypothesis
    simpa [mentions_append, Mentions] using mentioned
  | case5 t pieces before stack inductionHypothesis =>
    apply inductionHypothesis
    simp only [List.exists_mem_cons_iff] at mentioned
    simp only [mentions_append, Mentions]
    tauto

/-- The calls belong to the open braces, and the texts before and behind the braces have been written. -/
inductive Frames (m : Meaning) : List Text → Text → Bytes → Call → List Call → Prop
  | top {t : Text} {w : Bytes} {call : Call} (written : m.Writes t w) : Frames m [] t w call []
  | inside {stack : List Text} {t before : Text} {front w : Bytes} {call caller : Call} {callers : List Call}
    (outer : Frames m stack before front caller callers) (back : caller.j = front.length) (idle : caller.state = 0)
    (later : front.length < caller.last) (guards : m.Guards caller front.length) (place : call.i = front.length)
    (written : m.Writes t w) : Frames m (before :: stack) t (front ++ dollar :: openBrace :: w) call (caller :: callers)

theorem Frames.congr (frames : Frames m stack t front call callers) {other : Call} (same : other.i = call.i) :
    Frames m stack t front other callers := by
  cases frames with
  | top written => exact .top written
  | inside outer back idle later guards place written => exact .inside outer back idle later guards (same.trans place) written

theorem Frames.append (frames : Frames m stack t front call callers) {u : Text} {w : Bytes} (written : m.Writes u w) :
    Frames m stack (t.append u) (front ++ w) call callers := by
  cases frames with
  | top first => exact .top (m.append first written)
  | inside outer back idle later guards place first =>
    rw [List.append_assoc]
    exact .inside outer back idle later guards place (m.append first written)

/-- In the end the open braces stand for themselves. -/
theorem Frames.unwind (frames : Frames m stack t front call callers) : m.Writes (unwind stack t) front := by
  induction stack generalizing t front call callers with
  | nil =>
    cases frames with
    | top written => exact written
  | cons before stack inductionHypothesis =>
    cases frames with
    | inside outer back idle later guards place written =>
      have brace := m.append (m.char dollar) (m.append (m.char openBrace) written)
      exact inductionHypothesis (outer.append brace)

/-- The text has been written, and the rest is to be read. -/
inductive Simulates (m : Meaning) (stack : List Text) (t : Text) (rest : Bytes) : Substitution → Prop
  | reading {front : Bytes} {call : Call} {callers : List Call} (idle : Idle call.state rest)
    (guards : m.Guards call front.length) (frames : Frames m stack t front call callers) :
    Simulates m stack t rest (reading front rest call callers)

/-- An opening brace. -/
theorem simulates_opens {st : Substitution} (simulates : Simulates m stack t (dollar :: openBrace :: rest) st) :
    ∃ st', Reaches fn st st' ∧ Simulates m (t :: stack) .nil rest st' := by
  cases simulates with
  | @reading front call callers idle guards frames =>
    have pending := step_special fn front (openBrace :: rest) callers idle.unescaped (.inl rfl)
    have pendingState : ({ call with state := dollar } : Call).state = dollar := rfl
    have opened := step_open fn front rest callers pendingState
    refine ⟨_, .head pending (.head opened (.refl _)), .reading (.inr (.inl rfl)) (m.begins _ _ _) ?_⟩
    -- The caller waits at the dollar sign.
    have waits : m.Guards (waiting call front.length) front.length := m.waits guards
    have later : front.length < (waiting call front.length).last := by
      rw [waiting_last]
      exact lt_max_of_lt_right (Nat.lt_succ_self _)
    exact .inside (frames.congr (waiting_i _ _)) (waiting_j _ _) (waiting_state _ _) later waits rfl m.nil

/-- A closing brace that is matched. -/
theorem simulates_closes {st : Substitution} (passes : ∀ name, m.Writes t name → m.Passes fn name)
    (simulates : Simulates m (before :: stack) t (closeBrace :: rest) st) :
    ∃ st', Reaches fn st st' ∧ Simulates m stack (before.append (.ref t .nil)) rest st' := by
  cases simulates with
  | @reading front call callers idle guards frames =>
    cases frames with
    | @inside _ _ _ front name _ caller callers outer back waits later seen place written =>
      have closed := step_close fn front rest callers name idle.unescaped place back
      obtain ⟨value, caller', replaced, passed, same, idle, guards⟩ :=
        passes name written front rest caller callers waits later seen
      exact ⟨_, .head closed passed, .reading (.inr (.inl idle)) guards
        ((outer.append (m.ref written replaced)).congr same)⟩

/-- A character that stands for itself. -/
theorem simulates_char {st : Substitution} {c : UInt8} (simulates : Simulates m stack t (c :: rest) st)
    (single : c = backslash → rest = []) (open_ : c = dollar → rest.head? ≠ some openBrace)
    (unmatched : c = closeBrace → stack = []) :
    ∃ st', Reaches fn st st' ∧ Simulates m stack (t.append (.char c .nil)) rest st' := by
  cases simulates with
  | @reading front call callers idle guards frames =>
    have written := frames.append (m.char c)
    have advanced : front.length + 1 ≤ (front ++ [c]).length := by simp
    by_cases special : c = dollar ∨ c = backslash
    · have stepped := step_special fn front rest callers idle.unescaped special
      refine ⟨_, .head stepped (.refl _), .reading ?_ (m.next guards advanced rfl) (written.congr rfl)⟩
      obtain isDollar | isBackslash := special
      · exact .inr (.inr ⟨isDollar, open_ isDollar⟩)
      · exact .inl (single isBackslash)
    -- Outside all calls a closing brace is a character like others.
    · have top : c = closeBrace → callers = [] := by
        intro closed
        obtain rfl := unmatched closed
        cases frames with
        | top => rfl
      have stepped := step_plain fn front rest callers idle.unescaped idle.closed (not_or.mp special) top
      exact ⟨_, .head stepped (.refl _), .reading (.inr (.inl rfl)) (m.next guards advanced rfl) (written.congr rfl)⟩

/-- A character that is no backslash and no dollar sign before a brace. -/
theorem simulates_single {st : Substitution} {c : UInt8} {pieces : List Piece}
    (passes : ∀ name, m.Mentions (parse stack t (.single c :: pieces)) name → m.Passes fn name)
    (simulates : Simulates m stack t (c :: rest) st) (single : c = backslash → rest = [])
    (open_ : c = dollar → rest.head? ≠ some openBrace) :
    ∃ st' stack' t', Reaches fn st st' ∧ Simulates m stack' t' rest st' ∧
      parse stack t (.single c :: pieces) = parse stack' t' pieces := by
  by_cases closed : c = closeBrace
  · subst closed
    cases stack with
    | nil =>
      obtain ⟨st', reaches, simulates⟩ := simulates_char simulates single open_ fun _ => rfl
      exact ⟨st', _, _, reaches, simulates, rfl⟩
    | cons before stack =>
      -- The names that the text between the braces may be are mentioned from here on.
      have passes (name : Bytes) (spelled : m.Writes t name) : m.Passes fn name := by
        apply passes
        have mentioned : m.Mentions (before.append (.ref t .nil)) name := by simp [Meaning.mentions_append, Meaning.Mentions, spelled]
        exact Meaning.mentions_parse (.inl mentioned) pieces
      obtain ⟨st', reaches, simulates⟩ := simulates_closes passes simulates
      exact ⟨st', _, _, reaches, simulates, rfl⟩
  · obtain ⟨st', reaches, simulates⟩ := simulates_char simulates single open_ fun brace => absurd brace closed
    refine ⟨st', _, _, reaches, simulates, ?_⟩
    rw [Piece.single, if_neg closed, parse.eq_def]

/-- An escaped character, and the one behind it. -/
theorem simulates_escape {st : Substitution} {d e : UInt8} (simulates : Simulates m stack t (backslash :: d :: e :: rest) st) :
    ∃ st', Reaches fn st st' ∧ Simulates m stack ((t.append (.char d .nil)).append (.char e .nil)) rest st' := by
  cases simulates with
  | @reading front call callers idle guards frames =>
    have escaped := step_special fn front (d :: e :: rest) callers idle.unescaped (.inr rfl)
    have pendingState : ({ call with state := backslash } : Call).state = backslash := rfl
    have removed := step_unescape fn front rest callers pendingState d e
    have written := (frames.append (m.char d)).append (m.char e)
    rw [List.append_assoc] at written
    exact ⟨_, .head escaped (.head removed (.refl _)), .reading (.inr (.inl rfl)) (m.next guards (by simp) rfl) (written.congr rfl)⟩

/-- What is left in the end is what the text becomes that the code reads. -/
theorem simulates_ends {st : Substitution} (passes : ∀ name, m.Mentions (parse stack t (skim rest)) name → m.Passes fn name)
    (simulates : Simulates m stack t rest st) :
    ∃ last, Reaches fn st last ∧ last.step fn = none ∧ m.Writes (parse stack t (skim rest)) last.s := by
  -- The cases are those of `skim`, which reads the text as the turns of the loop do.
  induction rest using skim.induct generalizing stack t st with
  | case1 =>
    cases simulates with
    | @reading front call callers idle guards frames =>
      refine ⟨_, .refl _, step_end _ _ _ _, ?_⟩
      have same : (reading front [] call callers).s = front := List.append_nil front
      rw [skim, parse.eq_def, same]
      exact frames.unwind
  | case2 c =>
    rw [skim] at passes ⊢
    obtain ⟨st', stack', t', reaches, simulates, same⟩ := simulates_single passes simulates (fun _ => rfl) (fun _ => by simp)
    cases simulates with
    | @reading front call callers idle guards frames =>
      refine ⟨_, reaches, step_end _ _ _ _, ?_⟩
      have text : (reading front [] call callers).s = front := List.append_nil front
      rw [same, parse.eq_def, text]
      exact frames.unwind
  | case3 d =>
    cases simulates with
    | @reading front call callers idle guards frames =>
      -- The backslash is removed with the last character, and nothing is left to be searched.
      have escaped := step_special fn front [d] callers idle.unescaped (.inr rfl)
      have pendingState : ({ call with state := backslash } : Call).state = backslash := rfl
      obtain ⟨last, removed, same, ended⟩ := step_unescape_last fn front callers pendingState d
      refine ⟨last, .head escaped (.head removed (.refl _)), ended, ?_⟩
      rw [same, skim, if_pos rfl]
      exact (frames.append (m.char d)).unwind
  | case4 d e rest inductionHypothesis =>
    rw [skim, if_pos rfl] at passes ⊢
    obtain ⟨st', reaches, simulates⟩ := simulates_escape simulates
    obtain ⟨last, later, ended, written⟩ := inductionHypothesis passes simulates
    exact ⟨last, reaches.trans later, ended, written⟩
  | case5 c d rest notBackslash opened inductionHypothesis =>
    obtain ⟨rfl, rfl⟩ := opened
    rw [skim_opens, parse] at passes ⊢
    obtain ⟨st', reaches, simulates⟩ := simulates_opens simulates
    obtain ⟨last, later, ended, written⟩ := inductionHypothesis passes simulates
    exact ⟨last, reaches.trans later, ended, written⟩
  | case6 c d rest notBackslash single inductionHypothesis =>
    rw [skim_single notBackslash single] at passes ⊢
    obtain ⟨st', stack', t', reaches, simulates, same⟩ := simulates_single passes simulates (fun escape => absurd escape notBackslash)
      (fun isDollar brace => single ⟨isDollar, Option.some.inj brace⟩)
    rw [same] at passes ⊢
    obtain ⟨last, later, ended, written⟩ := inductionHypothesis passes simulates
    exact ⟨last, reaches.trans later, ended, written⟩

/-- The code writes what the text becomes that it reads. -/
theorem Meaning.substitute {s : Bytes} (passes : ∀ name, m.Mentions (parse [] .nil (skim s)) name → m.Passes fn name) :
    ∃ fuel result, VarSub.substitute fn fuel s = some result ∧ m.Writes (parse [] .nil (skim s)) result := by
  have begins : Simulates m [] .nil s (start s) :=
    @Simulates.reading m [] .nil s [] (.search (2 ^ 64 - 1) 0) [] (.inr (.inl rfl)) (m.begins _ _ _) (.top m.nil)
  obtain ⟨last, reaches, ended, written⟩ := simulates_ends passes begins
  obtain ⟨fuel, done⟩ := lastWithin_iff.mpr ⟨reaches, ended⟩
  exact ⟨fuel, last.s, by rw [VarSub.substitute, done, Option.map_some], written⟩

/-! ## Plain values -/

/-- A value is passed over. -/
theorem reaches_plain (fn : Bytes → Bytes) (rest : Bytes) (callers : List Call) {value : Bytes} (plain : Plain value) (front : Bytes)
    (idle : call.state = 0) :
    Reaches fn (reading front (value ++ rest) call callers) (reading (front ++ value) rest call callers) := by
  induction value generalizing front with
  | nil =>
    rw [List.append_nil]
    exact .refl _
  | cons c value inductionHypothesis =>
    obtain ⟨first, others⟩ := List.forall_mem_cons.mp plain
    obtain ⟨notDollar, -, notClosed, notBackslash⟩ := first
    have same : { call with state := 0 } = call := by
      rw [← idle]
    have stepped := step_plain fn front (value ++ rest) callers (by rw [idle]; decide)
      (by rw [idle]; exact fun closed => absurd closed.1 (by decide)) ⟨notDollar, notBackslash⟩ fun closed => absurd closed notClosed
    rw [same] at stepped
    have later := inductionHypothesis others (front ++ [c])
    rw [List.append_assoc] at later
    exact .head stepped later


/-- Each reference is replaced by the value of its name.  At a position only names without a value have been seen. -/
def exact (fn : Bytes → Bytes) : Meaning where
  Writes t w := w = t.eval fn
  Replaces name value := value = fn name
  Guards call place := call.last ≤ place ∨ call.last = place + 1 ∧ ∀ name ∈ call.inner, fn name = []
  nil := rfl
  char _ := rfl
  ref := by
    rintro t name value rfl rfl
    simp [Text.eval]
  append := by
    rintro t u v w rfl rfl
    simp
  begins i j place := .inl (Nat.zero_le _)
  next := by
    rintro call other place later (before | ⟨here, -⟩) advanced same
    · exact .inl (by omega)
    · exact .inl (by omega)
  waits := by
    intro call place guards
    rw [waiting]
    split
    next => exact .inr ⟨rfl, List.forall_mem_nil _⟩
    next same => exact .inr (guards.resolve_left same)

/-- A plain value takes the place of its name. -/
theorem exact_passes {name : Bytes} (plain : Plain (fn name)) : (exact fn).Passes fn name := by
  intro front rest caller callers idle later guards
  obtain ⟨here, empty⟩ := guards.resolve_left (Nat.not_le_of_lt later)
  by_cases fresh : name ∉ caller.inner
  · -- A plain value is passed over, up to where the rest of the text begins.
    have passed := reaches_plain fn rest callers plain front
      (show ({ caller with inner := name :: caller.inner } : Call).state = 0 from idle)
    rw [if_pos fresh]
    refine ⟨_, _, rfl, passed, rfl, idle, ?_⟩
    by_cases none_ : fn name = []
    · -- The next name may be substituted at the same position.
      rw [none_, List.append_nil]
      exact .inr ⟨here, List.forall_mem_cons.mpr ⟨none_, empty⟩⟩
    · have positive := List.length_pos_of_ne_nil none_
      have advanced : caller.last ≤ (front ++ fn name).length := by
        rw [List.length_append]
        omega
      exact .inl advanced
  · -- A name that the caller has seen here had an empty value, since the position has not moved.
    have none_ : fn name = [] := empty _ (not_not.mp fresh)
    rw [if_neg fresh]
    refine ⟨fn name, caller, rfl, ?_, rfl, idle, ?_⟩
    · rw [none_, List.append_nil]
      exact .refl _
    · rw [none_, List.append_nil]
      exact .inr ⟨here, empty⟩

/-- Substitution with values that have no special characters. -/
theorem substitute_skim (plain : ∀ name, Plain (fn name)) (s : Bytes) :
    ∃ fuel, substitute fn fuel s = some ((parse [] .nil (skim s)).eval fn) := by
  obtain ⟨fuel, result, done, rfl⟩ := (exact fn).substitute (s := s) fun name _ => exact_passes (plain name)
  exact ⟨fuel, done⟩

end VarSub

end Swirly
