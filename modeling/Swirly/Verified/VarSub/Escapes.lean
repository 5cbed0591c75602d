import Swirly.Verified.VarSub.Reference

/-!
# Escaped characters

The code writes the expansion of a string as it reads it.  That is the expansion of the string when both readings pair up the
braces in the same way and keep the same characters, and otherwise there are values that tell the two texts apart.
-/

namespace Swirly

namespace VarSub

open Machine

/-- The reference expansion of a string. -/
def expand (fn : Bytes → Bytes) (s : Bytes) : Bytes := (parse [] .nil (read s)).eval fn

/-! ## Values that tell of their names -/

/-- A run of one character between two others.  No text of fewer characters has a run as long as that. -/
def telling (code : Bytes → Nat) (many : Nat) (name : Bytes) : Bytes := 121 :: (List.replicate (many + code name) 120 ++ [121])

theorem plain_telling (code : Bytes → Nat) (many : Nat) (name : Bytes) : Plain (telling code many name) := by
  have letters : ∀ c ∈ telling code many name, c = 121 ∨ c = 120 := by
    intro c member
    simp only [telling, List.mem_cons, List.mem_append, List.mem_replicate, List.not_mem_nil, or_false] at member
    obtain first | ⟨-, run⟩ | last := member
    · exact .inl first
    · exact .inr run
    · exact .inl last
  intro c member
  obtain rfl | rfl := letters c member <;> decide

/-- The number of characters and references. -/
def Text.size : Text → Nat
  | nil => 0
  | char _ rest => rest.size + 1
  | ref name rest => name.size + rest.size + 1

variable {code : Bytes → Nat} {many : Nat}

/-- A text does not begin with a run that is longer than itself. -/
theorem eval_ne_run {t : Text} {n : Nat} (short : t.size < n) (more : Bytes) :
    t.eval (telling code many) ≠ List.replicate n 120 ++ more := by
  induction t generalizing n with
  | nil =>
    obtain ⟨n, rfl⟩ := Nat.exists_eq_add_of_lt short
    simp [Text.eval, List.replicate_succ]
  | char c rest inductionHypothesis =>
    cases n with
    | zero => exact absurd short (Nat.not_lt_zero _)
    | succ n =>
      rw [Text.size] at short
      intro same
      rw [Text.eval, List.replicate_succ, List.cons_append, List.cons.injEq] at same
      exact inductionHypothesis (by omega) same.2
  | ref name rest =>
    cases n with
    | zero => exact absurd short (Nat.not_lt_zero _)
    | succ n =>
      intro same
      rw [Text.eval, telling, List.cons_append, List.replicate_succ, List.cons_append, List.cons.injEq] at same
      exact absurd same.1 (by decide)

theorem run_inj {m n : Nat} {more other : Bytes}
    (same : List.replicate m (120 : UInt8) ++ 121 :: more = List.replicate n 120 ++ 121 :: other) : m = n ∧ more = other := by
  induction m generalizing n with
  | zero =>
    cases n with
    | zero => exact ⟨rfl, (List.cons.inj same).2⟩
    | succ n =>
      rw [List.replicate_succ, List.cons_append] at same
      exact absurd (List.cons.inj same).1 (by decide)
  | succ m inductionHypothesis =>
    cases n with
    | zero =>
      rw [List.replicate_succ, List.cons_append] at same
      exact absurd (List.cons.inj same).1 (by decide)
    | succ n =>
      rw [List.replicate_succ, List.replicate_succ, List.cons_append, List.cons_append] at same
      obtain ⟨rfl, rest⟩ := inductionHypothesis (List.cons.inj same).2
      exact ⟨rfl, rest⟩

/-- Different texts have different expansions. -/
theorem eval_inj (injective : Function.Injective code) {t u : Text} (short : t.size ≤ many) (short' : u.size ≤ many)
    (same : t.eval (telling code many) = u.eval (telling code many)) : t = u := by
  have apart {c : UInt8} {rest name more : Text} (short : (Text.char c rest).size ≤ many) :
      (Text.char c rest).eval (telling code many) ≠ (Text.ref name more).eval (telling code many) := by
    rw [Text.size] at short
    intro same
    rw [Text.eval, Text.eval, telling, List.cons_append, List.cons.injEq, List.append_assoc] at same
    exact eval_ne_run (by omega) _ same.2
  -- The first character tells a reference from a character, and the length of its run tells the name.
  induction t generalizing u with
  | nil =>
    cases u with
    | nil => rfl
    | char => cases same
    | ref => cases same
  | char c rest inductionHypothesis =>
    cases u with
    | nil => cases same
    | char c' rest' =>
      rw [Text.size] at short short'
      rw [Text.eval, Text.eval, List.cons.injEq] at same
      obtain ⟨rfl, same⟩ := same
      rw [inductionHypothesis (by omega) (by omega) same]
    | ref name rest' => exact absurd same (apart short)
  | ref name rest nameHypothesis restHypothesis =>
    cases u with
    | nil => cases same
    | char => exact absurd same.symm (apart short')
    | ref name' rest' =>
      rw [Text.size] at short short'
      rw [Text.eval, Text.eval, telling, telling, List.cons_append, List.cons_append, List.cons.injEq, List.append_assoc,
        List.append_assoc, List.singleton_append, List.singleton_append] at same
      obtain ⟨codes, rests⟩ := run_inj same.2
      have names : name.eval (telling code many) = name'.eval (telling code many) := injective (by omega)
      rw [nameHypothesis (by omega) (by omega) names, restHypothesis (by omega) (by omega) rests]

/-! ## Both readings -/

theorem substitute_unique {fn : Bytes → Bytes} {s first second : Bytes} (once : ∃ fuel, substitute fn fuel s = some first)
    (again : ∃ fuel, substitute fn fuel s = some second) : first = second := by
  obtain ⟨m, once⟩ := once
  obtain ⟨n, again⟩ := again
  obtain ⟨last, ended, rfl⟩ := Option.map_eq_some_iff.mp once
  obtain ⟨other, ended', rfl⟩ := Option.map_eq_some_iff.mp again
  rw [last_unique ⟨m, ended⟩ ⟨n, ended'⟩]

/-- Substitution yields the expansion of a string, whatever the values, exactly when taking the characters behind escaped
ones for themselves makes no difference to the text. -/
theorem substitute_expand_iff (s : Bytes) :
    (∀ fn, (∀ name, Plain (fn name)) → ∃ fuel, substitute fn fuel s = some (expand fn s)) ↔
      parse [] .nil (skim s) = parse [] .nil (read s) := by
  constructor
  · intro correct
    obtain ⟨code, injective⟩ := exists_injective_nat Bytes
    obtain ⟨many, enough⟩ : ∃ many, many = max (parse [] .nil (skim s)).size (parse [] .nil (read s)).size := ⟨_, rfl⟩
    have plain := plain_telling code many
    obtain ⟨m, written⟩ := substitute_skim plain s
    obtain ⟨n, expanded⟩ := correct _ plain
    have same := substitute_unique ⟨m, written⟩ ⟨n, expanded⟩
    exact eval_inj injective (by omega) (by omega) same
  · intro same fn plain
    rw [expand, ← same]
    exact substitute_skim plain s

/-- No escaped character has a character behind it that means something. -/
def Separate : Bytes → Prop
  | c :: d :: rest =>
    if c = backslash then (∀ e ∈ rest.head?, e ≠ dollar ∧ e ≠ closeBrace ∧ e ≠ backslash) ∧ Separate rest else Separate (d :: rest)
  | _ => True

theorem Separate.tail {c : UInt8} {rest : Bytes} (separate : Separate (c :: rest)) (notBackslash : c ≠ backslash) :
    Separate rest := by
  cases rest with
  | nil => trivial
  | cons d rest => rwa [Separate, if_neg notBackslash] at separate

theorem skim_eq_read {s : Bytes} (separate : Separate s) : skim s = read s := by
  induction s using skim.induct with
  | case1 => rfl
  | case2 c => rfl
  | case3 d => simp [skim, read]
  | case4 d e rest inductionHypothesis =>
    rw [Separate, if_pos rfl] at separate
    obtain ⟨plain, later⟩ := separate
    obtain ⟨notDollar, notClosed, notBackslash⟩ := plain e rfl
    -- The character behind the escaped one is plain, so that it is the same whether it is skipped or read.
    have single : read (e :: rest) = .char e :: read rest := by
      cases rest with
      | nil => simp [read, Piece.single, notClosed]
      | cons f rest => simp [read, Piece.single, notDollar, notClosed, notBackslash]
    have same := inductionHypothesis (later.tail notBackslash)
    simp [skim, read, single, same]
  | case5 c d rest notBackslash opened inductionHypothesis =>
    obtain ⟨rfl, rfl⟩ := opened
    have same := inductionHypothesis ((separate.tail notBackslash).tail (by decide))
    rw [skim_opens, same]
    simp [read, notBackslash]
  | case6 c d rest notBackslash single inductionHypothesis =>
    have same := inductionHypothesis (separate.tail notBackslash)
    rw [skim_single notBackslash single, same]
    simp [read, notBackslash, single]

/-- Substitution is right where escaped characters stand before plain ones. -/
theorem substitute_of_separate {fn : Bytes → Bytes} {s : Bytes} (separate : Separate s) (plain : ∀ name, Plain (fn name)) :
    ∃ fuel, substitute fn fuel s = some (expand fn s) := by
  rw [expand, ← skim_eq_read separate]
  exact substitute_skim plain s

/-- The dollar sign behind an escaped character does not begin a reference. -/
theorem escape_swallows :
    ¬ ∀ (fn : Bytes → Bytes) (s : Bytes), (∀ name, Plain (fn name)) → ∃ fuel, substitute fn fuel s = some (expand fn s) := by
  intro correct
  obtain ⟨value, isValue⟩ : ∃ value, value = bytes "1" := ⟨_, rfl⟩
  obtain ⟨s, isString⟩ : ∃ s, s = bytes "\\a$\x7bFOO\x7d" := ⟨_, rfl⟩
  have plainValue : Plain value := by
    subst isValue
    decide +kernel
  have plain : ∀ name : Bytes, Plain ((fun _ => value) name) := fun _ => plainValue
  have same := substitute_unique (substitute_skim plain s) (correct _ s plain)
  subst isValue isString
  revert same
  decide +kernel

end VarSub

end Swirly
