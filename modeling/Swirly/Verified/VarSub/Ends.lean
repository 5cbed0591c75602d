import Swirly.Verified.VarSub.Braces

/-!
# Where substitution ends

What takes the place of a reference is searched for references again.  The guard against loops knows the names that were
substituted at the same position, and forgets them when the position advances.  So it cuts a chain of references that stand at the
beginning of their values, but not one that comes back to a name behind other text.
-/

namespace Swirly

namespace VarSub

open Machine Relation

variable {fn : Bytes → Bytes}

/-- A string as the code reads it. -/
def text (s : Bytes) : Text := parse [] .nil (skim s)

/-- What a text may become when the guard may cut any reference. -/
inductive Writes (fn : Bytes → Bytes) : Text → Bytes → Prop
  | nil : Writes fn .nil []
  | char {c : UInt8} {rest : Text} {w : Bytes} (written : Writes fn rest w) : Writes fn (.char c rest) (c :: w)
  | ref {t rest : Text} {name value w : Bytes} (spelled : Writes fn t name) (replaced : Writes fn (text (fn name)) value)
    (written : Writes fn rest w) : Writes fn (.ref t rest) (value ++ w)
  | cut {t rest : Text} {w : Bytes} (written : Writes fn rest w) : Writes fn (.ref t rest) w

/-- What may come before a reference of the text to the name. -/
inductive Finds (fn : Bytes → Bytes) : Text → Bytes → Bytes → Prop
  | here {t rest : Text} {name : Bytes} (spelled : Writes fn t name) : Finds fn (.ref t rest) [] name
  | inside {t rest : Text} {before name : Bytes} (found : Finds fn t before name) :
    Finds fn (.ref t rest) (dollar :: openBrace :: before) name
  | char {c : UInt8} {rest : Text} {before name : Bytes} (found : Finds fn rest before name) :
    Finds fn (.char c rest) (c :: before) name
  | behind {t rest : Text} {value before name : Bytes} (written : Writes fn (.ref t .nil) value) (found : Finds fn rest before name) :
    Finds fn (.ref t rest) (value ++ before) name

/-- The value refers to the other name at its beginning. -/
def Leads (fn : Bytes → Bytes) (name other : Bytes) : Prop := Finds fn (text (fn name)) [] other

/-- The value refers to the other name behind text. -/
def Follows (fn : Bytes → Bytes) (name other : Bytes) : Prop := ∃ before, before ≠ [] ∧ Finds fn (text (fn name)) before other

/-- From one name to another by references of which the last one, and no other, stands behind text. -/
def Deeper (fn : Bytes → Bytes) (other name : Bytes) : Prop := ∃ last, ReflTransGen (Leads fn) name last ∧ Follows fn last other

/-- The string refers to the name, or a value does of a name that it refers to. -/
inductive Refers (fn : Bytes → Bytes) (s : Bytes) : Bytes → Prop
  | string {before name : Bytes} (found : Finds fn (text s) before name) : Refers fn s name
  | value {before name other : Bytes} (refers : Refers fn s name) (found : Finds fn (text (fn name)) before other) : Refers fn s other

/-- The value is read as the text, whatever comes behind it: it closes the braces that it opens and no others, and it ends neither
in a dollar sign nor in an escape. -/
inductive Reads : Bytes → Text → Prop
  | nil : Reads [] .nil
  | plain {c : UInt8} {v : Bytes} {t : Text} (ordinary : c ≠ dollar ∧ c ≠ backslash ∧ c ≠ closeBrace) (reads : Reads v t) :
    Reads (c :: v) (.char c t)
  | dollar {d : UInt8} {v : Bytes} {t : Text} (single : d ≠ openBrace) (reads : Reads (d :: v) t) :
    Reads (dollar :: d :: v) (.char dollar t)
  | escape {d e : UInt8} {v : Bytes} {t : Text} (reads : Reads v t) : Reads (backslash :: d :: e :: v) (.char d (.char e t))
  | ref {u v : Bytes} {name t : Text} (inner : Reads u name) (reads : Reads v t) :
    Reads (dollar :: openBrace :: (u ++ closeBrace :: v)) (.ref name t)

/-- References come to an end. -/
structure Grounded (fn : Bytes → Bytes) (s : Bytes) : Prop where
  reads {name : Bytes} (refers : Refers fn s name) : ∃ t, Reads (fn name) t
  /-- No chain of references has one behind text again and again. -/
  deeper {name : Bytes} (refers : Refers fn s name) : Acc (Deeper fn) name
  /-- References at the beginnings of values lead to finitely many names that have values. -/
  finite {name : Bytes} (refers : Refers fn s name) : {other | ReflTransGen (Leads fn) name other ∧ fn other ≠ []}.Finite

/-! ## The text of a value -/

/-- The text in one piece after the other. -/
def Text.pieces : Text → List Piece
  | nil => []
  | char c rest => .char c :: rest.pieces
  | ref name rest => .opens :: (name.pieces ++ .closes :: rest.pieces)

theorem parse_pieces (stack : List Text) (u t : Text) (more : List Piece) :
    parse stack u (t.pieces ++ more) = parse stack (u.append t) more := by
  induction t generalizing stack u more with
  | nil => simp [Text.pieces]
  | char c rest inductionHypothesis =>
    rw [Text.pieces, List.cons_append, parse, inductionHypothesis, Text.append_assoc]
    rfl
  | ref name rest nameHypothesis inductionHypothesis =>
    rw [Text.pieces, List.cons_append, List.append_assoc, parse, nameHypothesis, List.cons_append, parse, inductionHypothesis,
      Text.append_assoc]
    rfl

theorem Reads.skim {v : Bytes} {t : Text} (reads : Reads v t) (rest : Bytes) :
    VarSub.skim (v ++ rest) = t.pieces ++ VarSub.skim rest := by
  induction reads generalizing rest with
  | nil => rfl
  | plain ordinary _ inductionHypothesis =>
    obtain ⟨notDollar, notBackslash, notClosed⟩ := ordinary
    rw [List.cons_append, skim_head notBackslash notDollar, inductionHypothesis, Piece.single, if_neg notClosed]
    rfl
  | dollar single _ inductionHypothesis =>
    rw [List.cons_append, List.cons_append, skim_single (by decide) fun opened => single opened.2, ← List.cons_append,
      inductionHypothesis]
    rfl
  | escape _ inductionHypothesis =>
    simp [VarSub.skim, Text.pieces, inductionHypothesis]
  | @ref u v name t _ _ innerHypothesis inductionHypothesis =>
    rw [List.cons_append, List.cons_append, skim_opens, List.append_assoc, innerHypothesis, List.cons_append,
      skim_head (by decide) (by decide), inductionHypothesis, Text.pieces, List.cons_append, List.append_assoc]
    rfl

theorem Reads.text {v : Bytes} {t : Text} (reads : Reads v t) : text v = t := by
  have pieces := reads.skim []
  rw [List.append_nil] at pieces
  rw [VarSub.text, pieces, parse_pieces]
  rfl

/-! ## What texts may become -/

theorem Writes.append {t u : Text} {v w : Bytes} (first : Writes fn t v) (second : Writes fn u w) : Writes fn (t.append u) (v ++ w) := by
  induction first with
  | nil => exact second
  | char _ inductionHypothesis => exact .char inductionHypothesis
  | ref spelled replaced _ _ _ inductionHypothesis =>
    rw [List.append_assoc]
    exact .ref spelled replaced inductionHypothesis
  | cut _ inductionHypothesis => exact .cut inductionHypothesis

/-- The guard may have seen any names. -/
def expansions (fn : Bytes → Bytes) : Meaning where
  Writes := Writes fn
  Replaces name value := value = [] ∨ Writes fn (text (fn name)) value
  Guards _ _ := True
  nil := .nil
  char c := .char .nil
  ref := by
    rintro t name value spelled (rfl | replaced)
    · exact .cut .nil
    · simpa using Writes.ref spelled replaced .nil
  append := Writes.append
  begins _ _ _ := trivial
  next _ _ _ := trivial
  waits _ := trivial

theorem finds_of_mentions {t : Text} {name : Bytes} (mentions : (expansions fn).Mentions t name) : ∃ before, Finds fn t before name := by
  induction t with
  | nil => exact mentions.elim
  | char c rest inductionHypothesis =>
    obtain ⟨before, found⟩ := inductionHypothesis mentions
    exact ⟨_, .char found⟩
  | ref inner rest nameHypothesis inductionHypothesis =>
    obtain spelled | nested | later := mentions
    · exact ⟨_, .here spelled⟩
    · obtain ⟨before, found⟩ := nameHypothesis nested
      exact ⟨_, .inside found⟩
    · obtain ⟨before, found⟩ := inductionHypothesis later
      exact ⟨_, .behind (.cut .nil) found⟩

/-! ## Values are passed over -/

/-- No character before the value matters for it. -/
def Ready (state : UInt8) (v : Bytes) : Prop := state = 0 ∨ state = dollar ∧ ∃ d ∈ v.head?, d ≠ openBrace

theorem Ready.idle {state c : UInt8} {v : Bytes} (ready : Ready state (c :: v)) (rest : Bytes) : Idle state (c :: rest) := by
  obtain zero | ⟨pending, d, first, single⟩ := ready
  · exact .inr (.inl zero)
  · obtain rfl := Option.some.inj first
    exact .inr (.inr ⟨pending, fun brace => single (Option.some.inj brace)⟩)

/-- The value is passed over.  A position that has not moved still knows the names that it knew. -/
def Expands (fn : Bytes → Bytes) (v : Bytes) (t : Text) (seen : List Bytes) : Prop :=
  ∀ (front rest : Bytes) (call : Call) (callers : List Call), Ready call.state v → seen ⊆ guard call front.length →
    ∃ out call', Writes fn t out ∧ Reaches fn (reading front (v ++ rest) call callers) (reading (front ++ out) rest call' callers) ∧
      call'.i = call.i ∧ call'.state = 0 ∧ (out = [] → guard call front.length ⊆ guard call' front.length)

theorem expands_nil (fn : Bytes → Bytes) (seen : List Bytes) : Expands fn [] .nil seen := by
  intro front rest call callers ready _
  obtain idle | ⟨-, d, first, -⟩ := ready
  · refine ⟨[], call, .nil, ?_, rfl, idle, fun _ => List.Subset.refl _⟩
    rw [List.append_nil]
    exact .refl _
  · cases first

/-- After characters, the position has advanced. -/
theorem Expands.after {v w : Bytes} {t u : Text} {seen : List Bytes} (expands : Expands fn w u []) (chars : Bytes)
    (written : ∀ out, Writes fn u out → Writes fn t (chars ++ out)) (advanced : chars ≠ [])
    (turns : ∀ front rest call callers, Ready call.state v → ∃ call', Reaches fn (reading front (v ++ rest) call callers)
      (reading (front ++ chars) (w ++ rest) call' callers) ∧ call'.i = call.i ∧ Ready call'.state w) : Expands fn v t seen := by
  intro front rest call callers ready _
  obtain ⟨middle, first, place, ready⟩ := turns front rest call callers ready
  obtain ⟨out, call', becomes, later, same, idle, -⟩ := expands (front ++ chars) rest middle callers ready (List.nil_subset _)
  rw [List.append_assoc] at later
  refine ⟨_, call', written out becomes, first.trans later, same.trans place, idle, fun none_ => ?_⟩
  exact absurd (List.append_eq_nil_iff.mp none_).1 advanced

/-- The name is looked up at the place of the reference, unless the guard knows it there. -/
theorem reaches_reference {u : Bytes} {name : Text} (inner : Expands fn u name []) (front rest : Bytes) (callers : List Call)
    {call : Call} (unescaped : call.state ≠ backslash) :
    ∃ n caller, Writes fn name n ∧ caller.i = call.i ∧ caller.state = 0 ∧ caller.last = max call.last (front.length + 1) ∧
      caller.inner = guard call front.length ∧
      Reaches fn (reading front (dollar :: openBrace :: (u ++ closeBrace :: rest)) call callers)
        (if n ∉ caller.inner then reading front (fn n ++ rest) { caller with inner := n :: caller.inner } callers
          else reading front rest caller callers) := by
  -- The dollar sign and the brace open a call for the name, and the closing brace ends it.
  have pending := step_special fn front (openBrace :: (u ++ closeBrace :: rest)) callers unescaped (.inl rfl)
  have pendingState : ({ call with state := dollar } : Call).state = dollar := rfl
  have opened := step_open fn front (u ++ closeBrace :: rest) callers pendingState
  obtain ⟨n, inside, spelled, named, place, idle, -⟩ := inner (front ++ [dollar, openBrace]) (closeBrace :: rest)
    (.search front.length 0) (waiting { call with state := dollar } front.length :: callers) (.inl rfl) (List.nil_subset _)
  rw [List.append_assoc] at named
  have unescaped : inside.state ≠ backslash := by
    rw [idle]
    decide
  have closed := step_close fn front rest callers n unescaped place (waiting_j { call with state := dollar } _)
  exact ⟨n, _, spelled, waiting_i _ _, waiting_state _ _, waiting_last _ _, waiting_inner _ _,
    .head pending (.head opened (named.trans (.head closed (.refl _))))⟩

/-- A reference, and what comes behind it. -/
theorem Expands.ref {u v : Bytes} {name t : Text} {seen : List Bytes} (inner : Expands fn u name [])
    (values : ∀ n seen', Writes fn name n → seen ⊆ seen' → n ∉ seen' → Expands fn (fn n) (text (fn n)) (n :: seen'))
    (rest : ∀ value seen', Writes fn (.ref name .nil) value → (value = [] → seen ⊆ seen') → Expands fn v t seen') :
    Expands fn (dollar :: openBrace :: (u ++ closeBrace :: v)) (.ref name t) seen := by
  intro front more call callers ready held
  obtain ⟨n, caller, spelled, same, waits, last, known, named⟩ := reaches_reference inner front (v ++ more) callers
    (ready.idle v).unescaped
  have later : front.length < caller.last := by omega
  -- The value is passed over, or the reference is cut.
  obtain ⟨value, call₁, replaced, passed, same₁, idle₁, kept⟩ : ∃ value call₁,
      (∀ t out, Writes fn t out → Writes fn (.ref name t) (value ++ out)) ∧
      Reaches fn (if n ∉ caller.inner then reading front (fn n ++ (v ++ more)) { caller with inner := n :: caller.inner } callers
        else reading front (v ++ more) caller callers) (reading (front ++ value) (v ++ more) call₁ callers) ∧
      call₁.i = caller.i ∧ call₁.state = 0 ∧ (value = [] → guard call front.length ⊆ guard call₁ front.length) := by
    split
    next fresh =>
      have guarded : guard { caller with inner := n :: caller.inner } front.length = n :: caller.inner := guard_eq later
      obtain ⟨value, call₁, becomes, passed, same₁, idle₁, kept⟩ := values n caller.inner spelled (known ▸ held) fresh front (v ++ more)
        { caller with inner := n :: caller.inner } callers (.inl waits) (by rw [guarded]; exact List.Subset.refl _)
      refine ⟨value, call₁, fun t out => .ref spelled becomes, passed, same₁, idle₁, fun none_ => ?_⟩
      rw [guarded, known] at kept
      exact List.Subset.trans (List.subset_cons_self _ _) (kept none_)
    next =>
      refine ⟨[], caller, fun t out => .cut, ?_, rfl, waits, fun _ => ?_⟩
      · rw [List.append_nil]
        exact .refl _
      · rw [guard_eq later, known]
        exact List.Subset.refl _
  have written : Writes fn (.ref name .nil) value := by simpa using replaced .nil [] .nil
  -- What is behind the reference knows the names only where the value has become nothing.
  have held₁ (none_ : value = []) : seen ⊆ guard call₁ (front ++ value).length := by
    rw [none_, List.append_nil]
    exact List.Subset.trans held (kept none_)
  obtain ⟨out, call₂, becomes, last, same₂, idle₂, kept₂⟩ := rest value _ written held₁ (front ++ value) more call₁ callers (.inl idle₁)
    (List.Subset.refl _)
  rw [List.append_assoc] at last
  refine ⟨value ++ out, call₂, replaced t out becomes, ?_, same₂.trans (same₁.trans same), idle₂, fun none_ => ?_⟩
  · simp only [List.cons_append, List.append_assoc]
    exact named.trans (passed.trans last)
  · obtain ⟨rfl, rfl⟩ := List.append_eq_nil_iff.mp none_
    rw [List.append_nil] at kept₂
    exact List.Subset.trans (kept rfl) (kept₂ rfl)

/-- A value is passed over when those are that it refers to. -/
theorem Reads.expands {v : Bytes} {t : Text} (reads : Reads v t) {seen : List Bytes}
    (values : ∀ before name seen', Finds fn t before name → (before = [] → seen ⊆ seen') → name ∉ seen' →
      Expands fn (fn name) (VarSub.text (fn name)) (name :: seen')) : Expands fn v t seen := by
  induction reads generalizing seen with
  | nil => exact expands_nil fn seen
  | @plain c v t ordinary _ inductionHypothesis =>
    obtain ⟨notDollar, notBackslash, notClosed⟩ := ordinary
    have later := @inductionHypothesis [] fun before name seen' found _ =>
      values (c :: before) name seen' (.char found) fun none_ => by cases none_
    refine later.after [c] (fun out => .char) (List.cons_ne_nil _ _) fun front rest call callers ready => ?_
    have idle := ready.idle (v ++ rest)
    have stepped := step_plain fn front (v ++ rest) callers idle.unescaped idle.closed ⟨notDollar, notBackslash⟩
      fun closed => absurd closed notClosed
    exact ⟨_, .head stepped (.refl _), rfl, .inl rfl⟩
  | @dollar d v t single _ inductionHypothesis =>
    have later := @inductionHypothesis [] fun before name seen' found _ =>
      values (VarSub.dollar :: before) name seen' (.char found) fun none_ => by cases none_
    refine later.after [VarSub.dollar] (fun out => .char) (List.cons_ne_nil _ _) fun front rest call callers ready => ?_
    have stepped := step_special fn front (d :: v ++ rest) callers (ready.idle []).unescaped (.inl rfl)
    exact ⟨_, .head stepped (.refl _), rfl, .inr ⟨rfl, d, rfl, single⟩⟩
  | @escape d e v t _ inductionHypothesis =>
    have later := @inductionHypothesis [] fun before name seen' found _ =>
      values (d :: e :: before) name seen' (.char (.char found)) fun none_ => by cases none_
    refine later.after [d, e] (fun out becomes => .char (.char becomes)) (List.cons_ne_nil _ _)
      fun front rest call callers ready => ?_
    have escaped := step_special fn front (d :: e :: v ++ rest) callers (ready.idle []).unescaped (.inr rfl)
    have pendingState : ({ call with state := backslash } : Call).state = backslash := rfl
    exact ⟨_, .head escaped (.head (step_unescape fn front (v ++ rest) callers pendingState d e) (.refl _)), rfl, .inl rfl⟩
  | @ref u v name t _ _ innerHypothesis inductionHypothesis =>
    refine .ref (innerHypothesis fun before n seen' found _ => ?_) (fun n seen' spelled held => ?_) fun value seen' written held => ?_
    · exact values _ n seen' (.inside found) fun none_ => by cases none_
    · exact values [] n seen' (.here spelled) fun _ => held
    · apply inductionHypothesis
      intro before n seen'' found later
      apply values (value ++ before) n seen'' (.behind written found)
      intro none_
      obtain ⟨noValue, nothing⟩ := List.append_eq_nil_iff.mp none_
      exact List.Subset.trans (held noValue) (later nothing)

theorem expands_of_empty {name : Bytes} (empty : fn name = []) (seen : List Bytes) : Expands fn (fn name) (text (fn name)) seen := by
  rw [empty]
  exact expands_nil fn seen

/-! ## One reference -/

/-- A text without references. -/
def Text.chars (v : Bytes) : Text := v.foldr Text.char .nil

theorem not_finds_chars (v before name : Bytes) : ¬ Finds fn (.chars v) before name := by
  induction v generalizing before with
  | nil =>
    intro found
    cases found
  | cons c v inductionHypothesis =>
    intro found
    cases found with
    | char found => exact inductionHypothesis _ found

theorem writes_chars_iff {v w : Bytes} : Writes fn (.chars v) w ↔ w = v := by
  induction v generalizing w with
  | nil =>
    constructor
    · intro written
      cases written
      rfl
    · rintro rfl
      exact .nil
  | cons c v inductionHypothesis =>
    constructor
    · intro written
      cases written with
      | char written => rw [inductionHypothesis.mp written]
    · rintro rfl
      exact .char (inductionHypothesis.mpr rfl)

theorem reads_chars {v : Bytes} (plain : Plain v) : Reads v (.chars v) := by
  induction v with
  | nil => exact .nil
  | cons c v inductionHypothesis =>
    obtain ⟨⟨notDollar, -, notClosed, notBackslash⟩, others⟩ := List.forall_mem_cons.mp plain
    exact .plain ⟨notDollar, notBackslash, notClosed⟩ (inductionHypothesis others)

/-- A reference to the variable. -/
def reference (name : Bytes) : Bytes := dollar :: openBrace :: (name ++ [closeBrace])

/-- A text with one reference. -/
def Text.single (u name v : Bytes) : Text := (chars u).append (.ref (chars name) (chars v))

theorem reads_single {u name v : Bytes} (plain : Plain u) (plainName : Plain name) (plainRest : Plain v) :
    Reads (u ++ reference name ++ v) (.single u name v) := by
  induction u with
  | nil =>
    have whole : reference name ++ v = dollar :: openBrace :: (name ++ closeBrace :: v) := by simp [reference]
    rw [List.nil_append, whole]
    exact .ref (reads_chars plainName) (reads_chars plainRest)
  | cons c u inductionHypothesis =>
    obtain ⟨⟨notDollar, -, notClosed, notBackslash⟩, others⟩ := List.forall_mem_cons.mp plain
    exact .plain ⟨notDollar, notBackslash, notClosed⟩ (inductionHypothesis others)

theorem finds_single {u name v before other : Bytes} (found : Finds fn (.single u name v) before other) :
    before = u ∧ other = name := by
  induction u generalizing before with
  | nil =>
    cases found with
    | here spelled => exact ⟨rfl, writes_chars_iff.mp spelled⟩
    | inside found => exact absurd found (not_finds_chars _ _ _)
    | behind _ found => exact absurd found (not_finds_chars _ _ _)
  | cons c u inductionHypothesis =>
    cases found with
    | char found =>
      obtain ⟨rfl, same⟩ := inductionHypothesis found
      exact ⟨rfl, same⟩

/-! ## Substitution ends -/

/-- The guard knows one name more. -/
theorem card_unseen_lt {names : Finset Bytes} {seen seen' : List Bytes} {next : Bytes} (inside : next ∈ names) (fresh : next ∉ seen')
    (held : seen ⊆ seen') : (names.filter (· ∉ next :: seen')).card < (names.filter (· ∉ seen)).card := by
  apply Finset.card_lt_card
  rw [Finset.ssubset_iff_of_subset]
  · exact ⟨next, Finset.mem_filter.mpr ⟨inside, fun old => fresh (held old)⟩, by simp⟩
  · intro n new
    obtain ⟨inside, unseen⟩ := Finset.mem_filter.mp new
    exact Finset.mem_filter.mpr ⟨inside, fun old => unseen (List.mem_cons_of_mem _ (held old))⟩

/-- The value of each name that the string refers to is passed over. -/
theorem Grounded.expands {s name : Bytes} (grounded : Grounded fn s) (refers : Refers fn s name) (seen : List Bytes) :
    Expands fn (fn name) (text (fn name)) seen := by
  suffices all : ∀ other, ReflTransGen (Leads fn) name other → Refers fn s other → ∀ seen, Expands fn (fn other) (text (fn other)) seen
    from all name .refl refers seen
  have accessible := grounded.deeper refers
  -- Outside, on the names that a reference behind text leads to; inside, on those that the guard does not know yet.
  induction accessible with
  | intro name _ deeperHypothesis =>
    intro other leads referred seen
    obtain ⟨names, member⟩ := (grounded.finite refers).exists_finset
    -- Each name at the beginning is new at its position, as long as the position does not advance.
    obtain ⟨k, left⟩ : ∃ k, k = (names.filter (· ∉ seen)).card := ⟨_, rfl⟩
    induction k using Nat.strong_induction_on generalizing other seen with
    | h k inductionHypothesis =>
      obtain ⟨t, reads⟩ := grounded.reads referred
      rw [reads.text]
      apply reads.expands
      intro before next seen' found held fresh
      rw [← reads.text] at found
      have referred' : Refers fn s next := .value referred found
      by_cases here : before = []
      · subst here
        by_cases empty : fn next = []
        · exact expands_of_empty empty _
        · have reached : ReflTransGen (Leads fn) name next := leads.tail found
          have inside : next ∈ names := (member next).mpr ⟨reached, empty⟩
          have fewer : (names.filter (· ∉ next :: seen')).card < k := by
            rw [left]
            exact card_unseen_lt inside fresh (held rfl)
          exact inductionHypothesis _ fewer next reached referred' _ rfl
      -- The position advances, and the guard forgets.
      · have deeper : Deeper fn next name := ⟨other, leads, before, here, found⟩
        exact deeperHypothesis next deeper referred' next .refl referred' _

theorem Grounded.passes {s name : Bytes} (grounded : Grounded fn s) (refers : Refers fn s name) :
    (expansions fn).Passes fn name := by
  intro front rest caller callers idle _ _
  by_cases fresh : name ∉ caller.inner
  · obtain ⟨value, caller', becomes, passed, same, idle, -⟩ := grounded.expands refers [] front rest
      { caller with inner := name :: caller.inner } callers (.inl idle) (List.nil_subset _)
    rw [if_pos fresh]
    exact ⟨value, caller', .inr becomes, passed, same, idle, trivial⟩
  · rw [if_neg fresh]
    refine ⟨[], caller, .inl rfl, ?_, rfl, idle, trivial⟩
    rw [List.append_nil]
    exact .refl _

/-! ## Substitution ends -/

/-- Two variables that refer to each other at the beginnings of their values, and one that refers to them behind text. -/
def loops (name : Bytes) : Bytes :=
  if name = bytes "FOO" then bytes "$\x7bBAR\x7d!"
  else if name = bytes "BAR" then bytes "$\x7bFOO\x7d?"
  else if name = bytes "BAZ" then bytes "a$\x7bFOO\x7db"
  else []

/-- Each value has at most one reference. -/
theorem loops_value (name : Bytes) : loops name = [] ∨ ∃ u next v, Plain u ∧ Plain next ∧ Plain v ∧
    loops name = u ++ reference next ++ v ∧ (next = bytes "FOO" ∨ next = bytes "BAR") ∧
      (name = bytes "FOO" ∨ name = bytes "BAR" ∨ name = bytes "BAZ") ∧ (u ≠ [] → name = bytes "BAZ") := by
  rw [loops]
  split_ifs with foo bar baz
  · refine .inr ⟨[], bytes "BAR", bytes "!", ?_, ?_, ?_, ?_, .inr rfl, .inl foo, fun other => absurd rfl other⟩ <;>
      decide +kernel
  · refine .inr ⟨[], bytes "FOO", bytes "?", ?_, ?_, ?_, ?_, .inl rfl, .inr (.inl bar), fun other => absurd rfl other⟩ <;>
      decide +kernel
  · refine .inr ⟨bytes "a", bytes "FOO", bytes "b", ?_, ?_, ?_, ?_, .inl rfl, .inr (.inr baz), fun _ => baz⟩ <;>
      decide +kernel
  · exact .inl rfl

theorem loops_finds {name before next : Bytes} (found : Finds loops (text (loops name)) before next) :
    (next = bytes "FOO" ∨ next = bytes "BAR") ∧ (before ≠ [] → name = bytes "BAZ") := by
  obtain empty | ⟨u, other, v, plain, plainName, plainRest, value, refers, -, behind⟩ := loops_value name
  · rw [empty] at found
    cases found
  · rw [value, (reads_single plain plainName plainRest).text] at found
    obtain ⟨rfl, rfl⟩ := finds_single found
    exact ⟨refers, behind⟩

theorem grounded_loops (s : Bytes) : Grounded loops s := by
  have apart : bytes "BAZ" ≠ bytes "FOO" ∧ bytes "BAZ" ≠ bytes "BAR" := by decide +kernel
  -- References at the beginning lead to the variables that refer to each other.
  have leads {name last : Bytes} (path : ReflTransGen (Leads loops) name last) (first : name = bytes "FOO" ∨ name = bytes "BAR") :
      last = bytes "FOO" ∨ last = bytes "BAR" := by
    cases path with
    | refl => exact first
    | tail _ found => exact (loops_finds found).1
  have lowest {name : Bytes} (first : name = bytes "FOO" ∨ name = bytes "BAR") : Acc (Deeper loops) name := by
    constructor
    rintro other ⟨last, path, before, behind, found⟩
    obtain rfl := (loops_finds found).2 behind
    obtain same | same := leads path first
    · exact absurd same apart.1
    · exact absurd same apart.2
  constructor
  · intro name _
    obtain empty | ⟨u, next, v, plain, plainName, plainRest, value, -⟩ := loops_value name
    · exact ⟨.nil, empty ▸ .nil⟩
    · exact ⟨_, value ▸ reads_single plain plainName plainRest⟩
  · rintro name -
    constructor
    rintro other ⟨last, path, before, behind, found⟩
    exact lowest (loops_finds found).1
  · rintro name -
    have finite : ({bytes "FOO", bytes "BAR", bytes "BAZ"} : Set Bytes).Finite := Set.toFinite _
    apply finite.subset
    rintro other ⟨-, value⟩
    obtain empty | ⟨u, next, v, -, -, -, -, -, inside, -⟩ := loops_value other
    · exact absurd empty value
    · exact inside

/-- The reference in the value is read at a position that has advanced. -/
theorem chain_turns {name next u v front rest : Bytes} {call : Call} (plainName : Plain name) (plain : Plain u) (behind : u ≠ [])
    (value : fn name = u ++ reference next ++ v) (idle : call.state = 0) (before : call.last ≤ front.length) :
    ∃ n call', 1 ≤ n ∧ call'.state = 0 ∧ call'.last ≤ (front ++ u).length ∧
      after (Substitution.step fn) n (reading front (reference name ++ rest) call []) =
        some (reading (front ++ u) (reference next ++ (v ++ rest)) call' []) := by
  have inner : Expands fn name (.chars name) [] := (reads_chars plainName).expands fun _ _ _ found =>
    absurd found (not_finds_chars _ _ _)
  have unescaped : call.state ≠ backslash := by
    rw [idle]
    decide
  obtain ⟨n, caller, spelled, -, waits, last, known, named⟩ := reaches_reference inner front rest [] unescaped
  obtain rfl := writes_chars_iff.mp spelled
  have unseen : caller.inner = [] := known.trans (if_pos before)
  rw [unseen, if_pos List.not_mem_nil, value] at named
  have passed := reaches_plain fn (reference next ++ (v ++ rest)) [] plain front
    (show ({ caller with inner := [n] } : Call).state = 0 from waits)
  have whole : reference n ++ rest = dollar :: openBrace :: (n ++ closeBrace :: rest) := by simp [reference]
  have pieces : u ++ reference next ++ v ++ rest = u ++ (reference next ++ (v ++ rest)) := by simp
  rw [pieces] at named
  obtain ⟨k, reached⟩ := named.trans passed
  have advanced : 1 ≤ u.length := List.length_pos_of_ne_nil behind
  have length : (front ++ u).length = front.length + u.length := List.length_append
  refine ⟨k, { caller with inner := [n] }, ?_, waits, ?_, whole ▸ reached⟩
  · by_contra none_
    obtain rfl : k = 0 := by omega
    have place := congrArg (fun st => st.call.j) (Option.some.inj reached)
    simp only [reading] at place
    omega
  · have same : ({ caller with inner := [n] } : Call).last = caller.last := rfl
    omega

/-- When each value refers to the next name behind plain text, substitution does not end. -/
theorem endless {names u v : ℕ → Bytes} (plainNames : ∀ i, Plain (names i)) (plain : ∀ i, Plain (u i)) (behind : ∀ i, u i ≠ [])
    (values : ∀ i, fn (names i) = u i ++ reference (names (i + 1)) ++ v i) {front : Bytes} (plainFront : Plain front) (rest : Bytes) :
    ¬ ∃ fuel, (substitute fn fuel (front ++ reference (names 0) ++ rest)).isSome := by
  rintro ⟨fuel, ended⟩
  rw [substitute, Option.isSome_map, Option.isSome_iff_exists] at ended
  obtain ⟨last, ended⟩ := ended
  -- Each value takes turns, and leads to the next name at a later position.
  have reached (k : ℕ) : ∃ n front' rest' call, k ≤ n ∧ call.state = 0 ∧ call.last ≤ front'.length ∧
      after (Substitution.step fn) n (start (front ++ reference (names 0) ++ rest)) =
        some (reading front' (reference (names k) ++ rest') call []) := by
    induction k with
    | zero =>
      obtain ⟨n, passed⟩ := reaches_plain fn (reference (names 0) ++ rest) [] plainFront []
        (show (Call.search (2 ^ 64 - 1) 0).state = 0 from rfl)
      rw [← List.append_assoc] at passed
      exact ⟨n, front, rest, _, Nat.zero_le n, rfl, Nat.zero_le _, passed⟩
    | succ k inductionHypothesis =>
      obtain ⟨n, front', rest', call, many, idle, before, turned⟩ := inductionHypothesis
      obtain ⟨m, call', more, idle', before', turns⟩ := chain_turns (plainNames k) (plain k) (behind k) (values k) idle before
      exact ⟨n + m, _, _, call', by omega, idle', before', after_trans turned turns⟩
  obtain ⟨n, front', rest', call, many, -, -, turned⟩ := reached (fuel + 1)
  have enough := le_of_after ended turned
  omega

end VarSub

end Swirly
