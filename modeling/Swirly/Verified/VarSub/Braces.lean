import Swirly.Verified.VarSub.Reference

/-!
# Opening and closing braces

A reference is looked up when its closing brace is read, and its opening brace may have come from another value.  What is behind
the opening brace in its own value tells which names may be looked up.  So each opening brace stands for the opening braces in the
values of these names, whatever the closing braces are that match them.
-/

namespace Swirly

namespace VarSub

open Machine Relation

variable {fn : Bytes → Bytes}

/-- An opening brace. -/
structure Brace where
  /-- What is behind it in its value. -/
  rest : Bytes
  /-- Names that the guard knows at its place. -/
  seen : List Bytes

/-- The plain text behind an opening brace begins the name, and is the name when a closing brace is behind it. -/
def Names (rest name : Bytes) : Prop :=
  ∀ w more, rest = w ++ more → Plain w → w <+: name ∧ (more.head? = some closeBrace → name = w)

/-- A name behind the brace, unless the guard knows it. -/
def Brace.LooksUp (brace : Brace) (name : Bytes) : Prop := Names brace.rest name ∧ name ∉ brace.seen

/-- The inner brace is in the value of a name behind the outer one. -/
def Opens (fn : Bytes → Bytes) (inner outer : Brace) : Prop :=
  ∃ name before, outer.LooksUp name ∧ fn name = before ++ openBrace :: inner.rest ∧ before ≠ [] ∧
    -- The guard forgets, unless the value begins with the reference.
    inner.seen = if before = [dollar] then name :: outer.seen else []

/-- The brace is in the string, or in the value of a name behind such a brace. -/
inductive Opened (fn : Bytes → Bytes) (s : Bytes) : Brace → Prop
  | string {before rest : Bytes} (whole : s = before ++ openBrace :: rest) : Opened fn s ⟨rest, []⟩
  | value {inner outer : Brace} (opened : Opened fn s outer) (opens : Opens fn inner outer) : Opened fn s inner

/-- No value of a name behind an opening brace has a closing brace. -/
def Unclosed (fn : Bytes → Bytes) (s : Bytes) : Prop :=
  ∀ brace name, Opened fn s brace → brace.LooksUp name → closeBrace ∉ fn name

/-- Opening braces come to an end. -/
def Exhausts (fn : Bytes → Bytes) (s : Bytes) : Prop := ∀ brace, Opened fn s brace → Acc (Opens fn) brace

/-! ## Names behind opening braces -/

/-- Whatever is written behind the text, the brace may have the name. -/
def Begun (rest w : Bytes) : Prop := ∀ more, Names rest (w ++ more)

/-- The text behind the brace is not plain or has been read, or a plain part of it has been read and the rest is next. -/
def Spells (unread rest w : Bytes) : Prop := Begun rest w ∨ ∃ u, rest = w ++ u ∧ Plain w ∧ u <+: unread

theorem Plain.head {u more w : Bytes} (plain : Plain w) {c : UInt8} (same : w = u ++ more) (first : more.head? = some c) :
    c ≠ dollar ∧ c ≠ openBrace ∧ c ≠ closeBrace ∧ c ≠ backslash := by
  apply plain
  rw [same]
  exact List.mem_append_right _ (List.mem_of_head? first)

/-- The plain text goes no further than to the character that is not plain. -/
theorem stops_at {w u v more : Bytes} (plain : Plain w) (stops : ∀ c ∈ u.head?, ¬ Plain [c]) (same : w ++ u = v ++ more)
    (plainBeginning : Plain v) : v <+: w ∧ (more.head? = some closeBrace → w = v ∧ u.head? = some closeBrace) := by
  obtain ⟨a, whole, behind⟩ | ⟨a, whole, behind⟩ := List.append_eq_append_iff.mp same
  · cases a with
    | nil =>
      rw [List.append_nil] at whole
      exact ⟨whole ▸ List.prefix_refl _, fun closed => ⟨whole.symm, behind ▸ closed⟩⟩
    | cons c a =>
      -- The longer text has the character that is not plain.
      have first := plainBeginning.head whole rfl
      refine absurd ?_ (stops c (by rw [behind]; rfl))
      exact List.forall_mem_singleton.mpr first
  · refine ⟨⟨a, whole.symm⟩, fun closed => ?_⟩
    cases a with
    | nil =>
      rw [List.append_nil] at whole
      rw [behind] at closed
      exact ⟨whole, closed⟩
    | cons c a =>
      rw [behind] at closed
      exact absurd (Option.some.inj closed) (plain.head whole rfl).2.2.1

theorem begun_of_stops {rest w u : Bytes} (whole : rest = w ++ u) (plain : Plain w)
    (stops : ∀ c ∈ u.head?, c ≠ closeBrace ∧ ¬ Plain [c]) : Begun rest w := by
  intro more v behind same plainBeginning
  obtain ⟨begins, closes⟩ := stops_at plain (fun c first => (stops c first).2) (whole ▸ same) plainBeginning
  refine ⟨begins.trans (List.prefix_append _ _), fun closed => ?_⟩
  exact absurd rfl (stops _ (closes closed).2).1

theorem Begun.append {rest w : Bytes} (begun : Begun rest w) (v : Bytes) : Begun rest (w ++ v) := by
  intro more
  rw [List.append_assoc]
  exact begun _

theorem eq_of_next {u unread : Bytes} {c d : UInt8} (next : u <+: c :: unread) (first : d ∈ u.head?) : d = c := by
  cases u with
  | nil => cases first
  | cons e u =>
    obtain rfl := Option.some.inj first
    exact (List.cons_prefix_cons.mp next).1

/-- A special character ends the plain text. -/
theorem Spells.begun {unread rest w : Bytes} {c : UInt8} (spells : Spells (c :: unread) rest w) (open_ : c ≠ closeBrace)
    (special : ¬ Plain [c]) : Begun rest w := by
  obtain begun | ⟨u, whole, plain, next⟩ := spells
  · exact begun
  · apply begun_of_stops whole plain
    intro d first
    rw [eq_of_next next first]
    exact ⟨open_, special⟩

/-- What is between the braces is a name that the text behind the opening brace spells. -/
theorem Spells.names {unread rest w : Bytes} (spells : Spells (closeBrace :: unread) rest w) : Names rest w := by
  obtain begun | ⟨u, whole, plain, next⟩ := spells
  · simpa using begun []
  · intro v behind same plainBeginning
    -- The closing brace is not plain.
    have stops : ∀ c ∈ u.head?, ¬ Plain [c] := by
      intro d first
      rw [eq_of_next next first]
      exact fun ordinary => (List.forall_mem_singleton.mp ordinary).2.2.1 rfl
    obtain ⟨begins, closes⟩ := stops_at plain stops (whole ▸ same) plainBeginning
    exact ⟨begins, fun closed => (closes closed).1⟩

theorem Spells.char {unread rest w : Bytes} {c : UInt8} (spells : Spells (c :: unread) rest w) (open_ : c ≠ closeBrace) :
    Spells unread rest (w ++ [c]) := by
  by_cases ordinary : Plain [c]
  · obtain begun | ⟨u, whole, plain, next⟩ := spells
    · exact .inl (begun.append _)
    · cases u with
      | nil => exact .inl ((begun_of_stops whole plain fun c first => by cases first).append _)
      | cons d u =>
        obtain ⟨rfl, later⟩ := List.cons_prefix_cons.mp next
        exact .inr ⟨u, by simp [whole], List.forall_mem_append.mpr ⟨plain, ordinary⟩, later⟩
  · exact .inl ((spells.begun open_ ordinary).append _)

/-! ## Opening braces that are still to be read -/

/-- The opening braces of a text. -/
def marked : Bytes → List Brace
  | [] => []
  | c :: rest => if c = openBrace then ⟨rest, []⟩ :: marked rest else marked rest

theorem marked_of_ne {c : UInt8} (other : c ≠ openBrace) (rest : Bytes) : marked (c :: rest) = marked rest := if_neg other

theorem before_of_mem_marked {v : Bytes} {brace : Brace} (member : brace ∈ marked v) :
    brace.seen = [] ∧ ∃ before, v = before ++ openBrace :: brace.rest := by
  induction v with
  | nil => cases member
  | cons c rest inductionHypothesis =>
    rw [marked] at member
    split at member
    next here =>
      obtain rfl | later := List.mem_cons.mp member
      · exact ⟨rfl, [], by rw [here]; rfl⟩
      · obtain ⟨unseen, before, rfl⟩ := inductionHypothesis later
        exact ⟨unseen, c :: before, rfl⟩
    next =>
      obtain ⟨unseen, before, rfl⟩ := inductionHypothesis member
      exact ⟨unseen, c :: before, rfl⟩

/-- The opening braces of what is left of the values and of the string. -/
def marks (segments : List Bytes) : Multiset Brace := ↑(segments.flatMap marked)

theorem marks_cons (segment : Bytes) (segments : List Bytes) : marks (segment :: segments) = ↑(marked segment) + marks segments := by
  simp [marks]

theorem first_segment {segments : List Bytes} {c : UInt8} {rest : Bytes} (whole : segments.flatten = c :: rest) :
    ∃ segment others, (segment :: others).flatten = rest ∧ marks segments = ↑(marked (c :: segment)) + marks others := by
  induction segments with
  | nil => cases whole
  | cons segment segments inductionHypothesis =>
    cases segment with
    | nil =>
      obtain ⟨segment, others, left, same⟩ := inductionHypothesis whole
      refine ⟨segment, others, left, ?_⟩
      rw [marks_cons, same, marked, Multiset.coe_nil, zero_add]
    | cons d segment =>
      obtain ⟨rfl, left⟩ := List.cons.inj whole
      exact ⟨segment, segments, left, marks_cons _ _⟩

/-- One character further there are no more opening braces. -/
theorem marks_le {segments : List Bytes} {c : UInt8} {rest : Bytes} (whole : segments.flatten = c :: rest) :
    ∃ left, left.flatten = rest ∧ marks left ≤ marks segments := by
  obtain ⟨segment, others, left, same⟩ := first_segment whole
  refine ⟨segment :: others, left, ?_⟩
  rw [same, marks_cons]
  apply add_le_add_left
  rw [marked]
  split
  next => exact Multiset.coe_le.mpr (List.sublist_cons_self _ _).subperm
  next => exact le_refl _

/-! ## Open braces -/

/-- The calls belong to the open braces. -/
inductive Framed : (Bytes → Bytes → Prop) → List Brace → Bytes → Call → List Call → Prop
  | top {p : Bytes → Bytes → Prop} {front : Bytes} {call : Call} : Framed p [] front call []
  | inside {p : Bytes → Bytes → Prop} {braces : List Brace} {brace : Brace} {front w : Bytes} {call caller : Call}
    {callers : List Call} (outer : Framed Begun braces front caller callers) (back : caller.j = front.length)
    (idle : caller.state = 0) (later : front.length < caller.last) (held : brace.seen ⊆ caller.inner)
    (place : call.i = front.length) (spells : p brace.rest w) :
    Framed p (brace :: braces) (front ++ dollar :: openBrace :: w) call (caller :: callers)

variable {p q : Bytes → Bytes → Prop} {braces : List Brace} {brace : Brace} {front unread : Bytes} {call : Call}
  {callers : List Call} {total : Multiset Brace} {segments : List Bytes} {st : Substitution}

theorem Framed.congr (framed : Framed p braces front call callers) {other : Call} (same : other.i = call.i) :
    Framed p braces front other callers := by
  cases framed with
  | top => exact .top
  | inside outer back idle later held place spells => exact .inside outer back idle later held (same.trans place) spells

theorem Framed.append (framed : Framed p braces front call callers) (w : Bytes)
    (spells : braces ≠ [] → ∀ rest v, p rest v → q rest (v ++ w)) : Framed q braces (front ++ w) call callers := by
  cases framed with
  | top => exact .top
  | inside outer back idle later held place spelled =>
    rw [List.append_assoc]
    exact .inside outer back idle later held place (spells (List.cons_ne_nil _ _) _ _ spelled)

theorem Framed.mono (framed : Framed p braces front call callers) (spells : ∀ rest v, p rest v → q rest v) :
    Framed q braces front call callers := by
  have same := framed.append [] fun _ rest v spelled => by
    rw [List.append_nil]
    exact spells rest v spelled
  rwa [List.append_nil] at same

/-- The opening braces that are open or still to be read are among these. -/
inductive Within (total : Multiset Brace) (braces : List Brace) (unread : Bytes) : Substitution → Prop
  | reading {front : Bytes} {call : Call} {callers : List Call} {segments : List Bytes} (idle : Idle call.state unread)
    (framed : Framed (Spells unread) braces front call callers) (whole : segments.flatten = unread)
    (enough : ↑braces + marks segments ≤ total) : Within total braces unread (reading front unread call callers)

/-- The guard of the call that has come to the reference knows the names of the brace. -/
theorem reaches_opens (fn : Bytes → Bytes) (framed : Framed Begun braces front call callers) (unescaped : call.state ≠ backslash)
    (held : brace.seen ⊆ guard call front.length) (behind : brace.rest <+: unread) (whole : segments.flatten = unread)
    (enough : ↑(brace :: braces) + marks segments ≤ total) :
    ∃ st', Reaches fn (reading front (dollar :: openBrace :: unread) call callers) st' ∧
      Within total (brace :: braces) unread st' := by
  have pending := step_special fn front (openBrace :: unread) callers unescaped (.inl rfl)
  have pendingState : ({ call with state := dollar } : Call).state = dollar := rfl
  have stepped := step_open fn front unread callers pendingState
  refine ⟨_, .head pending (.head stepped (.refl _)), .reading (.inr (.inl rfl)) ?_ whole enough⟩
  -- The caller waits at the dollar sign, and knows the names that it knew there.
  have known : brace.seen ⊆ (waiting { call with state := dollar } front.length).inner := by
    rw [waiting_inner]
    exact held
  have later : front.length < (waiting { call with state := dollar } front.length).last := by
    rw [waiting_last]
    exact lt_max_of_lt_right (Nat.lt_succ_self _)
  exact .inside (framed.congr (waiting_i _ _)) (waiting_j _ _) (waiting_state _ _) later known rfl
    (.inr ⟨brace.rest, rfl, List.forall_mem_nil _, behind⟩)

/-- The opening brace is no longer to be read, and is open. -/
theorem within_opens (within : Within total braces (dollar :: openBrace :: unread) st) :
    ∃ st' brace, Reaches fn st st' ∧ Within total (brace :: braces) unread st' := by
  cases within with
  | @reading front call callers segments idle framed whole enough =>
    -- The dollar sign may be the last character of one value, and the brace the first of what comes behind it.
    obtain ⟨_, others, left, same⟩ := first_segment whole
    rw [same, marked_of_ne (by decide), ← marks_cons] at enough
    obtain ⟨segment, others, left, same⟩ := first_segment left
    rw [same, marked, if_pos rfl, ← Multiset.cons_coe, Multiset.cons_add, Multiset.add_cons, ← marks_cons, ← Multiset.cons_add,
      Multiset.cons_coe] at enough
    have begun := framed.mono fun rest v spells => spells.begun (by decide) (by simp [Plain])
    have behind : segment <+: unread := by
      rw [← left]
      exact List.prefix_append _ _
    obtain ⟨st', reaches, within⟩ := reaches_opens fn begun idle.unescaped (List.nil_subset _) behind left enough
    exact ⟨st', _, reaches, within⟩

/-- A character that stands for itself. -/
theorem within_char {c : UInt8} (within : Within total braces (c :: unread) st) (single : c = backslash → unread = [])
    (open_ : c = dollar → unread.head? ≠ some openBrace) (unmatched : c = closeBrace → braces = []) :
    ∃ st', Reaches fn st st' ∧ Within total braces unread st' := by
  cases within with
  | @reading front call callers segments idle framed whole enough =>
    obtain ⟨left, same, fewer⟩ := marks_le whole
    have enough := (add_le_add_right fewer _).trans enough
    have framed : Framed (Spells unread) braces (front ++ [c]) call callers := framed.append [c]
      fun nested rest v spells => spells.char fun closed => nested (unmatched closed)
    by_cases special : c = dollar ∨ c = backslash
    · have stepped := step_special fn front unread callers idle.unescaped special
      refine ⟨_, .head stepped (.refl _), .reading ?_ (framed.congr rfl) same enough⟩
      obtain isDollar | isBackslash := special
      · exact .inr (.inr ⟨isDollar, open_ isDollar⟩)
      · exact .inl (single isBackslash)
    -- Outside all calls a closing brace is a character like others.
    · have top : c = closeBrace → callers = [] := by
        intro closed
        obtain rfl := unmatched closed
        cases framed with
        | top => rfl
      have stepped := step_plain fn front unread callers idle.unescaped idle.closed (not_or.mp special) top
      exact ⟨_, .head stepped (.refl _), .reading (.inr (.inl rfl)) (framed.congr rfl) same enough⟩

/-- An escaped character, and the one behind it. -/
theorem within_escape {d e : UInt8} (within : Within total braces (backslash :: d :: e :: unread) st) :
    ∃ st', Reaches fn st st' ∧ Within total braces unread st' := by
  cases within with
  | @reading front call callers segments idle framed whole enough =>
    have escaped := step_special fn front (d :: e :: unread) callers idle.unescaped (.inr rfl)
    have pendingState : ({ call with state := backslash } : Call).state = backslash := rfl
    have removed := step_unescape fn front unread callers pendingState d e
    obtain ⟨left, same, first⟩ := marks_le whole
    obtain ⟨left, same, second⟩ := marks_le same
    obtain ⟨left, same, third⟩ := marks_le same
    have fewer := third.trans (second.trans first)
    have written : Framed (Spells unread) braces (front ++ [d, e]) call callers := framed.append [d, e]
      fun _ rest v spells => .inl ((spells.begun (by decide) (by simp [Plain])).append _)
    exact ⟨_, .head escaped (.head removed (.refl _)),
      .reading (.inr (.inl rfl)) (written.congr rfl) same ((add_le_add_right fewer _).trans enough)⟩

/-! ## Turns -/

/-- What is left of the opening braces and of the text after some turns. -/
inductive Turned (fn : Bytes → Bytes) : Multiset Brace × Bytes → Multiset Brace × Bytes → Prop
  | read {total : Multiset Brace} {unread' unread : Bytes} (sublist : unread'.Sublist unread)
    (shorter : unread'.length < unread.length) : Turned fn (total, unread') (total, unread)
  /-- The value of a name behind the brace takes its place, or nothing does. -/
  | replaced {more total : Multiset Brace} {brace : Brace} {value unread' unread : Bytes}
    (looked : value = [] ∨ ∃ name, brace.LooksUp name ∧ value = fn name) (opens : ∀ inner ∈ more, Opens fn inner brace)
    (sublist : unread'.Sublist (value ++ unread)) : Turned fn (more + total, unread') (brace ::ₘ total, closeBrace :: unread)

theorem opens_of_mem {name u v : Bytes} (looks : brace.LooksUp name) (value : fn name = u ++ v)
    (behind : ∀ before rest, v = before ++ openBrace :: rest → u ++ before ≠ [] ∧ u ++ before ≠ [dollar]) :
    ∀ inner ∈ (marked v : Multiset Brace), Opens fn inner brace := by
  intro inner member
  obtain ⟨unseen, before, rfl⟩ := before_of_mem_marked (Multiset.mem_coe.mp member)
  obtain ⟨some_, other⟩ := behind before _ rfl
  refine ⟨name, u ++ before, looks, ?_, some_, ?_⟩
  · rw [value, List.append_assoc]
  · rw [unseen, if_neg other]

theorem marks_cons_le {v : Bytes} (enough : ↑braces + marks segments ≤ total) :
    ↑braces + marks (v :: segments) ≤ ↑(marked v) + total := by
  rw [marks_cons, add_left_comm]
  exact add_le_add_right enough _

/-- The value is next, and its opening braces are inside the one that the name was behind. -/
theorem reaches_value {name : Bytes} {caller : Call} (outer : Framed Begun braces front caller callers) (waits : caller.state = 0)
    (later : front.length < caller.last) (held : brace.seen ⊆ caller.inner) (looks : brace.LooksUp name)
    (enough : ↑braces + marks segments ≤ total) :
    ∃ st' more braces' unread', (∀ inner ∈ more, Opens fn inner brace) ∧ unread'.Sublist (fn name ++ segments.flatten) ∧
      Reaches fn (reading front (fn name ++ segments.flatten) { caller with inner := name :: caller.inner } callers) st' ∧
      Within (more + total) braces' unread' st' := by
  obtain ⟨call, isCall⟩ : ∃ call, call = { caller with inner := name :: caller.inner } := ⟨_, rfl⟩
  have framed : Framed Begun braces front call callers := isCall ▸ outer.congr rfl
  have idle : call.state = 0 := isCall ▸ waits
  have known : name :: brace.seen ⊆ guard call front.length := by
    have waiting : front.length < call.last := isCall ▸ later
    rw [guard_eq waiting, isCall]
    exact List.cons_subset_cons _ held
  have unescaped : call.state ≠ backslash := by
    rw [idle]
    decide
  rw [← isCall]
  by_cases first : ∃ v, fn name = openBrace :: v
  · -- Nothing is opened by a brace without a dollar sign.
    obtain ⟨v, value⟩ := first
    have closed : ¬ (call.state = dollar ∧ openBrace = openBrace) := by
      rw [idle]
      decide
    have stepped := step_plain fn front (v ++ segments.flatten) callers unescaped closed (by decide)
      fun brace => absurd brace (by decide)
    have passed : Framed (Spells (v ++ segments.flatten)) braces (front ++ [openBrace]) call callers :=
      framed.append [openBrace] fun _ rest w begun => .inl (begun.append _)
    have behind : fn name = [openBrace] ++ v := value
    rw [value]
    exact ⟨_, marked v, braces, v ++ segments.flatten, opens_of_mem looks behind fun before _ _ => by simp [openBrace, dollar],
      List.sublist_cons_self _ _, .head stepped (.refl _), .reading (.inr (.inl rfl)) (passed.congr rfl) rfl (marks_cons_le enough)⟩
  by_cases leads : ∃ v, fn name = dollar :: openBrace :: v
  · -- The position stays, and the guard knows the name.
    obtain ⟨v, value⟩ := leads
    obtain ⟨lead, isLead⟩ : ∃ lead : Brace, lead = ⟨v, name :: brace.seen⟩ := ⟨_, rfl⟩
    have opens : Opens fn lead brace := by
      rw [isLead]
      exact ⟨name, [dollar], looks, value, by simp, by simp⟩
    have enough : ↑(lead :: braces) + marks (v :: segments) ≤ (lead ::ₘ ↑(marked v)) + total := by
      rw [← Multiset.cons_coe, Multiset.cons_add, Multiset.cons_add]
      exact Multiset.cons_le_cons _ (marks_cons_le enough)
    obtain ⟨st', reaches, within⟩ := reaches_opens fn framed unescaped (isLead ▸ known)
      (isLead ▸ List.prefix_append v segments.flatten) rfl enough
    rw [value]
    refine ⟨st', _, _, _, ?_, ((List.sublist_cons_self _ _).cons _), reaches, within⟩
    intro inner member
    obtain rfl | inside := Multiset.mem_cons.mp member
    · exact opens
    · have behind : fn name = [dollar, openBrace] ++ v := value
      exact opens_of_mem looks behind (fun before _ _ => by simp) inner inside
  · have spelled : Framed (Spells (fn name ++ segments.flatten)) braces front call callers :=
      framed.mono fun rest w begun => .inl begun
    refine ⟨_, marked (fn name), braces, fn name ++ segments.flatten, ?_, List.Sublist.refl _, .refl _,
      .reading (.inr (.inl idle)) spelled rfl (marks_cons_le enough)⟩
    apply opens_of_mem looks (List.nil_append (fn name)).symm
    rintro before rest value
    constructor
    · rintro rfl
      exact first ⟨_, value⟩
    · rintro rfl
      exact leads ⟨_, value⟩

/-- A closing brace that is matched. -/
theorem within_closes (within : Within total (brace :: braces) (closeBrace :: unread) st) :
    ∃ st' total' braces' unread', Reaches fn st st' ∧ Within total' braces' unread' st' ∧
      Turned fn (total', unread') (total, closeBrace :: unread) := by
  cases within with
  | @reading front call callers segments idle framed whole enough =>
    obtain ⟨segment, others, left, same⟩ := first_segment whole
    rw [same, marked_of_ne (by decide), ← marks_cons, ← Multiset.cons_coe, Multiset.cons_add] at enough
    obtain ⟨spare, rfl⟩ := Multiset.le_iff_exists_add.mp enough
    rw [Multiset.cons_add]
    cases framed with
    | @inside _ _ _ front name _ caller callers outer back waits later held place spells =>
      have closed := step_close fn front unread callers name idle.unescaped place back
      split at closed
      next fresh =>
        have looks : brace.LooksUp name := ⟨spells.names, fun old => fresh (held old)⟩
        obtain ⟨st', more, braces', unread', opens, sublist, reaches, within⟩ := reaches_value outer waits later held looks
          (Multiset.le_add_right _ spare)
        rw [left] at sublist reaches
        exact ⟨st', _, braces', unread', .head closed reaches, within, .replaced (.inr ⟨name, looks, rfl⟩) opens sublist⟩
      next =>
        have nothing : ∀ inner ∈ (0 : Multiset Brace), Opens fn inner brace :=
          fun inner member => absurd member (Multiset.notMem_zero _)
        refine ⟨_, 0 + _, braces, unread, .head closed (.refl _), ?_, .replaced (.inl rfl) nothing (List.Sublist.refl _)⟩
        rw [zero_add]
        exact .reading (.inr (.inl waits)) (outer.mono fun rest w begun => .inl begun) left (Multiset.le_add_right _ spare)

/-- Some turns later. -/
def Advances (fn : Bytes → Bytes) (total : Multiset Brace) (unread : Bytes) (st : Substitution) : Prop :=
  ∃ st' total' braces' unread', Reaches fn st st' ∧ Within total' braces' unread' st' ∧ Turned fn (total', unread') (total, unread)

theorem advances_single {c : UInt8} (within : Within total braces (c :: unread) st) (single : c = backslash → unread = [])
    (open_ : c = dollar → unread.head? ≠ some openBrace) : Advances fn total (c :: unread) st := by
  by_cases closed : c = closeBrace ∧ braces ≠ []
  · obtain ⟨rfl, nested⟩ := closed
    obtain ⟨brace, braces, rfl⟩ := List.exists_cons_of_ne_nil nested
    exact within_closes within
  · have unmatched (brace : c = closeBrace) : braces = [] := by
      by_contra nested
      exact closed ⟨brace, nested⟩
    obtain ⟨st', reaches, within⟩ := within_char within single open_ unmatched
    exact ⟨st', total, braces, unread, reaches, within, .read (List.sublist_cons_self _ _) (Nat.lt_succ_self _)⟩

theorem within_turns (within : Within total braces unread st) :
    (∃ last, Reaches fn st last ∧ last.step fn = none) ∨ Advances fn total unread st := by
  fun_cases skim unread with
  | case1 =>
    cases within with
    | reading => exact .inl ⟨_, .refl _, step_end _ _ _ _⟩
  | case2 c => exact .inr (advances_single within (fun _ => rfl) fun _ => by simp)
  | case3 d =>
    cases within with
    | @reading front call callers segments idle framed whole enough =>
      have escaped := step_special fn front [d] callers idle.unescaped (.inr rfl)
      have pendingState : ({ call with state := backslash } : Call).state = backslash := rfl
      obtain ⟨last, removed, -, ended⟩ := step_unescape_last fn front callers pendingState d
      exact .inl ⟨last, .head escaped (.head removed (.refl _)), ended⟩
  | case4 d e rest =>
    obtain ⟨st', reaches, within⟩ := within_escape within
    have sublist : rest.Sublist (backslash :: d :: e :: rest) := ((List.sublist_cons_self e rest).cons d).cons backslash
    exact .inr ⟨st', total, braces, rest, reaches, within, .read sublist (by simp; omega)⟩
  | case5 c d rest notBackslash opened =>
    obtain ⟨rfl, rfl⟩ := opened
    obtain ⟨st', brace, reaches, within⟩ := within_opens within
    have sublist : rest.Sublist (dollar :: openBrace :: rest) := (List.sublist_cons_self openBrace rest).cons dollar
    exact .inr ⟨st', total, brace :: braces, rest, reaches, within, .read sublist (by simp)⟩
  | case6 c d rest notBackslash single =>
    exact .inr (advances_single within (fun escape => absurd escape notBackslash)
      fun isDollar brace => single ⟨isDollar, Option.some.inj brace⟩)

/-! ## The last turn -/

variable {s : Bytes}

theorem Turned.opened {later earlier : Multiset Brace × Bytes} (turned : Turned fn later earlier)
    (opened : ∀ brace ∈ earlier.1, Opened fn s brace) : ∀ brace ∈ later.1, Opened fn s brace := by
  cases turned with
  | read => exact opened
  | replaced looked opens sublist =>
    intro inner member
    obtain new | old := Multiset.mem_add.mp member
    · exact .value (opened _ (Multiset.mem_cons_self _ _)) (opens inner new)
    · exact opened inner (Multiset.mem_cons_of_mem old)

theorem within_ends {less : Multiset Brace × Bytes → Multiset Brace × Bytes → Prop} (wellFounded : WellFounded less)
    (decreases : ∀ later earlier, (∀ brace ∈ earlier.1, Opened fn s brace) → Turned fn later earlier → less later earlier)
    (opened : ∀ brace ∈ total, Opened fn s brace) (within : Within total braces unread st) :
    ∃ last, Reaches fn st last ∧ last.step fn = none := by
  obtain ⟨place, isPlace⟩ : ∃ place, place = (total, unread) := ⟨_, rfl⟩
  induction place using wellFounded.induction generalizing total braces unread st with
  | h place inductionHypothesis =>
    obtain ended | ⟨st', total', braces', unread', reaches, within, turned⟩ := within_turns within
    · exact ended
    · have nearer := decreases _ _ opened turned
      obtain ⟨last, later, ended⟩ := inductionHypothesis _ (isPlace ▸ nearer) (turned.opened opened) within rfl
      exact ⟨last, reaches.trans later, ended⟩

theorem start_ends {less : Multiset Brace × Bytes → Multiset Brace × Bytes → Prop} (wellFounded : WellFounded less)
    (decreases : ∀ later earlier, (∀ brace ∈ earlier.1, Opened fn s brace) → Turned fn later earlier → less later earlier) :
    ∃ last, Reaches fn (start s) last ∧ last.step fn = none := by
  have within : Within (marks [s]) [] s (start s) :=
    @Within.reading (marks [s]) [] s [] (.search (2 ^ 64 - 1) 0) [] [s] (.inr (.inl rfl)) .top (List.flatten_singleton)
      (by rw [Multiset.coe_nil, zero_add])
  apply within_ends wellFounded decreases _ within
  intro brace member
  obtain ⟨unseen, before, whole⟩ : brace.seen = [] ∧ ∃ before, s = before ++ openBrace :: brace.rest :=
    before_of_mem_marked (by simpa [marks] using member)
  have opened : Opened fn s ⟨brace.rest, []⟩ := .string whole
  rwa [← unseen] at opened

/-- A closing brace is gone with each value that takes its place. -/
theorem Unclosed.ends (unclosed : Unclosed fn s) : ∃ last, Reaches fn (start s) last ∧ last.step fn = none := by
  have wellFounded : WellFounded (InvImage (Prod.Lex (· < ·) (· < ·)) fun place : Multiset Brace × Bytes =>
      (place.2.count closeBrace, place.2.length)) :=
    InvImage.wf _ (WellFounded.prod_lex wellFounded_lt wellFounded_lt)
  apply start_ends wellFounded
  intro later earlier opened turned
  rw [InvImage, Prod.lex_iff]
  cases turned with
  | read sublist shorter => exact (Nat.lt_or_eq_of_le (sublist.count_le closeBrace)).imp id fun same => ⟨same, shorter⟩
  | @replaced _ _ brace value _ unread looked opens sublist =>
    have none_ : value.count closeBrace = 0 := by
      obtain rfl | ⟨name, looks, rfl⟩ := looked
      · rfl
      · exact List.count_eq_zero.mpr (unclosed brace name (opened _ (Multiset.mem_cons_self _ _)) looks)
    have fewer := sublist.count_le closeBrace
    rw [List.count_append, none_, zero_add] at fewer
    left
    simpa using Nat.lt_succ_of_le fewer

/-- The inner brace is in a value behind an outer one that comes to an end. -/
def Lower (fn : Bytes → Bytes) (inner outer : Brace) : Prop := Acc (Opens fn) outer ∧ Opens fn inner outer

theorem lower_wellFounded (fn : Bytes → Bytes) : WellFounded (Lower fn) := by
  have accessible {brace : Brace} (ends : Acc (Opens fn) brace) : Acc (Lower fn) brace :=
    Subrelation.accessible (fun lower => lower.2) ends
  constructor
  intro brace
  constructor
  rintro inner ⟨ends, opens⟩
  exact accessible (ends.inv opens)

/-- The opening braces in a value take the place of the one that the name was behind. -/
theorem Exhausts.ends (exhausts : Exhausts fn s) : ∃ last, Reaches fn (start s) last ∧ last.step fn = none := by
  have wellFounded : WellFounded (InvImage (Prod.Lex (CutExpand (Lower fn)) (· < ·)) fun place : Multiset Brace × Bytes =>
      (place.1, place.2.length)) :=
    InvImage.wf _ (WellFounded.prod_lex (lower_wellFounded fn).cutExpand wellFounded_lt)
  apply start_ends wellFounded
  intro later earlier opened turned
  cases turned with
  | read sublist shorter => exact .right _ shorter
  | @replaced more total brace value unread' unread looked opens sublist =>
    have ends := exhausts brace (opened brace (Multiset.mem_cons_self _ _))
    refine .left _ _ ⟨more, brace, fun inner member => ⟨ends, opens inner member⟩, ?_⟩
    rw [← Multiset.singleton_add, add_comm (more + total), add_comm more, add_assoc]

end VarSub

end Swirly
