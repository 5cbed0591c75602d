import Swirly.Fin.Output
import Swirly.Verified.Body.Strings
import Swirly.Verified.Fix.Tokens

/-!
# Strings that come back

A string goes into an order or an execution through a request body and comes out in a JSON text, between quotes and as it is.
The text is an object in which it can be read again just when it has nothing that JSON escapes.
-/

namespace Swirly

open RestBody

/-- The grammar of bodies reads the string in the value of a member. -/
def ReadAs (value s : Bytes) : Prop :=
  (value = JsonValue.text .null ∧ s = []) ∨
    ∃ letters, value = JsonValue.text (.str letters) ∧ s = letters.map Letter.decode

/-- The text is a JSON object, and each of the strings is read in the member of its name. -/
def ReadBack (json : Bytes) (strings : List (String × Bytes)) : Prop :=
  ∃ members, Json.Object members json ∧
    ∀ p ∈ strings, (∃ v, (bytes p.1, v) ∈ members) ∧ ∀ v, (bytes p.1, v) ∈ members → ReadAs v p.2

theorem readAs_quoted {t s : Bytes} :
    ReadAs (Json.quoted t) s ↔ ∃ letters : List Letter, t = letters.flatMap Letter.text ∧ s = letters.map Letter.decode := by
  constructor
  · rintro (⟨null, -⟩ | ⟨letters, written, read⟩)
    · exact absurd (List.cons.inj null).1 (by decide)
    · refine ⟨letters, ?_, read⟩
      exact List.append_cancel_right (List.cons.inj written).2
  · rintro ⟨letters, rfl, rfl⟩
    exact Or.inr ⟨letters, rfl, rfl⟩

/-! ## Numbers and names -/

theorem head_decimal {n : Nat} (positive : n ≠ 0) : (decimal n).head? ≠ some 48 := by
  have one : ∀ n < 10, n ≠ 0 → [digitChar (Fin.ofNat 10 n)].head? ≠ some 48 := by decide
  induction n using Nat.strong_induction_on with
  | h n inductionHypothesis =>
    by_cases small : n < 10
    · rw [decimal_of_lt small]
      exact one n small positive
    · rw [decimal_of_ge (not_lt.mp small), List.head?_append_of_ne_nil _ (decimal_ne_nil _)]
      exact inductionHypothesis (n / 10) (by omega) (by omega)

theorem whole_decimal (n : Nat) : Json.Whole (decimal n) := by
  refine ⟨⟨decimal_ne_nil n, isDigit_decimal n⟩, fun zero => ?_⟩
  cases n with
  | zero => rfl
  | succ n => exact absurd zero (head_decimal (Nat.succ_ne_zero n))

theorem insertInt_ofNat (n : Nat) : insertInt n = decimal n := rfl

theorem number_insertInt (n : Int) : Json.Number (insertInt n) := by
  cases n with
  | ofNat n =>
    refine ⟨[], decimal n, [], [], by simp, whole_decimal n, Or.inl rfl, Or.inl rfl, ?_⟩
    simp [insertInt_ofNat]
  | negSucc n =>
    refine ⟨bytes "-", decimal (n + 1), [], [], by simp, whole_decimal _, Or.inl rfl, Or.inl rfl, ?_⟩
    rw [insertInt_negSucc, List.append_nil, List.append_nil]
    rfl

/-- Names of ASCII characters that need no escape. -/
def isClear (name : String) : Bool :=
  name.toList.all fun c => 32 ≤ c.toNat && c.toNat < 128 && c.toNat ≠ 34 && c.toNat ≠ 92

theorem plain_bytes {name : String} (clear : isClear name) : Json.Plain (bytes name) := by
  have each : ∀ c ∈ name.toList, ((32 ≤ c.toNat ∧ c.toNat < 128) ∧ c.toNat ≠ 34) ∧ c.toNat ≠ 92 := by
    simpa [isClear] using clear
  refine ⟨name.toList, fun c inside => ⟨(each c inside).1.1.1, (each c inside).1.2, (each c inside).2⟩, ?_⟩
  have one : ∀ c ∈ name.toList, String.utf8EncodeChar c = [UInt8.ofNat c.toNat] := by
    intro c inside
    have small : c.val.toNat ≤ 127 := Nat.le_of_lt_succ (each c inside).1.1.2
    simp only [String.utf8EncodeChar, if_pos small]
    rfl
  rw [List.flatMap_congr one, bytes]
  exact List.flatMap_pure_eq_map _ _

theorem plain_state (state : State) : Json.Plain state.name := by
  cases state <;> exact plain_bytes (by decide)

theorem plain_side (side : Side) : Json.Plain side.name := by
  cases side <;> exact plain_bytes (by decide)

theorem plain_liqInd (liqInd : LiqInd) : Json.Plain liqInd.name := by
  cases liqInd <;> exact plain_bytes (by decide)

/-- No string with a NUL is plain. -/
theorem nonzero_of_plain {s : Bytes} (plain : Json.Plain s) : ∀ c ∈ s, c ≠ 0 := by
  obtain ⟨cs, unescaped, rfl⟩ := plain
  rintro b inside rfl
  obtain ⟨c, member, inside⟩ := List.mem_flatMap.mp inside
  have printable := (unescaped c member).1
  rw [Json.toNat_of_mem_encode inside (by decide)] at printable
  exact absurd printable (by decide)

/-! ## What is inserted for a string -/

/-- What is inserted for the string is its front, and all of a plain one. -/
inductive Prints : Insertion → Bytes → Prop
  | null {s : Bytes} (nothing : Json.Plain s → s = []) : Prints .null s
  | str {t s : Bytes} (front : t <+: s) (whole : Json.Plain s → t = s) : Prints (.str t) s

theorem view_assign {s : Bytes} (fits : s.length ≤ maxSymbol) : (Symbol.assign s).view = toStringView s :=
  toStringView_pstrcpy fits

theorem toStringView_plain {s : Bytes} (plain : Json.Plain s) : toStringView s = s := by
  rw [toStringView, List.takeWhile_eq_self_iff]
  simpa using nonzero_of_plain plain

theorem prints_symbol {s : Bytes} (fits : s.length ≤ maxSymbol) : Prints (.str (Symbol.assign s).view) s := by
  rw [view_assign fits]
  exact Prints.str (List.takeWhile_prefix _) toStringView_plain

/-- A symbol of NULs counts as empty. -/
theorem prints_maybeSymbol {s : Bytes} (fits : s.length ≤ maxSymbol) :
    Prints (.orNull (Symbol.assign s).isEmpty (.str (Symbol.assign s).view)) s := by
  rw [Insertion.orNull]
  split
  · apply Prints.null
    intro plain
    have zeros : ∀ c ∈ s, c = 0 := by
      intro c inside
      have whole : (Symbol.assign s).buf = s ++ List.replicate (maxSymbol - s.length) 0 := by
        show pstrcpy maxSymbol s = _
        rw [pstrcpy, List.take_of_length_le fits]
      have all := List.all_eq_true.mp ‹(Symbol.assign s).isEmpty = true› c
      rw [whole] at all
      simpa using all (List.mem_append_left _ inside)
    exact List.eq_nil_iff_forall_not_mem.mpr fun c inside => nonzero_of_plain plain c inside (zeros c inside)
  · exact prints_symbol fits

theorem prints_ref {s : Bytes} (fits : s.length ≤ maxRef) :
    Prints (.orNull (StringBuf.assign s : Ref).isEmpty (.str (StringBuf.assign s : Ref).data)) s := by
  have data : (StringBuf.assign s : Ref).data = s := StringBuf.assign_data fits
  rw [Insertion.orNull, StringBuf.isEmpty, data]
  split
  · exact Prints.null fun _ => List.isEmpty_iff.mp ‹_›
  · exact Prints.str (List.prefix_refl s) fun _ => rfl

/-! ## The members of a record -/

namespace Insertion

/-- The value stands for itself in JSON. -/
def Safe : Insertion → Prop
  | str s => Json.Plain s
  | null | num _ => True

theorem Safe.value {i : Insertion} (safe : i.Safe) : Json.Value i.text := by
  cases i with
  | null => exact Json.Value.word (by decide)
  | num n => exact Json.Value.number (number_insertInt n)
  | str s => exact Json.Value.string safe.chars

theorem Safe.simple {i : Insertion} (safe : i.Safe) : Json.Simple i.text := by
  cases i with
  | null => exact Json.Simple.token (by decide) (by decide +kernel)
  | num n => exact Json.Simple.token (number_insertInt n).token.1 (number_insertInt n).token.2
  | str s => exact Json.Simple.string safe.chars.scanned

end Insertion

def JsonMember.text (m : JsonMember) : Bytes × Bytes := (bytes m.1, m.2.text)

/-- What is inserted for a string that is read in the first value is plain. -/
theorem plain_of_front {m : JsonMember} {fields : List JsonMember} {members : List (Bytes × Bytes)}
    (read : Json.Members members (Json.rendered (m.text :: fields.map JsonMember.text))) (clear : isClear m.1) {t s : Bytes}
    (inserted : m.2 = .str t) (front : t <+: s) (back : ∀ v, (bytes m.1, v) ∈ members → ReadAs v s) : Json.Plain t := by
  have string : m.text.2 = Json.quoted t := by rw [JsonMember.text, inserted]; rfl
  obtain ⟨u, rest, more, chars, inside, same⟩ := read.front_string (plain_bytes clear).chars.scanned string
  obtain ⟨letters, rfl, rfl⟩ := readAs_quoted.mp (back _ inside)
  obtain ⟨ordinary, -, written⟩ := Letter.read_back front rfl same
  rw [written] at chars
  exact chars.plain fun escape => (ordinary _ escape).2 rfl

/-- A derivation shows the members that were written, when every string among them is read back. -/
theorem members_eq {fields : List JsonMember} (clear : ∀ m ∈ fields, isClear m.1) {members : List (Bytes × Bytes)}
    (read : Json.Members members (Json.rendered (fields.map JsonMember.text)))
    (back : ∀ m ∈ fields, m.2.Safe ∨
      ∃ t s, m.2 = .str t ∧ t <+: s ∧ ∀ v, (bytes m.1, v) ∈ members → ReadAs v s) :
    (fields ≠ [] → members = fields.map JsonMember.text) ∧ ∀ m ∈ fields, m.2.Safe := by
  induction fields generalizing members with
  | nil => exact ⟨fun some => absurd rfl some, List.forall_mem_nil _⟩
  | cons m fields inductionHypothesis =>
    rw [List.forall_mem_cons] at clear back
    have safe : m.2.Safe := by
      rcases back.1 with safe | ⟨t, s, inserted, front, back⟩
      · exact safe
      · have plain := plain_of_front read clear.1 inserted front back
        rwa [inserted]
    obtain ⟨others, rfl, follow⟩ := read.front (plain_bytes clear.1).chars.scanned safe.simple
    rcases follow with ⟨rfl, none⟩ | ⟨some, read⟩
    · cases List.map_eq_nil_iff.mp none
      exact ⟨fun _ => rfl, List.forall_mem_cons.mpr ⟨safe, List.forall_mem_nil _⟩⟩
    · have rest := inductionHypothesis clear.2 read fun m inside => by
        rcases back.2 m inside with safe | ⟨t, s, inserted, front, back⟩
        · exact Or.inl safe
        · exact Or.inr ⟨t, s, inserted, front, fun v member => back v (List.mem_cons_of_mem _ member)⟩
      refine ⟨fun _ => ?_, List.forall_mem_cons.mpr ⟨safe, rest.2⟩⟩
      rw [List.map_cons, rest.1 (by rintro rfl; exact some rfl)]

theorem object_of_safe {fields : List JsonMember} (some : fields ≠ []) (clear : ∀ m ∈ fields, isClear m.1)
    (safe : ∀ m ∈ fields, m.2.Safe) : Json.Object (fields.map JsonMember.text) (jsonObject fields) := by
  apply Json.Object.members
  apply Json.Members.of_rendered
  · simpa using some
  · intro p inside
    obtain ⟨m, member, rfl⟩ := List.mem_map.mp inside
    exact ⟨(plain_bytes (clear m member)).chars, (safe m member).value⟩

/-- The strings are inserted into the members of their names, and the other members cannot go wrong. -/
structure Covers (fields : List JsonMember) (strings : List (String × Bytes)) : Prop where
  clear : ∀ m ∈ fields, isClear m.1
  distinct : (fields.map fun m => bytes m.1).Nodup
  others : ∀ m ∈ fields, m.2.Safe ∨ ∃ s, (m.1, s) ∈ strings ∧ Prints m.2 s
  inserted : ∀ p ∈ strings, ∃ i, (p.1, i) ∈ fields ∧ Prints i p.2

namespace Covers

variable {fields : List JsonMember} {strings : List (String × Bytes)}

theorem plain_of_readBack (covers : Covers fields strings) (back : ReadBack (jsonObject fields) strings) :
    ∀ p ∈ strings, Json.Plain p.2 := by
  obtain ⟨members, object, back⟩ := back
  intro p inside
  obtain ⟨i, member, prints⟩ := covers.inserted p inside
  have some : fields ≠ [] := List.ne_nil_of_mem member
  have read : Json.Members members (Json.rendered (fields.map JsonMember.text)) := by
    cases fields with
    | nil => exact absurd rfl some
    | cons m fields => exact object.inside
  -- A member is safe, or it is a string that was read back, and then its text is the text of a string.
  obtain ⟨whole, safe⟩ := members_eq covers.clear read fun m field => by
    rcases covers.others m field with safe | ⟨s, string, prints⟩
    · exact Or.inl safe
    · cases value : m.2 with
      -- `null` can only be read as the empty string.
      | null => exact Or.inl trivial
      | num n => exact Or.inl trivial
      | str t =>
        rw [value] at prints
        cases prints with
        | str front => exact Or.inr ⟨t, s, rfl, front, (back _ string).2⟩
  have reads : ReadAs i.text p.2 := by
    apply (back p inside).2
    rw [whole some]
    exact List.mem_map_of_mem (f := JsonMember.text) member
  cases prints with
  | null =>
    rcases reads with ⟨-, nothing⟩ | ⟨letters, written, -⟩
    · rw [nothing]
      exact ⟨[], List.forall_mem_nil _, rfl⟩
    · exact absurd (List.cons.inj written).1 (by decide)
  | @str t s front =>
    obtain ⟨letters, rfl, read⟩ := readAs_quoted.mp reads
    have closed : letters.flatMap Letter.text ++ quote :: [] = letters.flatMap Letter.text ++ quote :: [] := rfl
    obtain ⟨-, complete, -⟩ := Letter.read_back front read.symm closed
    rw [complete]
    exact safe _ member

theorem readBack_of_plain (covers : Covers fields strings) (some : fields ≠ []) (plain : ∀ p ∈ strings, Json.Plain p.2) :
    ReadBack (jsonObject fields) strings := by
  have safe : ∀ m ∈ fields, m.2.Safe := by
    intro m field
    rcases covers.others m field with safe | ⟨s, string, prints⟩
    · exact safe
    · cases value : m.2 with
      | null => trivial
      | num n => trivial
      | str t =>
        rw [value] at prints
        cases prints with
        | str _ whole =>
          have plain := plain _ string
          rw [Insertion.Safe, whole plain]
          exact plain
  refine ⟨fields.map JsonMember.text, object_of_safe some covers.clear safe, fun p inside => ?_⟩
  obtain ⟨i, member, prints⟩ := covers.inserted p inside
  refine ⟨⟨i.text, List.mem_map_of_mem (f := JsonMember.text) member⟩, fun v shown => ?_⟩
  have only : v = i.text := by
    obtain ⟨m, field, same⟩ := List.mem_map.mp shown
    obtain ⟨name, rfl⟩ := Prod.mk.inj same
    rw [List.inj_on_of_nodup_map covers.distinct field member name]
  rw [only]
  cases prints with
  | null nothing => exact Or.inl ⟨rfl, nothing (plain p inside)⟩
  | str _ whole =>
    have plain := plain p inside
    obtain ⟨letters, written, read⟩ := Letter.read_plain plain.ordinary
    rw [whole plain]
    exact readAs_quoted.mpr ⟨letters, written.symm, read.symm⟩

theorem readBack_iff (covers : Covers fields strings) (some : fields ≠ []) :
    ReadBack (jsonObject fields) strings ↔ ∀ p ∈ strings, Json.Plain p.2 :=
  ⟨covers.plain_of_readBack, covers.readBack_of_plain some⟩

end Covers

/-! ## Orders and executions -/

theorem Insertion.safe_orNull {absent : Bool} {i : Insertion} (safe : i.Safe) : (orNull absent i).Safe := by
  rw [orNull]
  split
  · trivial
  · exact safe

def orderNames : List String :=
  ["accnt", "market_id", "instr", "settl_date", "id", "ref", "state", "side", "lots", "ticks", "resd_lots", "exec_lots",
    "exec_cost", "last_lots", "last_ticks", "min_lots", "created", "modified"]

def execNames : List String :=
  ["accnt", "market_id", "instr", "settl_date", "id", "order_id", "ref", "state", "side", "lots", "ticks", "resd_lots",
    "exec_lots", "exec_cost", "last_lots", "last_ticks", "min_lots", "match_id", "posn_lots", "posn_cost", "liq_ind", "cpty",
    "created"]

theorem clear_names : ∀ name ∈ orderNames ++ execNames, isClear name := by decide +kernel

theorem distinct_names : (orderNames.map bytes).Nodup ∧ (execNames.map bytes).Nodup := by decide +kernel

section Strings

variable {accnt instr ref cpty : Bytes}

def Order.strings (accnt instr ref : Bytes) : List (String × Bytes) := [("accnt", accnt), ("instr", instr), ("ref", ref)]

def Exec.strings (accnt instr ref cpty : Bytes) : List (String × Bytes) := Order.strings accnt instr ref ++ [("cpty", cpty)]

theorem safe_num {n : Int} : (Insertion.num n).Safe := trivial

theorem safe_maybe {absent : Bool} {n : Int} : (Insertion.orNull absent (.num n)).Safe := Insertion.safe_orNull safe_num

theorem Order.covers {o : Order} (accepted : Accepted .accnt accnt ∧ Accepted .instr instr ∧ Accepted .ref ref)
    (own : o.accnt = .assign accnt ∧ o.instr = .assign instr ∧ o.ref = .assign ref) :
    Covers o.jsonMembers (Order.strings accnt instr ref) := by
  have printsAccnt : Prints (.str o.accnt.view) accnt := own.1 ▸ prints_symbol (accepted.1.length_le rfl)
  have printsInstr : Prints (.str o.instr.view) instr := own.2.1 ▸ prints_symbol (accepted.2.1.length_le rfl)
  have printsRef : Prints (.orNull o.ref.isEmpty (.str o.ref.data)) ref :=
    own.2.2 ▸ prints_ref (accepted.2.2.length_le rfl)
  refine ⟨fun m inside => ?_, distinct_names.1, ?_, ?_⟩
  · exact clear_names m.1 (List.mem_append_left _ (List.mem_map_of_mem (l := o.jsonMembers) (f := Prod.fst) inside))
  · simp only [jsonMembers, List.forall_mem_cons]
    exact ⟨.inr ⟨accnt, by simp [strings], printsAccnt⟩, .inl safe_num, .inr ⟨instr, by simp [strings], printsInstr⟩,
      .inl safe_maybe, .inl safe_num, .inr ⟨ref, by simp [strings], printsRef⟩, .inl (plain_state _), .inl (plain_side _),
      .inl safe_num, .inl safe_num, .inl safe_num, .inl safe_num, .inl safe_num, .inl safe_maybe, .inl safe_maybe,
      .inl safe_maybe, .inl safe_num, .inl safe_num, List.forall_mem_nil _⟩
  · simp only [strings, List.forall_mem_cons]
    exact ⟨⟨_, by simp [jsonMembers], printsAccnt⟩, ⟨_, by simp [jsonMembers], printsInstr⟩,
      ⟨_, by simp [jsonMembers], printsRef⟩, List.forall_mem_nil _⟩

theorem Exec.covers {e : Exec}
    (accepted : Accepted .accnt accnt ∧ Accepted .instr instr ∧ Accepted .ref ref ∧ Accepted .cpty cpty)
    (own : e.accnt = .assign accnt ∧ e.instr = .assign instr ∧ e.ref = .assign ref ∧ e.cpty = .assign cpty) :
    Covers e.jsonMembers (Exec.strings accnt instr ref cpty) := by
  have printsAccnt : Prints (.str e.accnt.view) accnt := own.1 ▸ prints_symbol (accepted.1.length_le rfl)
  have printsInstr : Prints (.str e.instr.view) instr := own.2.1 ▸ prints_symbol (accepted.2.1.length_le rfl)
  have printsRef : Prints (.orNull e.ref.isEmpty (.str e.ref.data)) ref :=
    own.2.2.1 ▸ prints_ref (accepted.2.2.1.length_le rfl)
  have printsCpty : Prints (.orNull e.cpty.isEmpty (.str e.cpty.view)) cpty :=
    own.2.2.2 ▸ prints_maybeSymbol (accepted.2.2.2.length_le rfl)
  refine ⟨fun m inside => ?_, distinct_names.2, ?_, ?_⟩
  · exact clear_names m.1 (List.mem_append_right _ (List.mem_map_of_mem (l := e.jsonMembers) (f := Prod.fst) inside))
  · simp only [jsonMembers, List.forall_mem_cons]
    exact ⟨.inr ⟨accnt, by simp [strings, Order.strings], printsAccnt⟩, .inl safe_num,
      .inr ⟨instr, by simp [strings, Order.strings], printsInstr⟩, .inl safe_maybe, .inl safe_num, .inl safe_num,
      .inr ⟨ref, by simp [strings, Order.strings], printsRef⟩, .inl (plain_state _), .inl (plain_side _), .inl safe_num,
      .inl safe_num, .inl safe_num, .inl safe_num, .inl safe_num, .inl safe_maybe, .inl safe_maybe, .inl safe_maybe,
      .inl safe_maybe, .inl safe_maybe, .inl safe_maybe, .inl (Insertion.safe_orNull (plain_liqInd _)),
      .inr ⟨cpty, by simp [strings, Order.strings], printsCpty⟩, .inl safe_num, List.forall_mem_nil _⟩
  · simp only [strings, Order.strings, List.cons_append, List.nil_append, List.forall_mem_cons]
    exact ⟨⟨_, by simp [jsonMembers], printsAccnt⟩, ⟨_, by simp [jsonMembers], printsInstr⟩,
      ⟨_, by simp [jsonMembers], printsRef⟩, ⟨_, by simp [jsonMembers], printsCpty⟩, List.forall_mem_nil _⟩

end Strings

/-- The strings of an order and of an execution come back just when there is nothing in them that JSON escapes. -/
theorem strings_survive_iff (o : Order) (e : Exec) (accnt instr ref cpty : Bytes) :
    (Accepted .accnt accnt ∧ Accepted .instr instr ∧ Accepted .ref ref →
      o.accnt = .assign accnt ∧ o.instr = .assign instr ∧ o.ref = .assign ref →
      (ReadBack o.toJson (Order.strings accnt instr ref) ↔ ∀ s ∈ [accnt, instr, ref], Json.Plain s)) ∧
    (Accepted .accnt accnt ∧ Accepted .instr instr ∧ Accepted .ref ref ∧ Accepted .cpty cpty →
      e.accnt = .assign accnt ∧ e.instr = .assign instr ∧ e.ref = .assign ref ∧ e.cpty = .assign cpty →
      (ReadBack e.toJson (Exec.strings accnt instr ref cpty) ↔ ∀ s ∈ [accnt, instr, ref, cpty], Json.Plain s)) := by
  constructor
  · intro accepted own
    rw [Order.toJson, (Order.covers accepted own).readBack_iff (List.cons_ne_nil _ _)]
    simp [Order.strings]
  · intro accepted own
    rw [Exec.toJson, (Exec.covers accepted own).readBack_iff (List.cons_ne_nil _ _)]
    simp [Exec.strings, Order.strings]

/-- The members of a request, with `typed` between the quotes of the reference. -/
def request (typed : String) : Bytes :=
  bytes "\x7b\"accnt\":\"MARAYL\",\"instr\":\"EURUSD\",\"cpty\":\"GOSAYL\",\"ref\":\"" ++ bytes typed ++ bytes "\"\x7d"

def requested (ref : Bytes) : Order := .make (.assign (bytes "MARAYL")) 1 (.assign (bytes "EURUSD")) 0 1 ref .buy 10 12345 1 0

theorem strings_survive_apple :
    ReadBack (requested (bytes "apple")).toJson (Order.strings (bytes "MARAYL") (bytes "EURUSD") (bytes "apple")) ∧
    ReadBack ((Exec.make (requested (bytes "apple")) 2 0).trade 10 12345 3 .maker (.assign (bytes "GOSAYL"))).toJson
      (Exec.strings (bytes "MARAYL") (bytes "EURUSD") (bytes "apple") (bytes "GOSAYL")) := by
  have final : ((request "apple").foldl step reset).cs = .final := by decide +kernel
  have accnt : Accepted .accnt (bytes "MARAYL") := accepted_of_final final (by decide +kernel)
  have instr : Accepted .instr (bytes "EURUSD") := accepted_of_final final (by decide +kernel)
  have ref : Accepted .ref (bytes "apple") := accepted_of_final final (by decide +kernel)
  have cpty : Accepted .cpty (bytes "GOSAYL") := accepted_of_final final (by decide +kernel)
  have plain : ∀ name ∈ ["MARAYL", "EURUSD", "apple", "GOSAYL"], Json.Plain (bytes name) := by
    intro name inside
    apply plain_bytes
    revert name
    decide +kernel
  have both := strings_survive_iff (requested (bytes "apple"))
    ((Exec.make (requested (bytes "apple")) 2 0).trade 10 12345 3 .maker (.assign (bytes "GOSAYL")))
    (bytes "MARAYL") (bytes "EURUSD") (bytes "apple") (bytes "GOSAYL")
  constructor
  · apply (both.1 ⟨accnt, instr, ref⟩ ⟨rfl, rfl, rfl⟩).mpr
    simpa using ⟨plain "MARAYL" (by simp), plain "EURUSD" (by simp), plain "apple" (by simp)⟩
  · apply (both.2 ⟨accnt, instr, ref, cpty⟩ ⟨rfl, rfl, rfl, rfl⟩).mpr
    simpa using ⟨plain "MARAYL" (by simp), plain "EURUSD" (by simp), plain "apple" (by simp), plain "GOSAYL" (by simp)⟩

/-- A reference with a quote in it. -/
theorem quote_lost :
    Accepted .ref (bytes "a\"b") ∧
    ¬ ReadBack (requested (bytes "a\"b")).toJson (Order.strings (bytes "MARAYL") (bytes "EURUSD") (bytes "a\"b")) ∧
    ¬ ReadBack (Exec.make (requested (bytes "a\"b")) 2 0).toJson
      (Exec.strings (bytes "MARAYL") (bytes "EURUSD") (bytes "a\"b") []) := by
  have final : ((request "a\\\"b").foldl step reset).cs = .final := by decide +kernel
  have accnt : Accepted .accnt (bytes "MARAYL") := accepted_of_final final (by decide +kernel)
  have instr : Accepted .instr (bytes "EURUSD") := accepted_of_final final (by decide +kernel)
  have ref : Accepted .ref (bytes "a\"b") := accepted_of_final final (by decide +kernel)
  have cpty : Accepted .cpty [] := by
    have nothing : ((bytes "\x7b\x7d").foldl step reset).cs = .final := by decide +kernel
    exact accepted_of_final nothing (by decide +kernel)
  have escaped : ¬ Json.Plain (bytes "a\"b") := fun plain => (plain.ordinary 34 (by decide)).1 rfl
  have third : ∀ {p q r : String × Bytes} {ps : List (String × Bytes)}, r ∈ p :: q :: r :: ps :=
    List.mem_cons_of_mem _ (List.mem_cons_of_mem _ (List.mem_cons_self ..))
  refine ⟨ref, fun back => escaped ?_, fun back => escaped ?_⟩
  · exact (Order.covers ⟨accnt, instr, ref⟩ ⟨rfl, rfl, rfl⟩).plain_of_readBack back _ third
  · exact (Exec.covers ⟨accnt, instr, ref, cpty⟩ ⟨rfl, rfl, rfl, rfl⟩).plain_of_readBack back _ third

end Swirly
