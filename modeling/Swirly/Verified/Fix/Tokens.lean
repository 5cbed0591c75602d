import Swirly.Fix.Tokeniser
import Swirly.Verified.Fix.Compose

/-!
# The two readers of fields

A message written field by field is read back by the tokeniser, and the search for a tag finds the first field that has it.
A tag can only start after a separator, and no value has one, so nothing in a value looks like a tag.
-/

namespace Swirly

/-- A tag in decimal, without leading zeros. -/
def decimal (tag : Nat) : Bytes := bytes (toString tag)

def writeField (p : Nat × Bytes) : Bytes := decimal p.1 ++ [equals] ++ p.2

/-- Every field ends with a separator, which the last one may lack. -/
def Written (ps : List (Nat × Bytes)) (msg : Bytes) : Prop :=
  msg = ps.flatMap (fun p => writeField p ++ [soh]) ∨ msg ++ [soh] = ps.flatMap fun p => writeField p ++ [soh]

/-- The largest tag that is searched for inside the array. -/
def maxTag : Nat := 999999999

/-- What follows the value of a field. -/
def moreFields (closed : Bool) : List (Nat × Bytes) → Bytes
  | [] => if closed then [soh] else []
  | p :: ps => soh :: (writeField p ++ moreFields closed ps)

/-! ## Decimal tags -/

theorem decimal_of_lt {tag : Nat} (small : tag < 10) : decimal tag = [digitChar (Fin.ofNat 10 tag)] := by
  revert tag
  decide

theorem decimal_of_ge {tag : Nat} (large : 10 ≤ tag) :
    decimal tag = decimal (tag / 10) ++ [digitChar (Fin.ofNat 10 tag)] := by
  have last : bytes (tag % 10).repr = [digitChar (Fin.ofNat 10 tag)] := by
    have digit : digitChar (Fin.ofNat 10 (tag % 10)) = digitChar (Fin.ofNat 10 tag) := by
      rw [digitChar_ofNat, digitChar_ofNat, Nat.mod_mod]
    rw [← digit]
    exact decimal_of_lt (Nat.mod_lt tag (by decide))
  calc decimal tag
      = bytes tag.repr := rfl
    _ = bytes ((tag / 10).repr ++ (tag % 10).repr) := by rw [Nat.repr_eq_repr_append_repr large]
    _ = bytes (tag / 10).repr ++ bytes (tag % 10).repr := by simp [bytes]
    _ = decimal (tag / 10) ++ [digitChar (Fin.ofNat 10 tag)] := by rw [last]; rfl

theorem isDigit_decimal (tag : Nat) : ∀ c ∈ decimal tag, isDigit c = true := by
  induction tag using Nat.strong_induction_on with
  | h tag inductionHypothesis =>
    by_cases small : tag < 10
    · rw [decimal_of_lt small]
      simp [isDigit_digitChar]
    · have before := inductionHypothesis (tag / 10) (by omega)
      rw [decimal_of_ge (not_lt.mp small)]
      intro c inside
      cases List.mem_append.mp inside with
      | inl inside => exact before c inside
      | inr inside =>
        cases List.mem_singleton.mp inside
        exact isDigit_digitChar _

theorem decimal_ne_nil (tag : Nat) : decimal tag ≠ [] := by
  by_cases small : tag < 10
  · simp [decimal_of_lt small]
  · simp [decimal_of_ge (not_lt.mp small)]

theorem equals_not_mem_decimal (tag : Nat) : equals ∉ decimal tag :=
  fun inside => absurd (isDigit_decimal tag equals inside) (by decide)

theorem soh_not_mem_decimal (tag : Nat) : soh ∉ decimal tag :=
  fun inside => absurd (isDigit_decimal tag soh inside) (by decide)

namespace FixTokeniser

theorem tagDigits_digit {tag d : Nat} (fits : tag * 10 + d % 10 ≤ maxInt) (rest : Bytes) :
    tagDigits tag (digitChar (Fin.ofNat 10 d) :: rest) = tagDigits (tag * 10 + d % 10) rest := by
  have value : (digitChar (Fin.ofNat 10 d)).toNat - 48 = d % 10 := by
    rw [toNat_digitChar, Nat.add_sub_cancel_left, Fin.val_ofNat]
  rw [tagDigits, value, if_pos (isDigit_digitChar _), if_pos fits]

/-- The digits of a tag are read back, whatever follows. -/
theorem tagDigits_decimal {tag : Nat} (fits : tag ≤ maxTag) (rest : Bytes) :
    tagDigits 0 (decimal tag ++ rest) = tagDigits tag rest := by
  have room : maxTag ≤ maxInt := by decide
  induction tag using Nat.strong_induction_on generalizing rest with
  | h tag inductionHypothesis =>
    by_cases small : tag < 10
    · have digit : tag % 10 = tag := Nat.mod_eq_of_lt small
      rw [decimal_of_lt small, List.singleton_append, tagDigits_digit (by omega), digit, Nat.zero_mul, Nat.zero_add]
    · have split : tag / 10 * 10 + tag % 10 = tag := by omega
      have before := inductionHypothesis (tag / 10) (by omega) (by omega)
      rw [decimal_of_ge (not_lt.mp small), List.append_assoc, before, List.singleton_append, tagDigits_digit (by omega),
        split]

theorem tagDigits_field {tag : Nat} (fits : tag ≤ maxTag) (rest : Bytes) :
    tagDigits 0 (decimal tag ++ [equals] ++ rest) = .ok (tag, equals :: rest) := by
  rw [List.append_assoc, tagDigits_decimal fits]
  rfl

end FixTokeniser

/-- A field starts with a tag when that is its own. -/
theorem decimal_starts {tag : Nat} {p : Nat × Bytes} (fits : tag ≤ maxTag) (small : p.1 ≤ maxTag) (rest : Bytes) :
    decimal tag ++ [equals] <+: writeField p ++ rest ↔ p.1 = tag := by
  constructor
  · rintro ⟨z, same⟩
    have read := FixTokeniser.tagDigits_field fits z
    rw [same, writeField, List.append_assoc, FixTokeniser.tagDigits_field small] at read
    injection read with both
    exact congrArg Prod.fst both
  · rintro rfl
    rw [writeField, List.append_assoc]
    exact List.prefix_append _ _

theorem putTag_decimal {digits tag : Nat} (fits : tag < 10 ^ digits) (more : 0 < digits) (spare : Nat) (field : Bytes) :
    ∃ it, putTag (digits + spare) tag field = some (it, decimal tag ++ field) ∧ spare ≤ it := by
  induction digits generalizing tag field with
  | zero => omega
  | succ digits inductionHypothesis =>
    rw [Nat.add_right_comm, putTag, ← digitChar_ofNat]
    by_cases small : tag < 10
    · have done : ¬ tag / 10 > 0 := by omega
      exact ⟨digits + spare, by rw [if_neg done, decimal_of_lt small]; rfl, by omega⟩
    · have rest : tag / 10 > 0 := by omega
      have fits : tag / 10 < 10 ^ digits := by
        rw [Nat.pow_succ] at fits
        omega
      have positive : 0 < digits := by
        cases digits with
        | zero => rw [Nat.pow_zero] at fits; omega
        | succ digits => exact Nat.succ_pos digits
      obtain ⟨it, put, room⟩ := inductionHypothesis fits positive (digitChar (Fin.ofNat 10 tag) :: field)
      refine ⟨it, ?_, room⟩
      rw [if_pos rest, put, decimal_of_ge (not_lt.mp small), List.append_assoc, List.singleton_append]

/-! ## What is written -/

section Fields

variable {p : Nat × Bytes} {ps : List (Nat × Bytes)} {msg value : Bytes} {closed : Bool}

theorem soh_not_mem_writeField (clean : soh ∉ p.2) : soh ∉ writeField p := by
  have sign : soh ≠ equals := by decide
  simp [writeField, soh_not_mem_decimal, clean, sign]

/-- The fields from the first one on, with or without the last separator. -/
theorem Written.split (written : Written (p :: ps) msg) : ∃ closed, msg = writeField p ++ moreFields closed ps := by
  have whole : ∀ (p : Nat × Bytes) (ps : List (Nat × Bytes)),
      (p :: ps).flatMap (fun p => writeField p ++ [soh]) = writeField p ++ moreFields true ps ∧
        writeField p ++ moreFields true ps = writeField p ++ moreFields false ps ++ [soh] := by
    intro p ps
    induction ps generalizing p with
    | nil => exact ⟨by simp [moreFields], by simp [moreFields]⟩
    | cons q ps inductionHypothesis =>
      obtain ⟨first, last⟩ := inductionHypothesis q
      constructor
      · rw [List.flatMap_cons, first]
        simp [moreFields]
      · rw [moreFields, last, moreFields]
        simp
  obtain ⟨first, last⟩ := whole p ps
  cases written with
  | inl same => exact ⟨true, by rw [same, first]⟩
  | inr same =>
    rw [first, last] at same
    exact ⟨false, List.append_cancel_right same⟩

theorem takeWhile_value (clean : soh ∉ value) : (value ++ moreFields closed ps).takeWhile (· ≠ soh) = value := by
  have outside : ∀ c ∈ value, (decide (c ≠ soh)) = true := by
    intro c inside
    exact decide_eq_true fun same => clean (same ▸ inside)
  rw [List.takeWhile_append_of_pos outside]
  cases ps with
  | nil => cases closed <;> simp [moreFields]
  | cons q ps => simp [moreFields]

theorem dropWhile_value (clean : soh ∉ value) :
    (value ++ moreFields closed ps).dropWhile (· ≠ soh) = moreFields closed ps := by
  have whole := List.takeWhile_append_dropWhile (p := (· ≠ soh)) (l := value ++ moreFields closed ps)
  rw [takeWhile_value clean] at whole
  exact List.append_cancel_left whole

/-! ## Reading one field after the other -/

namespace FixTokeniser

/-- The first digit is read like the others. -/
theorem tagDigits_first {c : UInt8} (digit : isDigit c = true) (rest : Bytes) :
    tagDigits 0 (c :: rest) = tagDigits (c.toNat - 48) rest := by
  have room : 0 * 10 + (c.toNat - 48) ≤ maxInt := by
    have small := UInt8.toNat_lt c
    simp only [maxInt]
    omega
  rw [tagDigits, if_pos digit, if_pos room, Nat.zero_mul, Nat.zero_add]

theorem tag_field (fits : p.1 ≤ maxTag) (whole rest : Bytes) :
    tag { msg := whole, it := writeField p ++ rest } = .ok (p.1, { msg := whole, it := p.2 ++ rest }) := by
  have read : tagDigits 0 (writeField p ++ rest) = .ok (p.1, equals :: (p.2 ++ rest)) := by
    rw [writeField, List.append_assoc, tagDigits_field fits]
  obtain ⟨c, tail, split⟩ := List.exists_cons_of_ne_nil (decimal_ne_nil p.1)
  have digit : isDigit c = true := isDigit_decimal p.1 c (by simp [split])
  obtain ⟨it, start⟩ : ∃ it, writeField p ++ rest = c :: it :=
    ⟨tail ++ [equals] ++ p.2 ++ rest, by simp [writeField, split]⟩
  rw [start, tagDigits_first digit] at read
  rw [start]
  simp [tag, digit, read, skipEquals, Bind.bind, Except.bind, Pure.pure, Except.pure]

theorem next_field (fits : p.1 ≤ maxTag) (clean : soh ∉ p.2) (ps : List (Nat × Bytes)) (closed : Bool) (whole : Bytes) :
    next { msg := whole, it := writeField p ++ moreFields closed ps } =
      .ok (p, { msg := whole, it := (moreFields closed ps).tail }) := by
  rw [next, tag_field fits]
  simp only [Bind.bind, Except.bind, Pure.pure, Except.pure, value, takeWhile_value clean, dropWhile_value clean]

theorem fields_more (closed : Bool) (fits : ∀ p ∈ ps, p.1 ≤ maxTag) (clean : ∀ p ∈ ps, soh ∉ p.2) (whole : Bytes)
    {fuel : Nat} (enough : ps.length < fuel) :
    fields fuel { msg := whole, it := (moreFields closed ps).tail } = some (.ok ps) := by
  induction ps generalizing fuel with
  | nil =>
    obtain ⟨fuel, rfl⟩ := Nat.exists_eq_succ_of_ne_zero (Nat.ne_zero_of_lt enough)
    cases closed <;> rfl
  | cons p ps inductionHypothesis =>
    obtain ⟨fuel, rfl⟩ := Nat.exists_eq_succ_of_ne_zero (Nat.ne_zero_of_lt enough)
    have rest := inductionHypothesis (fun q inside => fits q (List.mem_cons_of_mem p inside))
      (fun q inside => clean q (List.mem_cons_of_mem p inside)) (Nat.lt_of_succ_lt_succ enough)
    have next := next_field (fits p List.mem_cons_self) (clean p List.mem_cons_self) ps closed whole
    have something : isEmpty { msg := whole, it := writeField p ++ moreFields closed ps } = false := by
      simp [isEmpty, writeField]
    rw [moreFields, List.tail_cons, fields, something, if_neg (by decide), next]
    simp only [rest, Option.map_some, Except.map]

end FixTokeniser

/-! ## Searching for a tag -/

theorem fieldValue_eq (msg : Bytes) (pos : Nat) : fieldValue msg pos = (msg.drop pos).takeWhile (· ≠ soh) := by
  rw [← takeWhile_search, fieldValue, find]
  cases search [soh] (msg.drop pos) with
  | none => rfl
  | some stop => simp

/-- The value that a search finds is what comes after the occurrence. -/
theorem find_fieldValue (msg sub : Bytes) (pos : Nat) :
    (find msg sub pos).map (fun found => fieldValue msg (found + sub.length)) =
      (afterFirst sub (msg.drop pos)).map (·.takeWhile (· ≠ soh)) := by
  rw [find, afterFirst, Option.map_map, Option.map_map]
  congr 1
  funext found
  have order : found + pos + sub.length = pos + (found + sub.length) := by omega
  simp only [Function.comp_apply, fieldValue_eq, order, List.drop_drop]

theorem afterFirst_fields (closed : Bool) {tag : Nat} (small : tag ≤ maxTag) (fits : ∀ p ∈ ps, p.1 ≤ maxTag)
    (clean : ∀ p ∈ ps, soh ∉ p.2) :
    (afterFirst (soh :: (decimal tag ++ [equals])) (moreFields closed ps)).map (·.takeWhile (· ≠ soh)) =
      (ps.find? (·.1 = tag)).map (·.2) := by
  induction ps with
  | nil =>
    cases closed with
    | false => rfl
    | true =>
      have other : ¬ decimal tag ++ [equals] <+: [] := by simp
      rw [moreFields, if_pos rfl, afterFirst_next other]
      rfl
  | cons p ps inductionHypothesis =>
    have rest := inductionHypothesis (fun q inside => fits q (List.mem_cons_of_mem p inside))
      (fun q inside => clean q (List.mem_cons_of_mem p inside))
    have own := decimal_starts small (fits p List.mem_cons_self) (moreFields closed ps)
    have value : soh ∉ p.2 := clean p List.mem_cons_self
    by_cases same : p.1 = tag
    · have found : soh :: (writeField p ++ moreFields closed ps) =
          soh :: (decimal tag ++ [equals]) ++ (p.2 ++ moreFields closed ps) := by simp [writeField, same]
      rw [moreFields, found, afterFirst_here (List.cons_ne_nil _ _), Option.map_some, takeWhile_value value,
        List.find?_cons_of_pos (by simpa using same), Option.map_some]
    · rw [moreFields, afterFirst_next (fun starts => same (own.mp starts)),
        afterFirst_skip (soh_not_mem_writeField value), rest, List.find?_cons_of_neg (by simpa using same)]

/-- The first field is compared, and the others are searched. -/
theorem findTag_fields {tag : Nat} (small : tag ≤ maxTag) (fits : ∀ q ∈ p :: ps, q.1 ≤ maxTag)
    (clean : ∀ q ∈ p :: ps, soh ∉ q.2) :
    findTag (writeField p ++ moreFields closed ps) tag =
      some (((p :: ps).find? (·.1 = tag)).elim ([], false) fun q => (q.2, true)) := by
  obtain ⟨msg, written⟩ : ∃ msg, msg = writeField p ++ moreFields closed ps := ⟨_, rfl⟩
  have first : msg = decimal p.1 ++ equals :: (p.2 ++ moreFields closed ps) := by simp [written, writeField]
  have sign : find msg [equals] 0 = some (decimal p.1).length := by
    rw [find, List.drop_zero, first, search_separator _ _ (equals_not_mem_decimal p.1)]
    rfl
  have size : (decimal p.1 ++ [equals]).length = (decimal p.1).length + 1 := List.length_append
  have whole : msg = (decimal p.1 ++ [equals]) ++ (p.2 ++ moreFields closed ps) := by simp [first]
  have taken : msg.take ((decimal p.1).length + 1) = decimal p.1 ++ [equals] := by rw [whole, ← size, List.take_left]
  have dropped : msg.drop ((decimal p.1).length + 1) = p.2 ++ moreFields closed ps := by rw [whole, ← size, List.drop_left]
  have digits : tag < 10 ^ 9 := Nat.lt_succ_of_le small
  obtain ⟨it, put, room⟩ := putTag_decimal digits (by decide) 1 [equals]
  have inside : it ≠ 0 := by omega
  have own := decimal_starts small (fits p List.mem_cons_self) (moreFields closed ps)
  have value : soh ∉ p.2 := clean p List.mem_cons_self
  rw [← written, findTag, sign]
  simp only [put, Option.bind_some, taken]
  by_cases same : p.1 = tag
  · have equal : ¬ ((decimal tag ++ [equals]).length ≠ (decimal p.1).length + 1 ∨
        decimal p.1 ++ [equals] ≠ decimal tag ++ [equals]) := by
      simp [same]
    rw [if_neg equal, fieldValue_eq, dropped, takeWhile_value value, List.find?_cons_of_pos (by simpa using same),
      Option.elim_some]
  · have different : decimal p.1 ++ [equals] ≠ decimal tag ++ [equals] := by
      intro equal
      refine same (own.mp ?_)
      rw [← equal, writeField, List.append_assoc]
      exact List.prefix_append _ _
    have others := afterFirst_fields closed small (fun q inside => fits q (List.mem_cons_of_mem p inside))
      (fun q inside => clean q (List.mem_cons_of_mem p inside))
    have search := find_fieldValue msg (soh :: (decimal tag ++ [equals])) ((decimal p.1).length + 1)
    rw [dropped, afterFirst_skip value, others] at search
    rw [if_pos (Or.inr different), if_neg inside, List.find?_cons_of_neg (by simpa using same)]
    cases found : find msg (soh :: (decimal tag ++ [equals])) ((decimal p.1).length + 1) with
    | none =>
      rw [found, Option.map_none, eq_comm, Option.map_eq_none_iff] at search
      rw [search]
      rfl
    | some pos =>
      rw [found, Option.map_some] at search
      obtain ⟨q, first, same⟩ := Option.map_eq_some_iff.mp search.symm
      simp [first, same]

end Fields

/-- Both readers invert the writing: the tokeniser gives all fields, and the search the first value of a tag. -/
theorem FixTokeniser.readers_agree {ps : List (Nat × Bytes)} {msg : Bytes} (tags : ∀ p ∈ ps, p.1 ≤ maxTag)
    (values : ∀ p ∈ ps, soh ∉ p.2) (written : Written ps msg) :
    (∀ fuel, ps.length < fuel → (make msg).fields fuel = some (.ok ps)) ∧
      ∀ tag ≤ maxTag, findTag msg tag = some ((ps.find? (·.1 = tag)).elim ([], false) fun p => (p.2, true)) := by
  cases ps with
  | nil =>
    have empty : msg = [] := by
      cases written with
      | inl same => exact same
      | inr same => simp at same
    subst empty
    exact ⟨fun fuel enough => fields_more false tags values [] enough, fun tag _ => rfl⟩
  | cons p ps =>
    obtain ⟨closed, rfl⟩ := written.split
    have read : ∀ fuel, (p :: ps).length < fuel → (make (writeField p ++ moreFields closed ps)).fields fuel = some (.ok (p :: ps)) :=
      fun fuel enough => fields_more closed tags values (writeField p ++ moreFields closed ps) enough
    exact ⟨read, fun tag small => findTag_fields small tags values⟩

/-- A value that looks like a tag, a tag that ends with another, and one that comes twice. -/
theorem FixTokeniser.readers_agree_twice :
    (make (bytes "18=a=b8=" ++ [soh] ++ bytes "8=c" ++ [soh] ++ bytes "8=")).fields 4 =
        some (.ok [(18, bytes "a=b8="), (8, bytes "c"), (8, [])]) ∧
      findTag (bytes "18=a=b8=" ++ [soh] ++ bytes "8=c" ++ [soh] ++ bytes "8=") 8 = some (bytes "c", true) := by
  have written : Written [(18, bytes "a=b8="), (8, bytes "c"), (8, [])]
      (bytes "18=a=b8=" ++ [soh] ++ bytes "8=c" ++ [soh] ++ bytes "8=") := .inr (by decide +kernel)
  have agree := readers_agree (by decide) (by decide) written
  exact ⟨agree.1 4 (by decide), agree.2 8 (by decide)⟩

end Swirly
