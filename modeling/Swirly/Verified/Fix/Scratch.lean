import Swirly.Verified.Fix.Tokens

/-!
# The scratch array of the search for a tag

The tag and the equals sign are written backwards from the end of an array of twelve, whose last character is not used.  Ten
digits fill it to its front, and then there is no room for the separator.
-/

namespace Swirly

/-- Each digit takes one character. -/
theorem putTag_room {n it tag k : Nat} {field written : Bytes} (large : 10 ^ k ≤ tag)
    (put : putTag n tag field = some (it, written)) : it + k + 1 ≤ n := by
  induction n generalizing tag k field with
  | zero => cases put
  | succ n inductionHypothesis =>
    rw [putTag] at put
    split at put
    next more =>
      cases k with
      | zero =>
        have fewer := @inductionHypothesis (tag / 10) 0 _ more put
        omega
      | succ k =>
        have rest : 10 ^ k ≤ tag / 10 := by
          rw [Nat.pow_succ] at large
          omega
        have fewer := inductionHypothesis rest put
        omega
    next last =>
      cases put
      cases k with
      | zero => omega
      | succ k =>
        have positive : 0 < 10 ^ k := Nat.pow_pos (by decide)
        rw [Nat.pow_succ] at large
        omega

/-- A field stands at the front when the first equals sign is its own. -/
theorem first_field_iff {before : Bytes} (absent : equals ∉ before) (after : Bytes) (tag : Nat) :
    ¬ ((decimal tag ++ [equals]).length ≠ before.length + 1 ∨
        (before ++ equals :: after).take (before.length + 1) ≠ decimal tag ++ [equals]) ↔
      decimal tag ++ [equals] <+: before ++ equals :: after := by
  have front : (before ++ equals :: after).take (before.length + 1) = before ++ [equals] := by
    rw [List.take_length_add_append]
    rfl
  rw [front, not_or, not_not, not_not]
  constructor
  · rintro ⟨-, same⟩
    rw [← same]
    exact ⟨after, by rw [List.append_assoc, List.singleton_append]⟩
  · rintro ⟨rest, same⟩
    have whole : decimal tag ++ equals :: rest = before ++ equals :: after := by
      rw [← same, List.append_assoc, List.singleton_append]
    have place := search_separator (decimal tag) rest (equals_not_mem_decimal tag)
    rw [whole, search_separator before after absent, Option.some.injEq] at place
    have digits : decimal tag = before := List.append_inj_left whole place.symm
    rw [digits]
    exact ⟨by rw [List.length_append, List.length_singleton], rfl⟩

/-- Every write is inside the array, unless a tag of ten digits is searched for behind the first field. -/
theorem findTag_inside_iff {tag : Nat} (range : tag ≤ FixTokeniser.maxInt) (msg : Bytes) :
    (findTag msg tag).isSome ↔ tag < 10 ^ 9 ∨ equals ∉ msg ∨ decimal tag ++ [equals] <+: msg := by
  by_cases present : equals ∈ msg
  · obtain ⟨before, after, split, absent⟩ := List.eq_append_cons_of_mem present
    -- The first field is compared in the array, with the separator behind the digits.
    have sign : find msg [equals] 0 = some before.length := by
      rw [find, List.drop_zero, split, search_separator before after absent]
      rfl
    have first := first_field_iff absent after tag
    rw [← split] at first
    have digits : tag < 10 ^ 10 := lt_of_le_of_lt range (by decide)
    obtain ⟨it, put, -⟩ := putTag_decimal digits (by decide) 0 [equals]
    rw [← first, findTag, sign]
    simp only [put, Option.bind_some]
    by_cases here : (decimal tag ++ [equals]).length ≠ before.length + 1 ∨
        msg.take (before.length + 1) ≠ decimal tag ++ [equals]
    · rw [if_pos here]
      by_cases full : it = 0
      · -- The digits have filled the array to its front.
        have long : ¬ tag < 10 ^ 9 := by
          intro small
          obtain ⟨room, other, spare⟩ := putTag_decimal small (by decide) 1 [equals]
          rw [put] at other
          cases other
          omega
        rw [if_pos full]
        apply iff_of_false (by simp)
        rintro (small | without | front)
        · exact long small
        · exact without present
        · exact front here
      -- There is room in front of the digits for the separator, and every later search is a search in the message.
      · have short : tag < 10 ^ 9 := by
          by_contra large
          have room := putTag_room (not_lt.mp large) put
          omega
        rw [if_neg full]
        simp only [short, true_or, iff_true]
        cases find msg (soh :: (decimal tag ++ [equals])) (before.length + 1) with
        | none => rfl
        | some pos => rfl
    · rw [if_neg here]
      exact iff_of_true rfl (.inr (.inr here))
  · have sign : find msg [equals] 0 = none := by
      rw [find, List.drop_zero, search_absent present]
      rfl
    rw [findTag, sign]
    simp [present]

/-- The largest tag, in the first field. -/
theorem findTag_inside_largest : (findTag (bytes "2147483647=a") 2147483647).isSome :=
  (findTag_inside_iff (by decide) _).mpr (.inr (.inr (by decide +kernel)))

/-- The tag of the first field is another one, and the separator is written in front of the array. -/
theorem separator_outside : ¬ ∀ msg tag, tag ≤ FixTokeniser.maxInt → (findTag msg tag).isSome := by
  intro inside
  have wrong := inside (bytes "8=a") 1000000000 (by decide)
  revert wrong
  decide +kernel

end Swirly
