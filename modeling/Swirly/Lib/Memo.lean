import Mathlib

/-!
# Direct-mapped caches

A cache of a function has one entry for each slot: a key and the value that was found for it.  A key is looked up in its own
slot, and what is found there is handed out when the key is the same.  An entry need not be right: a cache may start with
entries that no call has computed.
-/

universe u v w

variable {κ : Type u} {ν : Type v} {ι : Type w} [DecidableEq κ] [DecidableEq ι]

namespace Memo

variable (slot : κ → ι) (f : κ → ν) (entries : ι → κ × ν)

/-- The value for a key, and the cache after the call. -/
def look (k : κ) : ν × (ι → κ × ν) :=
  if (entries (slot k)).1 = k then ((entries (slot k)).2, entries)
  else (f k, Function.update entries (slot k) (k, f k))

/-- The values for one key after the other. -/
def answers : (ι → κ × ν) → List κ → List ν
  | _, [] => []
  | entries, k :: ks => (look slot f entries k).1 :: answers (look slot f entries k).2 ks

/-- The entry does not give a wrong value for the key. -/
def Right (k : κ) : Prop := (entries (slot k)).1 = k → (entries (slot k)).2 = f k

variable {slot f entries} {k : κ}

theorem look_eq_iff : (look slot f entries k).1 = f k ↔ Right slot f entries k := by
  rw [look, Right]
  split
  next hit => exact ⟨fun same _ => same, fun right => right hit⟩
  next miss => exact ⟨fun _ hit => absurd hit miss, fun _ => rfl⟩

/-- After the call nothing wrong is handed out from the slot, if it was not by the call. -/
theorem right_look_same {other : κ} (right : Right slot f entries k) (same : slot other = slot k) :
    Right slot f (look slot f entries k).2 other := by
  rw [look, Right, same]
  split
  next hit =>
    rw [hit]
    rintro rfl
    exact right hit
  next =>
    simp only [Function.update_self]
    rintro rfl
    rfl

/-- The other slots are as they were. -/
theorem right_look_ne {other : κ} (differ : slot other ≠ slot k) :
    Right slot f (look slot f entries k).2 other ↔ Right slot f entries other := by
  rw [look]
  split
  · rfl
  · simp only [Right, Function.update_of_ne differ]

/-- The first key that is looked up in a slot decides whether anything wrong is handed out from it. -/
theorem answers_eq_iff (keys : List κ) : answers slot f entries keys = keys.map f ↔
    ∀ k, keys.find? (fun other => decide (slot other = slot k)) = some k → Right slot f entries k := by
  induction keys generalizing entries with
  | nil => simp [answers]
  | cons first keys inductionHypothesis =>
    rw [answers, List.map_cons, List.cons.injEq, look_eq_iff, inductionHypothesis]
    constructor
    · rintro ⟨right, rest⟩ k found
      by_cases same : slot first = slot k
      · rw [List.find?_cons_of_pos (by simpa using same)] at found
        cases found
        exact right
      · rw [List.find?_cons_of_neg (by simpa using same)] at found
        exact (right_look_ne (Ne.symm same)).mp (rest k found)
    · intro all
      have right : Right slot f entries first := by
        apply all first
        exact List.find?_cons_of_pos (by simp)
      refine ⟨right, fun k found => ?_⟩
      by_cases same : slot k = slot first
      · exact right_look_same right same
      · rw [right_look_ne same]
        apply all k
        rw [List.find?_cons_of_neg (by simpa using Ne.symm same)]
        exact found

end Memo
