import Swirly.Lib.OrdMap

/-!
# Stores

The heap cells of one class of objects: a map from addresses to objects, in which a new object
goes to the address after the last one in use.  Releasing the newest object therefore gives
back the store as it was before (`erase_alloc`).
-/

universe u

abbrev Store (α : Type u) := OrdMap Nat α

namespace OrdMap

variable {α : Type u}

/-- The address of the next new object. -/
def fresh (s : Store α) : Nat :=
  match s.entries.getLast? with
  | none => 0
  | some e => e.1 + 1

def alloc (s : Store α) (a : α) : Store α := s.put s.fresh a

/-- Allocate a list of objects, one after the other. -/
def allocs (s : Store α) (as : List α) : Store α := as.foldl alloc s

/-- Release a list of objects. -/
def release (s : Store α) (ps : List Nat) : Store α := ps.foldl erase s

theorem lt_fresh {s : Store α} {p : Nat} {a : α} (present : s.find p = some a) : p < s.fresh := by
  have member := mem_entries.mpr present
  have nonempty : s.entries ≠ [] := List.ne_nil_of_mem member
  rw [fresh, List.getLast?_eq_some_getLast nonempty]
  have sorted := s.sorted
  rw [← List.dropLast_append_getLast nonempty] at member sorted
  rcases List.mem_append.mp member with member | member
  · exact Nat.lt_succ_of_lt ((List.pairwise_append.mp sorted).2.2 _ member _ (List.mem_singleton_self _))
  · exact Nat.lt_succ_of_le (congrArg Prod.fst (List.mem_singleton.mp member)).le

theorem fresh_le {s : Store α} {n : Nat} (below : ∀ p a, s.find p = some a → p < n) : s.fresh ≤ n := by
  unfold fresh
  cases last : s.entries.getLast? with
  | none => exact Nat.zero_le n
  | some e => exact below e.1 e.2 (mem_entries.mp (List.mem_of_getLast? last))

theorem find_of_fresh_le {s : Store α} {p : Nat} (above : s.fresh ≤ p) : s.find p = none := by
  cases present : s.find p with
  | none => rfl
  | some a => exact absurd (lt_fresh present) (by omega)

@[simp] theorem find_fresh (s : Store α) : s.find s.fresh = none := find_of_fresh_le le_rfl

theorem ne_fresh {s : Store α} {p : Nat} (present : (s.find p).isSome) : p ≠ s.fresh := by
  intro same
  simp [same] at present

theorem fresh_congr {s t : Store α} (live : ∀ p, (s.find p).isSome = (t.find p).isSome) : s.fresh = t.fresh := by
  have below : ∀ {s t : Store α}, (∀ p, (s.find p).isSome = (t.find p).isSome) → s.fresh ≤ t.fresh :=
    fun {s t} live => fresh_le fun p a present => by
      obtain ⟨b, found⟩ := Option.isSome_iff_exists.mp ((live p).symm.trans (by rw [present]; rfl))
      exact lt_fresh found
  exact le_antisymm (below live) (below fun p => (live p).symm)

@[simp] theorem fresh_alloc (s : Store α) (a : α) : (s.alloc a).fresh = s.fresh + 1 := by
  apply le_antisymm
  · refine fresh_le fun p b found => ?_
    by_cases same : p = s.fresh
    · omega
    · exact Nat.lt_succ_of_lt (lt_fresh (by simpa [alloc, same] using found))
  · exact lt_fresh (a := a) (by simp [alloc])

theorem find_alloc (s : Store α) (a : α) (p : Nat) :
    (s.alloc a).find p = if p = s.fresh then some a else s.find p := find_put s s.fresh p a

theorem find_alloc_of_some {s : Store α} {p : Nat} {b : α} (present : s.find p = some b) (a : α) :
    (s.alloc a).find p = some b := by
  rw [find_alloc, if_neg (ne_fresh (by simp [present])), present]

@[simp] theorem erase_alloc (s : Store α) (a : α) : (s.alloc a).erase s.fresh = s := by
  rw [alloc, erase_put, erase_of_none (find_fresh s)]

theorem sum_alloc (s : Store α) (a : α) (f : α → Int) : (s.alloc a).sum f = s.sum f + f a :=
  sum_put_of_none (find_fresh s) a f

@[simp] theorem allocs_nil (s : Store α) : s.allocs [] = s := rfl

@[simp] theorem allocs_cons (s : Store α) (a : α) (as : List α) : s.allocs (a :: as) = (s.alloc a).allocs as := rfl

theorem allocs_append (s : Store α) (as bs : List α) : s.allocs (as ++ bs) = (s.allocs as).allocs bs :=
  List.foldl_append

@[simp] theorem fresh_allocs (s : Store α) (as : List α) : (s.allocs as).fresh = s.fresh + as.length := by
  induction as generalizing s with
  | nil => simp
  | cons a as ih => rw [allocs_cons, ih, fresh_alloc, List.length_cons]; omega

theorem find_allocs_of_lt (s : Store α) (as : List α) {p : Nat} (old : p < s.fresh) :
    (s.allocs as).find p = s.find p := by
  induction as generalizing s with
  | nil => rfl
  | cons a as ih => rw [allocs_cons, ih _ (by simp; omega), find_alloc, if_neg (by omega)]

theorem find_allocs_fresh (s : Store α) (as : List α) {i : Nat} {a : α} (at_i : as[i]? = some a) :
    (s.allocs as).find (s.fresh + i) = some a := by
  induction as generalizing s i with
  | nil => simp at at_i
  | cons b as ih =>
    cases i with
    | zero =>
      obtain rfl : b = a := by simpa using at_i
      rw [allocs_cons, find_allocs_of_lt _ _ (by simp), find_alloc, if_pos (by simp)]
    | succ i =>
      have found := ih (s.alloc b) (by simpa using at_i)
      rwa [fresh_alloc, Nat.add_right_comm] at found

/-- New objects come after all others. -/
theorem entries_allocs (s : Store α) (as : List α) :
    (s.allocs as).entries.map Prod.snd = s.entries.map Prod.snd ++ as := by
  induction as generalizing s with
  | nil => rw [allocs_nil, List.append_nil]
  | cons a as ih =>
    have last : (s.alloc a).entries = s.entries ++ [(s.fresh, a)] :=
      putEntry_last a fun e member => lt_fresh (mem_entries.mp member)
    rw [allocs_cons, ih, last, List.map_append, List.append_assoc]
    rfl

/-- Every address up to the last new one is in use or was before. -/
theorem isSome_find_allocs (s : Store α) (as : List α) {p : Nat} (new : s.fresh ≤ p) (below : p < s.fresh + as.length) :
    ((s.allocs as).find p).isSome := by
  obtain ⟨i, rfl⟩ := Nat.exists_eq_add_of_le new
  have inside : i < as.length := by omega
  rw [find_allocs_fresh s as (List.getElem?_eq_getElem inside)]
  rfl

/-- Reading back what was allocated. -/
theorem map_get_allocs [Inhabited α] (s : Store α) (as : List α) :
    ((List.range as.length).map (s.fresh + ·)).map (s.allocs as).get = as := by
  apply List.ext_getElem
  · simp
  · intro i _ inside
    simp only [List.getElem_map, List.getElem_range]
    exact get_of_find (find_allocs_fresh s as (List.getElem?_eq_getElem inside))

theorem sum_allocs (s : Store α) (as : List α) (f : α → Int) :
    (s.allocs as).sum f = s.sum f + (as.map f).sum := by
  induction as generalizing s with
  | nil => simp
  | cons a as ih => rw [allocs_cons, ih, sum_alloc, List.map_cons, List.sum_cons]; omega

section Map

variable {β : Type u} (f : α → β)

@[simp] theorem fresh_map (s : Store α) : (s.map f).fresh = s.fresh := by
  simp only [fresh, map, List.getLast?_map]
  cases s.entries.getLast? <;> rfl

theorem map_alloc (s : Store α) (a : α) : (s.alloc a).map f = (s.map f).alloc (f a) := by
  rw [alloc, map_put, alloc, fresh_map]

theorem map_allocs (s : Store α) (as : List α) : (s.allocs as).map f = (s.map f).allocs (as.map f) := by
  induction as generalizing s with
  | nil => rfl
  | cons a as inductionHypothesis => rw [allocs_cons, inductionHypothesis, map_alloc, List.map_cons, allocs_cons]

end Map

/-- Releasing what was allocated last gives the store back. -/
theorem release_allocs (s : Store α) (as : List α) :
    release (s.allocs as) ((List.range as.length).map (s.fresh + ·)) = s := by
  have present : ∀ (ps : List Nat) (t : Store α) (q : Nat),
      (release t ps).find q = if q ∈ ps then none else t.find q := by
    intro ps
    induction ps with
    | nil => simp [release]
    | cons p ps ih =>
      intro t q
      rw [release, List.foldl_cons, ← release, ih, find_erase]
      by_cases later : q ∈ ps <;> by_cases same : q = p <;> simp [later, same]
  refine ext_find fun q => ?_
  rw [present]
  by_cases old : q < s.fresh
  · rw [if_neg (by simp; omega), find_allocs_of_lt s as old]
  · rw [find_of_fresh_le (not_lt.mp old)]
    split
    next => rfl
    next notNew =>
      refine find_of_fresh_le ?_
      rw [fresh_allocs]
      by_contra small
      exact notNew (List.mem_map.mpr ⟨q - s.fresh, List.mem_range.mpr (by omega), by omega⟩)

end OrdMap
