import Swirly.Lib.Greedy
import Swirly.Lib.SortedList

/-!
# Lists with keys

`amend` changes the elements that have a key, or drops them, and leaves the others in their places.  A list of
names with contents is amended by changing the contents of one name, or by erasing it.
-/

universe u v w

namespace List

variable {α : Type u} {κ : Type v}

section Amend

variable [DecidableEq κ] {key : α → κ} {k : κ} {f : α → Option α} {xs ys : List α} {x : α}

/-- Change or drop the elements with the key. -/
def amend (key : α → κ) (k : κ) (f : α → Option α) (xs : List α) : List α :=
  xs.filterMap fun x => if key x = k then f x else some x

@[simp] theorem amend_nil : amend key k f [] = [] := rfl

theorem amend_cons_here (here : key x = k) : amend key k f (x :: xs) = (f x).toList ++ amend key k f xs := by
  simp only [amend, filterMap_cons, if_pos here]
  cases f x <;> rfl

theorem amend_cons_there (there : key x ≠ k) : amend key k f (x :: xs) = x :: amend key k f xs := by
  simp [amend, there]

@[simp] theorem amend_append : amend key k f (xs ++ ys) = amend key k f xs ++ amend key k f ys := filterMap_append

theorem amend_absent (absent : ∀ x ∈ xs, key x ≠ k) : amend key k f xs = xs := by
  induction xs with
  | nil => rfl
  | cons x xs inductionHypothesis =>
    obtain ⟨there, absent⟩ := forall_mem_cons.mp absent
    rw [amend_cons_there there, inductionHypothesis absent]

theorem mem_amend {y : α} : y ∈ amend key k f xs ↔ (y ∈ xs ∧ key y ≠ k) ∨ ∃ x ∈ xs, key x = k ∧ f x = some y := by
  simp only [amend, mem_filterMap]
  constructor
  · rintro ⟨x, member, kept⟩
    by_cases here : key x = k
    · rw [if_pos here] at kept
      exact .inr ⟨x, member, here, kept⟩
    · rw [if_neg here] at kept
      cases kept
      exact .inl ⟨member, here⟩
  · rintro (⟨member, there⟩ | ⟨x, member, here, kept⟩)
    · exact ⟨y, member, if_neg there⟩
    · exact ⟨x, member, by rw [if_pos here, kept]⟩

end Amend

/-- A search that ignores the elements with the key. -/
theorem find?_amend [DecidableEq κ] {key : α → κ} {k : κ} {f : α → Option α} {P : α → Bool} {xs : List α}
    (ignored : ∀ x ∈ xs, key x = k → P x = false ∧ ∀ y, f x = some y → P y = false) : (amend key k f xs).find? P = xs.find? P := by
  induction xs with
  | nil => rfl
  | cons x xs inductionHypothesis =>
    obtain ⟨first, rest⟩ := forall_mem_cons.mp ignored
    by_cases here : key x = k
    · obtain ⟨before, after⟩ := first here
      rw [amend_cons_here here, find?_append, inductionHypothesis rest, find?_cons_of_neg (by simp [before])]
      cases changed : f x with
      | none => rfl
      | some y => simp [after y changed]
    · rw [amend_cons_there here, find?_cons, find?_cons, inductionHypothesis rest]

/-- The only element that qualifies is found. -/
theorem find?_of_unique {P : α → Bool} {xs : List α} {x : α} (member : x ∈ xs) (holds : P x) (unique : ∀ y ∈ xs, P y → y = x) :
    xs.find? P = some x := by
  cases found : xs.find? P with
  | none => exact absurd holds (find?_eq_none.mp found x member)
  | some y => rw [unique y (mem_of_find?_eq_some found) (find?_some found)]

/-! ## Names and contents -/

section Named

variable {ν : Type w} {key : α → κ} {f : α → Option α} {content content' : ν → α} {ps : List ν} {p : ν}

/-- The contents of one name change, and no other name has its key. -/
theorem map_amend [DecidableEq κ] [DecidableEq ν] (key : α → κ) (f : α → Option α) (nodup : ps.Nodup) (member : p ∈ ps)
    (unique : ∀ q ∈ ps, key (content q) = key (content p) → q = p)
    (others : ∀ q, q ≠ p → content' q = content q) :
    (ps.map content).amend key (key (content p)) f =
      match f (content p) with
      | some y => ps.map fun q => if q = p then y else content' q
      | none => (ps.erase p).map content' := by
  obtain ⟨front, back, rfl⟩ := append_of_mem member
  have apart := nodup_append.mp nodup
  have outFront : p ∉ front := fun inside => apart.2.2 p inside p mem_cons_self rfl
  have outBack : p ∉ back := (nodup_cons.mp apart.2.1).1
  have same : ∀ qs : List ν, p ∉ qs → (∀ q ∈ qs, q ∈ front ++ p :: back) →
      (qs.map content).amend key (key (content p)) f = qs.map content' := by
    intro qs outside inside
    have absent : ∀ x ∈ qs.map content, key x ≠ key (content p) := by
      intro x listed here
      obtain ⟨q, member, rfl⟩ := mem_map.mp listed
      exact outside (unique q (inside q member) here ▸ member)
    rw [amend_absent absent]
    exact map_congr_left fun q listed => (others q fun here => outside (here ▸ listed)).symm
  have kept : ∀ (y : α) (qs : List ν), p ∉ qs → qs.map content' = qs.map fun q => if q = p then y else content' q :=
    fun y qs outside => map_congr_left fun q listed => (if_neg fun here : q = p => outside (here ▸ listed)).symm
  rw [map_append, map_cons, amend_append, amend_cons_here rfl, same front outFront fun q listed => mem_append_left _ listed,
    same back outBack fun q listed => mem_append_right _ (mem_cons_of_mem _ listed)]
  cases f (content p) with
  | none =>
    show _ = ((front ++ p :: back).erase p).map content'
    rw [erase_append_right _ outFront, erase_cons_head, map_append]
    rfl
  | some y =>
    show _ = (front ++ p :: back).map fun q => if q = p then y else content' q
    rw [map_append, map_cons, if_pos rfl, ← kept y front outFront, ← kept y back outBack]
    rfl

/-- The name is found by the only contents that qualify. -/
theorem find?_map_of_unique {P : α → Bool} (member : p ∈ ps) (holds : P (content p)) (unique : ∀ q ∈ ps, P (content q) → q = p) :
    (ps.map content).find? P = some (content p) := by
  refine find?_of_unique (mem_map_of_mem member) holds fun x listed qualifies => ?_
  obtain ⟨q, inside, rfl⟩ := mem_map.mp listed
  rw [unique q inside qualifies]

end Named

end List

theorem Greedy.fill_map {α : Type u} {β : Type v} (g : α → β) (want : Int) (offers : List (α × Int)) :
    fill want (offers.map fun x => (g x.1, x.2)) = (fill want offers).map fun x => (g x.1, x.2) := by
  induction offers generalizing want with
  | nil => rfl
  | cons offer offers inductionHypothesis =>
    obtain ⟨a, offered⟩ := offer
    by_cases full : want = 0
    · rw [full, fill_zero, fill_zero, List.map_nil]
    · rw [List.map_cons, fill_cons full, fill_cons full, List.map_cons, inductionHypothesis]

theorem List.arrive_congr {α : Type u} {κ : Type v} [LinearOrder κ] {key key' : α → κ} {x : α} {xs : List α}
    (agree : ∀ y ∈ x :: xs, key y = key' y) : arrive key xs x = arrive key' xs x := by
  obtain ⟨own, others⟩ := forall_mem_cons.mp agree
  have low : xs.filter (fun y => key y ≤ key x) = xs.filter fun y => key' y ≤ key' x :=
    filter_congr fun y member => by rw [own, others y member]
  have high : xs.filter (fun y => key x < key y) = xs.filter fun y => key' x < key' y :=
    filter_congr fun y member => by rw [own, others y member]
  rw [arrive, arrive, low, high]
