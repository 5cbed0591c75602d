import Mathlib

/-!
# Linked lists in key order

Positions in a linked list (`insertBefore`, `successor`) and the shape of a list that is sorted by a
key with ties allowed: such a list is its part up to a key followed by its part above it.
-/

universe u v

namespace List

variable {α : Type u}

section Links

variable [DecidableEq α]

/-- Link `a` in front of `b`; undefined when `b` is not in the list. -/
def insertBefore (a b : α) : List α → Option (List α)
  | [] => none
  | x :: xs => if x = b then some (a :: x :: xs) else (insertBefore a b xs).map (x :: ·)

/-- The element linked after `a`. -/
def successor (a : α) : List α → Option α
  | [] => none
  | x :: xs => if x = a then xs.head? else successor a xs

theorem insertBefore_append {a b : α} {front back : List α} (absent : b ∉ front) :
    (front ++ b :: back).insertBefore a b = some (front ++ a :: b :: back) := by
  induction front with
  | nil => simp [insertBefore]
  | cons x front ih =>
    obtain ⟨differ, absent⟩ := not_or.mp (mt List.mem_cons.mpr absent)
    simp [insertBefore, Ne.symm differ, ih absent]

theorem successor_append {a : α} {front back : List α} (absent : a ∉ front) :
    (front ++ a :: back).successor a = back.head? := by
  induction front with
  | nil => simp [successor]
  | cons x front ih =>
    obtain ⟨differ, absent⟩ := not_or.mp (mt List.mem_cons.mpr absent)
    simp [successor, Ne.symm differ, ih absent]

end Links

section Sorted

variable {κ : Type v} [LinearOrder κ] {key : α → κ}

theorem sorted_split {xs : List α} (sorted : xs.Pairwise fun x y => key x ≤ key y) (k : κ) :
    xs = (xs.filter fun x => key x ≤ k) ++ xs.filter fun x => k < key x := by
  induction xs with
  | nil => rfl
  | cons x xs ih =>
    obtain ⟨before, rest⟩ := pairwise_cons.mp sorted
    by_cases low : key x ≤ k
    · rw [filter_cons_of_pos (by simpa using low), filter_cons_of_neg (by simpa using low), cons_append, ← ih rest]
    · -- Everything after an element above `k` is above `k` as well.
      have high : ∀ y ∈ x :: xs, k < key y := by
        intro y member
        rcases mem_cons.mp member with rfl | member
        · exact not_le.mp low
        · exact (not_le.mp low).trans_le (before y member)
      rw [filter_eq_nil_iff.mpr fun y member => by simpa using high y member,
        filter_eq_self.mpr fun y member => by simpa using high y member, nil_append]

/-- The first element of the part above `k` has the least key above `k`. -/
theorem sorted_head_above {xs : List α} (sorted : xs.Pairwise fun x y => key x ≤ key y) {k j : κ} (less : k < j)
    (least : ∀ x ∈ xs, k < key x → j ≤ key x) {a : α} (first : (xs.filter fun x => key x = j).head? = some a) :
    (xs.filter fun x => k < key x).head? = some a := by
  have same : (xs.filter fun x => k < key x) =
      (xs.filter fun x => key x = j) ++ xs.filter fun x => j < key x := by
    have upper := sorted.filter fun x => decide (k < key x)
    rw [sorted_split upper j, filter_filter, filter_filter]
    congr 1
    · refine filter_congr fun x member => ?_
      by_cases eq : key x = j
      · simp [eq, less]
      · have : ¬ (key x ≤ j ∧ k < key x) := fun both => eq (le_antisymm both.1 (least x member both.2))
        simp only [eq, decide_false, Bool.and_eq_false_iff, decide_eq_false_iff_not]
        tauto
    · refine filter_congr fun x _ => ?_
      by_cases above : j < key x
      · simp [above, less.trans above]
      · simp [above]
  rw [same, head?_append, first, Option.some_or]

/-- When the first element of a key is not alone, the next one in the list has its key too. -/
theorem sorted_successor_first [DecidableEq α] {xs : List α} (sorted : xs.Pairwise fun x y => key x ≤ key y) (nodup : xs.Nodup)
    {k : κ} {a b : α} {rest : List α} (queue : (xs.filter fun x => key x = k) = a :: b :: rest) :
    xs.successor a = some b := by
  have member : a ∈ xs := (mem_filter.mp (queue ▸ mem_cons_self)).1
  have aKey : key a = k := by simpa using (mem_filter.mp (queue ▸ mem_cons_self : a ∈ xs.filter fun x => key x = k)).2
  obtain ⟨front, back, rfl⟩ := append_of_mem member
  have absent : a ∉ front := fun twice => (nodup_append.mp nodup).2.2 a twice a mem_cons_self rfl
  rw [successor_append absent]
  -- No element before `a` has the key, so the queue's second element comes from `back`.
  have frontEmpty : (front.filter fun x => key x = k) = [] := by
    cases eq : front.filter fun x => key x = k with
    | nil => rfl
    | cons x _ =>
      rw [filter_append, eq] at queue
      have : x = a := (cons.inj queue).1
      exact absurd (mem_filter.mp (eq ▸ mem_cons_self : x ∈ front.filter _)).1 (this ▸ absent)
  rw [filter_append, frontEmpty, nil_append, filter_cons_of_pos (by simpa using aKey)] at queue
  have tail := (cons.inj queue).2
  cases back with
  | nil => simp at tail
  | cons c back =>
    obtain ⟨-, sortedBack, -⟩ := pairwise_append.mp sorted
    have low : k ≤ key c := aKey ▸ rel_of_pairwise_cons sortedBack mem_cons_self
    have cKey : key c = k := by
      have bMember : b ∈ (c :: back).filter fun x => key x = k := tail ▸ mem_cons_self
      obtain ⟨bBack, bKey⟩ := mem_filter.mp bMember
      have bKey : key b = k := by simpa using bKey
      rcases mem_cons.mp bBack with rfl | bBack
      · exact bKey
      · exact le_antisymm (bKey ▸ rel_of_pairwise_cons (pairwise_cons.mp sortedBack).2 bBack) low
    rw [filter_cons_of_pos (by simpa using cKey)] at tail
    simp [(cons.inj tail).1]

/-- A sorted list is the concatenation of its runs of equal keys. -/
theorem sorted_eq_flatMap {xs : List α} (sorted : xs.Pairwise fun x y => key x ≤ key y) {ks : List κ}
    (ascending : ks.Pairwise (· < ·)) (covered : ∀ x ∈ xs, key x ∈ ks) :
    xs = ks.flatMap fun k => xs.filter fun x => key x = k := by
  induction ks generalizing xs with
  | nil => exact eq_nil_iff_forall_not_mem.mpr fun x member => by cases covered x member
  | cons k ks inductionHypothesis =>
    obtain ⟨least, ascending⟩ := pairwise_cons.mp ascending
    have low : (xs.filter fun x => key x ≤ k) = xs.filter fun x => key x = k := by
      refine filter_congr fun x member => decide_eq_decide.mpr ⟨fun le => ?_, le_of_eq⟩
      cases mem_cons.mp (covered x member) with
      | inl same => exact same
      | inr later => exact absurd le (not_le.mpr (least _ later))
    have high := inductionHypothesis (sorted.filter fun x => k < key x) ascending fun x member => by
      obtain ⟨inside, above⟩ := mem_filter.mp member
      exact (mem_cons.mp (covered x inside)).resolve_left fun same => by simp [same] at above
    conv_lhs => rw [sorted_split sorted k, low, high]
    rw [flatMap_cons]
    congr 1
    refine flatMap_congr fun j member => ?_
    rw [filter_filter]
    refine filter_congr fun x _ => ?_
    by_cases same : key x = j
    · simp [same, least j member]
    · simp [same]

/-- Sorted lists are equal when they agree on each key. -/
theorem sorted_ext {xs ys : List α} (xsSorted : xs.Pairwise fun x y => key x ≤ key y)
    (ysSorted : ys.Pairwise fun x y => key x ≤ key y)
    (agree : ∀ k, (xs.filter fun x => key x = k) = ys.filter fun x => key x = k) : xs = ys := by
  obtain ⟨ks, sorted⟩ : ∃ ks, ks = ((xs ++ ys).map key).toFinset.sort (· ≤ ·) := ⟨_, rfl⟩
  have ascending : ks.Pairwise (· < ·) := sorted ▸ (Finset.sortedLT_sort _).pairwise
  have covered : ∀ x ∈ xs ++ ys, key x ∈ ks := fun x member => by
    rw [sorted, Finset.mem_sort, mem_toFinset]
    exact mem_map_of_mem member
  calc xs = ks.flatMap fun k => xs.filter fun x => key x = k :=
        sorted_eq_flatMap xsSorted ascending fun x member => covered x (mem_append_left _ member)
    _ = ks.flatMap fun k => ys.filter fun y => key y = k := flatMap_congr fun k _ => agree k
    _ = ys := (sorted_eq_flatMap ysSorted ascending fun y member => covered y (mem_append_right _ member)).symm

/-- Put `x` behind every element whose key is not above its own. -/
def arrive (key : α → κ) (xs : List α) (x : α) : List α :=
  (xs.filter fun y => key y ≤ key x) ++ x :: xs.filter fun y => key x < key y

theorem mem_arrive {xs : List α} {x y : α} : y ∈ arrive key xs x ↔ y = x ∨ y ∈ xs := by
  simp only [arrive, mem_append, mem_cons, mem_filter, decide_eq_true_eq]
  constructor
  · rintro (low | same | high)
    · exact .inr low.1
    · exact .inl same
    · exact .inr high.1
  · rintro (same | member)
    · exact .inr (.inl same)
    · exact (le_or_gt (key y) (key x)).imp (fun low => ⟨member, low⟩) fun high => .inr ⟨member, high⟩

theorem arrive_perm {xs : List α} (sorted : xs.Pairwise fun x y => key x ≤ key y) (x : α) :
    (arrive key xs x).Perm (x :: xs) := by
  have perm : (arrive key xs x).Perm
      (x :: ((xs.filter fun y => key y ≤ key x) ++ xs.filter fun y => key x < key y)) := perm_middle
  rwa [← sorted_split sorted] at perm

theorem arrive_sorted {xs : List α} (sorted : xs.Pairwise fun x y => key x ≤ key y) (x : α) :
    (arrive key xs x).Pairwise fun x y => key x ≤ key y := by
  have split := sorted
  rw [sorted_split sorted (key x), pairwise_append] at split
  refine pairwise_append.mpr ⟨split.1, pairwise_cons.mpr ⟨?_, split.2.1⟩, ?_⟩
  · intro y high
    exact (of_decide_eq_true (mem_filter.mp high).2).le
  · intro y low z member
    have low : key y ≤ key x := of_decide_eq_true (mem_filter.mp low).2
    cases mem_cons.mp member with
    | inl here => rwa [here]
    | inr high => exact low.trans (of_decide_eq_true (mem_filter.mp high).2).le

/-- The new element is the last one of its key. -/
theorem arrive_filter {xs : List α} (sorted : xs.Pairwise fun x y => key x ≤ key y) (x : α) (k : κ) :
    ((arrive key xs x).filter fun y => key y = k) =
      if k = key x then (xs.filter fun y => key y = k) ++ [x] else xs.filter fun y => key y = k := by
  have split := congrArg (filter fun y => decide (key y = k)) (sorted_split sorted (key x))
  rw [filter_append] at split
  unfold arrive
  rw [filter_append, split]
  by_cases same : k = key x
  · have high : ((xs.filter fun y => key x < key y).filter fun y => decide (key y = k)) = [] := by
      rw [filter_filter, filter_eq_nil_iff]
      intro y _ both
      simp only [same, Bool.and_eq_true, decide_eq_true_eq] at both
      exact absurd both.2 (both.1 ▸ lt_irrefl _)
    rw [if_pos same, filter_cons_of_pos (by simp [same]), high, append_nil]
  · rw [if_neg same, filter_cons_of_neg (by simpa using Ne.symm same)]

/-- Arrivals in sequence keep their sequence within each key. -/
theorem foldl_arrive_filter {xs : List α} (sorted : xs.Pairwise fun x y => key x ≤ key y) (ys : List α) (k : κ) :
    ((ys.foldl (arrive key) xs).filter fun y => key y = k) =
      (xs.filter fun y => key y = k) ++ ys.filter fun y => key y = k := by
  induction ys generalizing xs with
  | nil => simp
  | cons y ys inductionHypothesis =>
    rw [foldl_cons, inductionHypothesis (arrive_sorted sorted y), arrive_filter sorted]
    by_cases same : k = key y
    · rw [if_pos same, filter_cons_of_pos (by simp [same]), append_assoc, singleton_append]
    · rw [if_neg same, filter_cons_of_neg (by simpa using Ne.symm same)]

theorem foldl_arrive_sorted {xs : List α} (sorted : xs.Pairwise fun x y => key x ≤ key y) (ys : List α) :
    (ys.foldl (arrive key) xs).Pairwise fun x y => key x ≤ key y := by
  induction ys generalizing xs with
  | nil => exact sorted
  | cons y ys inductionHypothesis => exact inductionHypothesis (arrive_sorted sorted y)

theorem mem_foldl_arrive {xs ys : List α} {y : α} : y ∈ ys.foldl (arrive key) xs ↔ y ∈ xs ∨ y ∈ ys := by
  induction ys generalizing xs with
  | nil => simp
  | cons z ys inductionHypothesis =>
    rw [foldl_cons, inductionHypothesis, mem_arrive, mem_cons]
    tauto

theorem map_arrive {β : Type*} (f : β → α) (xs : List β) (x : β) :
    (arrive (key ∘ f) xs x).map f = arrive key (xs.map f) (f x) := by
  simp only [arrive, map_append, map_cons, filter_map]
  rfl

end Sorted

section Classes

variable {γ : Type v} [DecidableEq γ]

/-- A relation that is asked only of elements of one class. -/
theorem pairwise_class {R : α → α → Prop} {c : α → γ} {xs : List α} :
    (xs.Pairwise fun x y => c x = c y → R x y) ↔ ∀ k, (xs.filter fun x => c x = k).Pairwise R := by
  constructor
  · intro related k
    refine (related.filter _).imp_of_mem fun xMember yMember both => both ?_
    rw [of_decide_eq_true (mem_filter.mp xMember).2, of_decide_eq_true (mem_filter.mp yMember).2]
  · intro related
    induction xs with
    | nil => exact .nil
    | cons x xs inductionHypothesis =>
      refine pairwise_cons.mpr ⟨fun y member same => ?_, inductionHypothesis fun k => ?_⟩
      · have own := related (c x)
        rw [filter_cons_of_pos (by simp)] at own
        exact (pairwise_cons.mp own).1 y (mem_filter.mpr ⟨member, decide_eq_true same.symm⟩)
      · exact (related k).sublist ((sublist_cons_self x xs).filter _)

end Classes

end List
