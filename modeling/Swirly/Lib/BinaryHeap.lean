import Mathlib

/-!
# Binary heaps

A list is a heap when no element comes before its parent, the element at half its index.  An element is pushed at the end
and sifted up; the front is popped by putting the last element in its place and sifting that down.  Elements are compared
by a key.
-/

universe u v

variable {α : Type u} {κ : Type v}

namespace BinaryHeap

def parent (i : Nat) : Nat := (i - 1) / 2

/-- The key at an index, which is the greatest where there is no element. -/
def rank (key : α → κ) (xs : List α) (i : Nat) : WithTop κ := (xs[i]?).map key

def swap (xs : List α) (i j : Nat) : List α :=
  match xs[i]?, xs[j]? with
  | some x, some y => (xs.set i y).set j x
  | _, _ => xs

section

variable [LinearOrder κ]

def siftUp (key : α → κ) : Nat → Nat → List α → List α
  | 0, _, xs => xs
  | fuel + 1, i, xs =>
    if rank key xs i < rank key xs (parent i) then siftUp key fuel (parent i) (swap xs i (parent i)) else xs

/-- The child with the smaller key. -/
def child (key : α → κ) (xs : List α) (i : Nat) : Nat :=
  if rank key xs (2 * i + 2) < rank key xs (2 * i + 1) then 2 * i + 2 else 2 * i + 1

def siftDown (key : α → κ) : Nat → Nat → List α → List α
  | 0, _, xs => xs
  | fuel + 1, i, xs =>
    let c := child key xs i
    if rank key xs c < rank key xs i then siftDown key fuel c (swap xs c i) else xs

def push (key : α → κ) (xs : List α) (x : α) : List α := siftUp key xs.length xs.length (xs ++ [x])

/-- The elements without the front. -/
def pop (key : α → κ) : List α → List α
  | [] => []
  | _ :: rest =>
    match rest.getLast? with
    | none => []
    | some last => siftDown key rest.length 0 (last :: rest.dropLast)

def make (key : α → κ) (xs : List α) : List α := xs.foldl (push key) []

def IsHeap (key : α → κ) (xs : List α) : Prop := ∀ i, rank key xs (parent i) ≤ rank key xs i

end

/-! ## Swaps -/

variable {key : α → κ} {xs : List α} {i j : Nat}

theorem rank_of_lt (small : i < xs.length) : rank key xs i = (key xs[i] : WithTop κ) := by
  rw [rank, List.getElem?_eq_getElem small]
  rfl

theorem rank_of_le (large : xs.length ≤ i) : rank key xs i = ⊤ := by
  rw [rank, List.getElem?_eq_none large]
  rfl

theorem swap_perm (xs : List α) (i j : Nat) : (swap xs i j).Perm xs := by
  unfold swap
  split
  next x y atI atJ =>
    obtain ⟨smallI, rfl⟩ := List.getElem?_eq_some_iff.mp atI
    obtain ⟨smallJ, rfl⟩ := List.getElem?_eq_some_iff.mp atJ
    exact List.set_set_perm smallI smallJ
  next => exact .refl _

theorem rank_swap (key : α → κ) (smallI : i < xs.length) (smallJ : j < xs.length) (k : Nat) :
    rank key (swap xs i j) k = if k = i then rank key xs j else if k = j then rank key xs i else rank key xs k := by
  have at_k : (swap xs i j)[k]? = if k = i then xs[j]? else if k = j then xs[i]? else xs[k]? := by
    unfold swap
    rw [List.getElem?_eq_getElem smallI, List.getElem?_eq_getElem smallJ]
    simp only [List.getElem?_set, List.length_set]
    by_cases hereI : k = i
    · by_cases same : j = i
      · simp [hereI, same, smallI]
      · simp [hereI, same, smallI]
    · by_cases hereJ : k = j
      · simp [hereJ, smallJ, (hereJ ▸ hereI : j ≠ i)]
      · simp [hereI, hereJ, Ne.symm hereI, Ne.symm hereJ]
  rw [rank, at_k]
  split
  next => rfl
  next =>
    split
    next => rfl
    next => rfl

theorem length_swap (xs : List α) (i j : Nat) : (swap xs i j).length = xs.length := (swap_perm xs i j).length_eq

theorem parent_lt (inside : 0 < i) : parent i < i := by
  unfold parent
  omega

/-! ## Sifting up -/

variable [LinearOrder κ]

/-- All but the element at `i` come after their parents, and so would its children under its parent. -/
structure Rising (key : α → κ) (xs : List α) (i : Nat) : Prop where
  others : ∀ j, j ≠ i → rank key xs (parent j) ≤ rank key xs j
  below : ∀ j, j ≠ i → parent j = i → rank key xs (parent i) ≤ rank key xs j

theorem Rising.heap (rising : Rising key xs i) (ordered : rank key xs (parent i) ≤ rank key xs i) : IsHeap key xs := by
  intro j
  by_cases here : j = i
  · rwa [here]
  · exact rising.others j here

/-- The element goes up by one level. -/
theorem Rising.swap (rising : Rising key xs i) (before : rank key xs i < rank key xs (parent i)) :
    Rising key (swap xs i (parent i)) (parent i) := by
  have inside : 0 < i := by
    cases i with
    | zero => exact absurd before (lt_irrefl _)
    | succ i => exact Nat.succ_pos i
  have smallI : i < xs.length := by
    by_contra large
    rw [rank_of_le (not_lt.mp large)] at before
    exact absurd before not_top_lt
  have up := parent_lt inside
  have ranks := rank_swap key smallI (up.trans smallI)
  have atI : rank key (BinaryHeap.swap xs i (parent i)) i = rank key xs (parent i) := by rw [ranks, if_pos rfl]
  have atParent : rank key (BinaryHeap.swap xs i (parent i)) (parent i) = rank key xs i := by
    rw [ranks, if_neg up.ne, if_pos rfl]
  have elsewhere : ∀ k, k ≠ i → k ≠ parent i → rank key (BinaryHeap.swap xs i (parent i)) k = rank key xs k :=
    fun k notI notParent => by rw [ranks, if_neg notI, if_neg notParent]
  -- The other child of the parent.
  have sibling : ∀ j, j ≠ i → parent j = parent i → rank key xs (parent i) ≤ rank key xs j := fun j other same =>
    same ▸ rising.others j other
  constructor
  · intro j notParent
    by_cases here : j = i
    · rw [here, atI, atParent]
      exact before.le
    · rw [elsewhere j here notParent]
      by_cases under : parent j = i
      · rw [under, atI]
        exact rising.below j here under
      · by_cases beside : parent j = parent i
        · rw [beside, atParent]
          exact before.le.trans (sibling j here beside)
        · rw [elsewhere _ under beside]
          exact rising.others j here
  · intro j notParent beside
    have above : rank key (BinaryHeap.swap xs i (parent i)) (parent (parent i)) ≤ rank key xs (parent i) := by
      by_cases root : parent i = 0
      · rw [show parent (parent i) = parent i by rw [root]; rfl, atParent]
        exact before.le
      · have higher := parent_lt (Nat.pos_of_ne_zero root)
        rw [elsewhere _ (by omega) higher.ne]
        exact rising.others _ up.ne
    by_cases here : j = i
    · rwa [here, atI]
    · rw [elsewhere j here notParent]
      exact above.trans (sibling j here beside)

theorem siftUp_heap (fuel : Nat) (enough : i ≤ fuel) (rising : Rising key xs i) : IsHeap key (siftUp key fuel i xs) := by
  induction fuel generalizing i xs with
  | zero =>
    obtain rfl : i = 0 := Nat.le_zero.mp enough
    exact rising.heap le_rfl
  | succ fuel inductionHypothesis =>
    rw [siftUp]
    split
    next before =>
      apply inductionHypothesis _ (rising.swap before)
      unfold parent
      omega
    next ordered => exact rising.heap (not_lt.mp ordered)

theorem siftUp_perm (fuel i : Nat) (xs : List α) : (siftUp key fuel i xs).Perm xs := by
  induction fuel generalizing i xs with
  | zero => exact .refl _
  | succ fuel inductionHypothesis =>
    rw [siftUp]
    split
    next => exact (inductionHypothesis _ _).trans (swap_perm _ _ _)
    next => exact .refl _

/-- An element that goes up either stays below the front or becomes it. -/
theorem siftUp_front (key : α → κ) (fuel i : Nat) (xs : List α) :
    (siftUp key fuel i xs)[0]? = xs[0]? ∨ (siftUp key fuel i xs)[0]? = xs[i]? := by
  induction fuel generalizing i xs with
  | zero => exact .inl rfl
  | succ fuel inductionHypothesis =>
    rw [siftUp]
    split
    next before =>
      have inside : 0 < i := by
        cases i with
        | zero => exact absurd before (lt_irrefl _)
        | succ i => exact Nat.succ_pos i
      have smallI : i < xs.length := by
        by_contra large
        rw [rank_of_le (not_lt.mp large)] at before
        exact absurd before not_top_lt
      have up := parent_lt inside
      have atParent : (swap xs i (parent i))[parent i]? = xs[i]? := by
        unfold swap
        rw [List.getElem?_eq_getElem smallI, List.getElem?_eq_getElem (up.trans smallI)]
        exact List.getElem?_set_self (by rw [List.length_set]; exact up.trans smallI)
      have atFront : (swap xs i (parent i))[0]? = xs[0]? ∨ (swap xs i (parent i))[0]? = xs[i]? := by
        by_cases root : parent i = 0
        · exact .inr (root ▸ atParent)
        · unfold swap
          rw [List.getElem?_eq_getElem smallI, List.getElem?_eq_getElem (up.trans smallI)]
          exact .inl (by rw [List.getElem?_set_ne root, List.getElem?_set_ne inside.ne'])
      cases inductionHypothesis (parent i) (swap xs i (parent i)) with
      | inl same =>
        rw [same]
        exact atFront
      | inr moved => exact .inr (moved.trans atParent)
    next => exact .inl rfl

/-! ## Sifting down -/

/-- The element at `i` may come after its children, which come after its parent. -/
structure Sinking (key : α → κ) (xs : List α) (i : Nat) : Prop where
  others : ∀ j, parent j ≠ i ∨ j = 0 → rank key xs (parent j) ≤ rank key xs j
  below : ∀ j, i ≠ 0 → parent j = i → j ≠ 0 → rank key xs (parent i) ≤ rank key xs j

theorem parent_eq {j : Nat} : (parent j = i ∧ j ≠ 0) ↔ j = 2 * i + 1 ∨ j = 2 * i + 2 := by
  unfold parent
  omega

theorem child_cases (key : α → κ) (xs : List α) (i : Nat) : child key xs i = 2 * i + 1 ∨ child key xs i = 2 * i + 2 := by
  unfold child
  split
  next => exact .inr rfl
  next => exact .inl rfl

theorem child_le (key : α → κ) (xs : List α) {j : Nat} (under : parent j = i) (notRoot : j ≠ 0) :
    rank key xs (child key xs i) ≤ rank key xs j := by
  unfold child
  cases parent_eq.mp ⟨under, notRoot⟩ with
  | inl left =>
    rw [left]
    split
    next before => exact before.le
    next => exact le_rfl
  | inr right =>
    rw [right]
    split
    next => exact le_rfl
    next after => exact not_lt.mp after

theorem Sinking.heap (sinking : Sinking key xs i) (ordered : rank key xs i ≤ rank key xs (child key xs i)) : IsHeap key xs := by
  intro j
  by_cases under : parent j = i ∧ j ≠ 0
  · rw [under.1]
    exact ordered.trans (child_le key xs under.1 under.2)
  · refine sinking.others j ?_
    by_cases root : j = 0
    · exact .inr root
    · exact .inl fun same => under ⟨same, root⟩

/-- The element goes down by one level. -/
theorem Sinking.swap (sinking : Sinking key xs i) (before : rank key xs (child key xs i) < rank key xs i) :
    Sinking key (swap xs (child key xs i) i) (child key xs i) := by
  obtain ⟨c, isChild⟩ : ∃ c, c = child key xs i := ⟨_, rfl⟩
  obtain ⟨under, notRoot⟩ : parent c = i ∧ c ≠ 0 := parent_eq.mpr (isChild ▸ child_cases key xs i)
  have smallC : c < xs.length := by
    by_contra large
    rw [← isChild, rank_of_le (not_lt.mp large)] at before
    exact absurd before not_top_lt
  have down : i < c := under ▸ parent_lt (Nat.pos_of_ne_zero notRoot)
  have ranks := rank_swap key smallC (down.trans smallC)
  rw [← isChild] at before ⊢
  have atC : rank key (BinaryHeap.swap xs c i) c = rank key xs i := by rw [ranks, if_pos rfl]
  have atI : rank key (BinaryHeap.swap xs c i) i = rank key xs c := by rw [ranks, if_neg down.ne, if_pos rfl]
  have elsewhere : ∀ k, k ≠ c → k ≠ i → rank key (BinaryHeap.swap xs c i) k = rank key xs k :=
    fun k notC notI => by rw [ranks, if_neg notC, if_neg notI]
  constructor
  · intro j either
    by_cases root : j = 0
    · rw [root]
      exact le_rfl
    · have notUnder : parent j ≠ c := either.resolve_right root
      by_cases here : j = c
      · rw [here, atC, under, atI]
        exact before.le
      · by_cases there : j = i
        · have up := parent_lt (Nat.pos_of_ne_zero (there ▸ root))
          rw [there, atI, elsewhere _ (by omega) up.ne]
          exact sinking.below c (there ▸ root) under notRoot
        · rw [elsewhere j here there]
          by_cases beside : parent j = i
          · rw [beside, atI, isChild]
            exact child_le key xs beside root
          · rw [elsewhere _ notUnder beside]
            exact sinking.others j (.inl beside)
  · intro j _ below notRoot
    have further := parent_lt (Nat.pos_of_ne_zero notRoot)
    rw [under, atI, elsewhere j (by omega) (by omega), ← below]
    exact sinking.others j (.inl (by omega))

theorem siftDown_heap (fuel : Nat) (enough : xs.length ≤ i + fuel) (sinking : Sinking key xs i) :
    IsHeap key (siftDown key fuel i xs) := by
  induction fuel generalizing i xs with
  | zero =>
    refine sinking.heap ?_
    have large : xs.length ≤ child key xs i := by
      cases child_cases key xs i with
      | inl left => omega
      | inr right => omega
    rw [rank_of_le large]
    exact le_top
  | succ fuel inductionHypothesis =>
    simp only [siftDown]
    split
    next before =>
      refine inductionHypothesis ?_ (sinking.swap before)
      rw [length_swap]
      cases child_cases key xs i with
      | inl left => omega
      | inr right => omega
    next ordered => exact sinking.heap (not_lt.mp ordered)

theorem siftDown_perm (fuel i : Nat) (xs : List α) : (siftDown key fuel i xs).Perm xs := by
  induction fuel generalizing i xs with
  | zero => exact .refl _
  | succ fuel inductionHypothesis =>
    simp only [siftDown]
    split
    next => exact (inductionHypothesis _ _).trans (swap_perm _ _ _)
    next => exact .refl _

/-! ## Operations -/

theorem isHeap_nil : IsHeap key ([] : List α) := fun i => by
  have beyond : rank key ([] : List α) i = ⊤ := rank_of_le (Nat.zero_le i)
  rw [beyond]
  exact le_top

theorem push_perm (key : α → κ) (xs : List α) (x : α) : (push key xs x).Perm (x :: xs) :=
  (siftUp_perm _ _ _).trans List.perm_append_comm

theorem IsHeap.push (heap : IsHeap key xs) (x : α) : IsHeap key (push key xs x) := by
  have old : ∀ j, j < xs.length → rank key (xs ++ [x]) j = rank key xs j := fun j small => by
    rw [rank, rank, List.getElem?_append_left small]
  have beyond : ∀ j, xs.length < j → rank key (xs ++ [x]) j = ⊤ := fun j large => by
    apply rank_of_le
    rw [List.length_append]
    exact large
  refine siftUp_heap _ le_rfl ⟨fun j notLast => ?_, fun j notLast under => ?_⟩
  · cases lt_or_gt_of_ne notLast with
    | inl small =>
      have up : parent j < xs.length := by
        unfold parent
        omega
      rw [old j small, old _ up]
      exact heap j
    | inr large =>
      rw [beyond j large]
      exact le_top
  · have large : xs.length < j := by
      have different := parent_eq (i := xs.length) (j := j)
      by_cases root : j = 0
      · rw [root] at under notLast
        exact absurd under notLast
      · have after := different.mp ⟨under, root⟩
        omega
    rw [beyond j large]
    exact le_top

/-- The front of a heap after a push is the new element or the front from before. -/
theorem push_front {x y : α} {ys : List α} (front : push key xs x = y :: ys) : y = x ∨ ∃ rest, xs = y :: rest := by
  have first : (push key xs x)[0]? = some y := by rw [front, List.getElem?_cons_zero]
  cases siftUp_front key xs.length xs.length (xs ++ [x]) with
  | inl same =>
    unfold push at first
    rw [same] at first
    cases xs with
    | nil =>
      obtain rfl : x = y := by simpa using first
      exact .inl rfl
    | cons z rest =>
      obtain rfl : z = y := by simpa using first
      exact .inr ⟨rest, rfl⟩
  | inr moved =>
    unfold push at first
    rw [moved, List.getElem?_concat_length] at first
    exact .inl (Option.some.inj first).symm

theorem pop_perm (key : α → κ) (x : α) (rest : List α) : (pop key (x :: rest)).Perm rest := by
  rw [pop]
  cases last : rest.getLast? with
  | none => rw [List.getLast?_eq_none_iff.mp last]
  | some y =>
    obtain ⟨initial, rfl⟩ := List.getLast?_eq_some_iff.mp last
    refine (siftDown_perm _ _ _).trans ?_
    rw [List.dropLast_concat]
    have moved : ([y] ++ initial).Perm (initial ++ [y]) := List.perm_append_comm
    exact moved

theorem IsHeap.pop (heap : IsHeap key xs) : IsHeap key (pop key xs) := by
  cases xs with
  | nil => exact isHeap_nil
  | cons x rest =>
    rw [BinaryHeap.pop]
    cases last : rest.getLast? with
    | none => exact isHeap_nil
    | some y =>
      obtain ⟨initial, rfl⟩ := List.getLast?_eq_some_iff.mp last
      rw [List.dropLast_concat]
      have old : ∀ j, j ≠ 0 → j < initial.length + 1 → rank key (y :: initial) j = rank key (x :: (initial ++ [y])) j := by
        intro j notRoot small
        cases j with
        | zero => exact absurd rfl notRoot
        | succ j =>
          rw [rank, rank, List.getElem?_cons_succ, List.getElem?_cons_succ, List.getElem?_append_left (by omega)]
      refine siftDown_heap _ (by simp) ⟨fun j either => ?_, fun j notRoot => absurd rfl notRoot⟩
      · cases either with
        | inl notUnder =>
          by_cases small : j < initial.length + 1
          · have notRoot : j ≠ 0 := fun root => notUnder (by rw [root]; rfl)
            rw [old j notRoot small, old _ notUnder ((parent_lt (Nat.pos_of_ne_zero notRoot)).trans small)]
            exact heap j
          · rw [rank_of_le (i := j) (by simpa using small)]
            exact le_top
        | inr root =>
          rw [root]
          exact le_rfl

theorem make_perm (key : α → κ) (xs : List α) : (make key xs).Perm xs := by
  have all : ∀ start, (xs.foldl (push key) start).Perm (start ++ xs) := by
    induction xs with
    | nil =>
      intro start
      rw [List.append_nil]
      exact .refl _
    | cons x xs inductionHypothesis =>
      intro start
      refine (inductionHypothesis _).trans (((push_perm key start x).append_right xs).trans ?_)
      exact List.perm_middle.symm
  exact all []

theorem isHeap_make (key : α → κ) (xs : List α) : IsHeap key (make key xs) := by
  have all : ∀ start, IsHeap key start → IsHeap key (xs.foldl (push key) start) := by
    induction xs with
    | nil => exact fun _ heap => heap
    | cons x xs inductionHypothesis => exact fun start heap => inductionHypothesis _ (heap.push x)
  exact all [] isHeap_nil

/-- The order of a heap depends on the keys of its elements only. -/
theorem IsHeap.congr {key' : α → κ} (heap : IsHeap key xs) (same : ∀ x ∈ xs, key' x = key x) : IsHeap key' xs := by
  have ranks : ∀ i, rank key' xs i = rank key xs i := by
    intro i
    unfold rank
    cases found : xs[i]? with
    | none => rfl
    | some x => exact congrArg some (same x (List.mem_of_getElem? found))
  intro i
  rw [ranks, ranks]
  exact heap i

/-- No element comes before the front. -/
theorem IsHeap.front {x : α} {rest : List α} (heap : IsHeap key (x :: rest)) : ∀ y ∈ x :: rest, key x ≤ key y := by
  have below : ∀ i, rank key (x :: rest) 0 ≤ rank key (x :: rest) i := by
    intro i
    induction i using Nat.strongRecOn with
    | ind i inductionHypothesis =>
      by_cases root : i = 0
      · rw [root]
      · exact (inductionHypothesis _ (parent_lt (Nat.pos_of_ne_zero root))).trans (heap i)
  intro y member
  obtain ⟨i, small, rfl⟩ := List.mem_iff_getElem.mp member
  have first := below i
  rw [rank_of_lt small, rank_of_lt (Nat.zero_lt_succ _)] at first
  exact WithTop.coe_le_coe.mp first

end BinaryHeap
