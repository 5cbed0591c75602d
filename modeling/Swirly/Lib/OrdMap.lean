import Mathlib

/-!
# Ordered maps

A finite map kept as a list of entries in strictly ascending key order: the contents of an
ordered intrusive set, whose elements never change their key while they are linked.  The
order is a field of the structure, so two maps with the same lookups are equal (`ext_find`),
and iterating a map visits its keys in order.
-/

universe u v

/-- A finite map from `κ` to `α`, its entries in ascending key order. -/
structure OrdMap (κ : Type u) (α : Type v) [LinearOrder κ] where
  entries : List (κ × α)
  sorted : entries.Pairwise (fun x y => x.1 < y.1)

namespace OrdMap

variable {κ : Type u} {α : Type v} [LinearOrder κ]

/-! ## Entry lists -/

def lookup (k : κ) : List (κ × α) → Option α
  | [] => none
  | e :: es => if k = e.1 then some e.2 else lookup k es

def putEntry (k : κ) (a : α) : List (κ × α) → List (κ × α)
  | [] => [(k, a)]
  | e :: es =>
    if k < e.1 then (k, a) :: e :: es
    else if k = e.1 then (k, a) :: es
    else e :: putEntry k a es

theorem lookup_eq_none {k : κ} {es : List (κ × α)} :
    lookup k es = none ↔ ∀ e ∈ es, e.1 ≠ k := by
  induction es with
  | nil => simp [lookup]
  | cons e es ih =>
    by_cases same : k = e.1
    · simp [lookup, same]
    · rw [lookup, if_neg same, ih, List.forall_mem_cons]
      exact (and_iff_right (Ne.symm same)).symm

theorem lookup_eq_some {k : κ} {a : α} {es : List (κ × α)}
    (sorted : es.Pairwise (fun x y => x.1 < y.1)) :
    lookup k es = some a ↔ (k, a) ∈ es := by
  induction es with
  | nil => simp [lookup]
  | cons e es ih =>
    obtain ⟨before, sorted⟩ := List.pairwise_cons.mp sorted
    by_cases same : k = e.1
    · subst same
      have absent : (e.1, a) ∉ es := fun member => lt_irrefl e.1 (before (e.1, a) member)
      simp only [lookup, if_true, Option.some.injEq, List.mem_cons, absent, or_false]
      exact ⟨fun eq => by rw [← eq], fun eq => by rw [← eq]⟩
    · have distinct : (k, a) ≠ e := fun eq => same (by rw [← eq])
      simp [lookup, same, ih sorted, distinct]

theorem mem_putEntry {k : κ} {a : α} {e : κ × α} {es : List (κ × α)}
    (member : e ∈ putEntry k a es) : e = (k, a) ∨ e ∈ es := by
  induction es with
  | nil => simpa [putEntry] using member
  | cons d es ih =>
    simp only [putEntry] at member
    split at member
    · simpa using member
    · split at member
      · rcases List.mem_cons.mp member with eq | member
        · exact .inl eq
        · exact .inr (List.mem_cons_of_mem _ member)
      · rcases List.mem_cons.mp member with eq | member
        · exact .inr (by simp [eq])
        · exact (ih member).imp_right (List.mem_cons_of_mem _)

theorem putEntry_sorted (k : κ) (a : α) {es : List (κ × α)}
    (sorted : es.Pairwise (fun x y => x.1 < y.1)) :
    (putEntry k a es).Pairwise (fun x y => x.1 < y.1) := by
  induction es with
  | nil => simp [putEntry]
  | cons e es ih =>
    obtain ⟨before, rest⟩ := List.pairwise_cons.mp sorted
    simp only [putEntry]
    split
    next less =>
      refine List.pairwise_cons.mpr ⟨fun d member => ?_, sorted⟩
      rcases List.mem_cons.mp member with eq | member
      · simpa [eq] using less
      · exact less.trans (before d member)
    next notLess =>
      split
      next same => exact List.pairwise_cons.mpr ⟨fun d member => by simpa [same] using before d member, rest⟩
      next differ =>
        refine List.pairwise_cons.mpr ⟨fun d member => ?_, ih rest⟩
        rcases mem_putEntry member with eq | member
        · simpa [eq] using lt_of_le_of_ne (not_lt.mp notLess) (Ne.symm differ)
        · exact before d member

/-- A key above all others goes to the end. -/
theorem putEntry_last {k : κ} (a : α) {es : List (κ × α)} (below : ∀ e ∈ es, e.1 < k) :
    putEntry k a es = es ++ [(k, a)] := by
  induction es with
  | nil => rfl
  | cons e es ih =>
    obtain ⟨first, below⟩ := List.forall_mem_cons.mp below
    rw [putEntry, if_neg first.not_gt, if_neg first.ne', ih below, List.cons_append]

theorem lookup_putEntry (k j : κ) (a : α) (es : List (κ × α)) :
    lookup j (putEntry k a es) = if j = k then some a else lookup j es := by
  induction es with
  | nil => simp [putEntry, lookup]
  | cons e es ih =>
    simp only [putEntry]
    split
    next => simp [lookup]
    next =>
      split
      next same => subst same; simp only [lookup]; split <;> rfl
      next differ =>
        simp only [lookup, ih]
        split
        next same => rw [if_neg (fun eq => differ (by rw [← eq, same]))]
        next => rfl

theorem lookup_filter_ne (k j : κ) (es : List (κ × α)) :
    lookup j (es.filter fun e => e.1 ≠ k) = if j = k then none else lookup j es := by
  induction es with
  | nil => simp [lookup]
  | cons e es ih =>
    by_cases same : e.1 = k
    · rw [List.filter_cons_of_neg (by simpa using same), ih]
      by_cases eq : j = k
      · simp [eq]
      · have differ : j ≠ e.1 := fun h => eq (h.trans same)
        simp only [eq, if_false, lookup, differ]
    · rw [List.filter_cons_of_pos (by simpa using same), lookup, ih, lookup]
      by_cases eq : j = k
      · subst eq; simp [Ne.symm same]
      · simp only [eq, if_false]

theorem putEntry_perm (k : κ) (a : α) {es : List (κ × α)}
    (sorted : es.Pairwise (fun x y => x.1 < y.1)) :
    (putEntry k a es).Perm ((k, a) :: es.filter fun e => e.1 ≠ k) := by
  induction es with
  | nil => simp [putEntry]
  | cons e es ih =>
    obtain ⟨before, rest⟩ := List.pairwise_cons.mp sorted
    simp only [putEntry]
    split
    next less =>
      rw [List.filter_eq_self.mpr]
      intro d member
      rcases List.mem_cons.mp member with eq | member
      · simpa [eq] using less.ne'
      · simpa using (less.trans (before d member)).ne'
    next =>
      split
      next same =>
        rw [List.filter_cons_of_neg (by simp [same]), List.filter_eq_self.mpr]
        intro d member
        simpa [same] using (before d member).ne'
      next differ =>
        rw [List.filter_cons_of_pos (by simpa using Ne.symm differ)]
        exact ((ih rest).cons e).trans (.swap _ _ _)

theorem eq_of_lookup_eq {es ds : List (κ × α)}
    (esSorted : es.Pairwise (fun x y => x.1 < y.1)) (dsSorted : ds.Pairwise (fun x y => x.1 < y.1))
    (agree : ∀ k, lookup k es = lookup k ds) : es = ds := by
  induction es generalizing ds with
  | nil =>
    cases ds with
    | nil => rfl
    | cons d ds => simpa [lookup] using agree d.1
  | cons e es ih =>
    cases ds with
    | nil => simpa [lookup] using agree e.1
    | cons d ds =>
      obtain ⟨eBefore, eRest⟩ := List.pairwise_cons.mp esSorted
      obtain ⟨dBefore, dRest⟩ := List.pairwise_cons.mp dsSorted
      have eMember : e ∈ d :: ds := (lookup_eq_some dsSorted).mp (by rw [← agree]; simp [lookup])
      have dMember : d ∈ e :: es := (lookup_eq_some esSorted).mp (by rw [agree]; simp [lookup])
      have heads : e = d := by
        rcases List.mem_cons.mp eMember with eq | eMember
        · exact eq
        rcases List.mem_cons.mp dMember with eq | dMember
        · exact eq.symm
        exact absurd ((eBefore d dMember).trans (dBefore e eMember)) (lt_irrefl _)
      subst heads
      rw [ih eRest dRest]
      intro k
      by_cases same : k = e.1
      · subst same
        rw [lookup_eq_none.mpr fun x member => (eBefore x member).ne',
          lookup_eq_none.mpr fun x member => (dBefore x member).ne']
      · simpa [lookup, same] using agree k

/-! ## Maps -/

def empty : OrdMap κ α := ⟨[], .nil⟩

instance : Inhabited (OrdMap κ α) := ⟨empty⟩

instance : EmptyCollection (OrdMap κ α) := ⟨empty⟩

instance [DecidableEq α] : DecidableEq (OrdMap κ α) := fun m n =>
  decidable_of_iff (m.entries = n.entries) (by cases m; cases n; simp)

def find (m : OrdMap κ α) (k : κ) : Option α := lookup k m.entries

/-- The element at `k`, for a key that is known to be present. -/
def get [Inhabited α] (m : OrdMap κ α) (k : κ) : α := (m.find k).getD default

/-- Insert, or replace the element with the same key. -/
def put (m : OrdMap κ α) (k : κ) (a : α) : OrdMap κ α := ⟨putEntry k a m.entries, putEntry_sorted k a m.sorted⟩

/-- Insert unless the key is present already. -/
def insert (m : OrdMap κ α) (k : κ) (a : α) : OrdMap κ α := if (m.find k).isSome then m else m.put k a

def erase (m : OrdMap κ α) (k : κ) : OrdMap κ α := ⟨m.entries.filter fun e => e.1 ≠ k, m.sorted.filter _⟩

/-- The entry with the least key above `k`. -/
def next (m : OrdMap κ α) (k : κ) : Option (κ × α) := m.entries.find? fun e => decide (k < e.1)

/-- The entry with the least key. -/
def first (m : OrdMap κ α) : Option (κ × α) := m.entries.head?

/-- The sum of `f` over the elements. -/
def sum (f : α → Int) (m : OrdMap κ α) : Int := (m.entries.map fun e => f e.2).sum

theorem ext_find {m n : OrdMap κ α} (agree : ∀ k, m.find k = n.find k) : m = n := by
  obtain ⟨es, esSorted⟩ := m
  obtain ⟨ds, dsSorted⟩ := n
  congr 1
  exact eq_of_lookup_eq esSorted dsSorted agree

theorem mem_entries {m : OrdMap κ α} {k : κ} {a : α} : (k, a) ∈ m.entries ↔ m.find k = some a :=
  (lookup_eq_some m.sorted).symm

theorem nodup_keys (m : OrdMap κ α) : (m.entries.map Prod.fst).Nodup :=
  List.pairwise_map.mpr (m.sorted.imp ne_of_lt)

theorem mem_keys {m : OrdMap κ α} {k : κ} : k ∈ m.entries.map Prod.fst ↔ (m.find k).isSome := by
  rw [List.mem_map, Option.isSome_iff_exists]
  constructor
  · intro listed
    obtain ⟨⟨k, a⟩, member, rfl⟩ := listed
    exact ⟨a, mem_entries.mp member⟩
  · intro found
    obtain ⟨a, found⟩ := found
    exact ⟨(k, a), mem_entries.mpr found, rfl⟩

@[simp] theorem find_empty (k : κ) : (∅ : OrdMap κ α).find k = none := rfl

theorem find_put (m : OrdMap κ α) (k j : κ) (a : α) :
    (m.put k a).find j = if j = k then some a else m.find j := lookup_putEntry k j a m.entries

@[simp] theorem find_put_self (m : OrdMap κ α) (k : κ) (a : α) : (m.put k a).find k = some a := by
  simp [find_put]

@[simp] theorem find_put_ne (m : OrdMap κ α) {k j : κ} (a : α) (differ : j ≠ k) :
    (m.put k a).find j = m.find j := by
  simp [find_put, differ]

theorem find_erase (m : OrdMap κ α) (k j : κ) :
    (m.erase k).find j = if j = k then none else m.find j := lookup_filter_ne k j m.entries

@[simp] theorem find_erase_self (m : OrdMap κ α) (k : κ) : (m.erase k).find k = none := by
  simp [find_erase]

@[simp] theorem find_erase_ne (m : OrdMap κ α) {k j : κ} (differ : j ≠ k) :
    (m.erase k).find j = m.find j := by
  simp [find_erase, differ]

theorem find_insert (m : OrdMap κ α) (k j : κ) (a : α) :
    (m.insert k a).find j = if j = k then some ((m.find k).getD a) else m.find j := by
  unfold insert
  cases present : m.find k with
  | none => simp [find_put]
  | some b => by_cases eq : j = k <;> simp [eq, present]

theorem insert_of_none {m : OrdMap κ α} {k : κ} (absent : m.find k = none) (a : α) :
    m.insert k a = m.put k a := by
  simp [insert, absent]

theorem erase_of_none {m : OrdMap κ α} {k : κ} (absent : m.find k = none) : m.erase k = m := by
  refine ext_find fun j => ?_
  by_cases same : j = k
  · simp [same, absent]
  · simp [same]

theorem erase_put (m : OrdMap κ α) (k : κ) (a : α) : (m.put k a).erase k = m.erase k := by
  refine ext_find fun j => ?_
  by_cases same : j = k <;> simp [same]

theorem put_put (m : OrdMap κ α) (k : κ) (a b : α) : (m.put k a).put k b = m.put k b := by
  refine ext_find fun j => ?_
  by_cases same : j = k <;> simp [same]

theorem put_find {m : OrdMap κ α} {k : κ} {a : α} (present : m.find k = some a) : m.put k a = m := by
  refine ext_find fun j => ?_
  by_cases same : j = k
  · simp [same, present]
  · simp [same]

section Get

variable [Inhabited α]

theorem get_of_find {m : OrdMap κ α} {k : κ} {a : α} (present : m.find k = some a) : m.get k = a := by
  simp [get, present]

theorem find_eq_some_get {m : OrdMap κ α} {k : κ} (present : (m.find k).isSome) : m.find k = some (m.get k) := by
  obtain ⟨a, eq⟩ := Option.isSome_iff_exists.mp present
  rw [get_of_find eq, eq]

@[simp] theorem get_put_self (m : OrdMap κ α) (k : κ) (a : α) : (m.put k a).get k = a := by
  simp [get]

@[simp] theorem get_put_ne (m : OrdMap κ α) {k j : κ} (a : α) (differ : j ≠ k) :
    (m.put k a).get j = m.get j := by
  simp [get, differ]

theorem get_put (m : OrdMap κ α) (k j : κ) (a : α) : (m.put k a).get j = if j = k then a else m.get j := by
  by_cases same : j = k <;> simp [same]

@[simp] theorem get_erase_ne (m : OrdMap κ α) {k j : κ} (differ : j ≠ k) :
    (m.erase k).get j = m.get j := by
  simp [get, differ]

theorem put_get {m : OrdMap κ α} {k : κ} (present : (m.find k).isSome) : m.put k (m.get k) = m :=
  put_find (find_eq_some_get present)

end Get

/-! ## Iteration -/

theorem next_eq_some {m : OrdMap κ α} {k j : κ} {a : α} (found : m.next k = some (j, a)) :
    k < j ∧ m.find j = some a ∧ ∀ i b, m.find i = some b → k < i → j ≤ i := by
  have above : k < j := by simpa using List.find?_some found
  refine ⟨above, mem_entries.mp (List.mem_of_find?_eq_some found), fun i b present less => ?_⟩
  obtain ⟨_, front, back, split, below⟩ := List.find?_eq_some_iff_append.mp found
  have member := mem_entries.mpr present
  have sorted := m.sorted
  rw [split] at member sorted
  rcases List.mem_append.mp member with member | member
  · exact absurd less (by simpa using below _ member)
  · rcases List.mem_cons.mp member with eq | member
    · exact (congrArg Prod.fst eq).ge
    · exact (List.rel_of_pairwise_cons (List.pairwise_append.mp sorted).2.1 member).le

theorem next_eq_none {m : OrdMap κ α} {k : κ} (missing : m.next k = none) {i : κ} {b : α}
    (present : m.find i = some b) : i ≤ k := by
  simpa using List.find?_eq_none.mp missing _ (mem_entries.mpr present)

theorem first_eq_some {m : OrdMap κ α} {j : κ} {a : α} (found : m.first = some (j, a)) :
    m.find j = some a ∧ ∀ i b, m.find i = some b → j ≤ i := by
  obtain ⟨rest, split⟩ := List.head?_eq_some_iff.mp found
  have sorted := m.sorted
  refine ⟨mem_entries.mp (by simp [split]), fun i b present => ?_⟩
  have member := mem_entries.mpr present
  rw [split] at member sorted
  rcases List.mem_cons.mp member with eq | member
  · exact (congrArg Prod.fst eq).ge
  · exact (List.rel_of_pairwise_cons sorted member).le

/-! ## Sums -/

theorem sum_put_of_none {m : OrdMap κ α} {k : κ} (absent : m.find k = none) (a : α) (f : α → Int) :
    (m.put k a).sum f = m.sum f + f a := by
  have perm := (putEntry_perm k a m.sorted).map fun e => f e.2
  have whole : (m.entries.filter fun e => e.1 ≠ k) = m.entries :=
    congrArg entries (erase_of_none absent)
  rw [whole] at perm
  simp only [sum, put, perm.sum_eq, List.map_cons, List.sum_cons]
  exact add_comm _ _

theorem sum_eq_erase {m : OrdMap κ α} {k : κ} {a : α} (present : m.find k = some a) (f : α → Int) :
    m.sum f = (m.erase k).sum f + f a := by
  have restored : (m.erase k).put k a = m := by
    refine ext_find fun j => ?_
    by_cases same : j = k
    · simp [same, present]
    · simp [same]
  rw [← sum_put_of_none (find_erase_self m k) a f, restored]

theorem sum_put_of_some {m : OrdMap κ α} {k : κ} {b : α} (present : m.find k = some b) (a : α) (f : α → Int) :
    (m.put k a).sum f = m.sum f - f b + f a := by
  rw [sum_eq_erase (find_put_self m k a) f, erase_put, sum_eq_erase present f]
  omega

@[simp] theorem sum_empty (f : α → Int) : (∅ : OrdMap κ α).sum f = 0 := rfl

theorem sum_congr {m : OrdMap κ α} {f g : α → Int} (agree : ∀ k a, m.find k = some a → f a = g a) :
    m.sum f = m.sum g := by
  unfold sum
  congr 1
  exact List.map_congr_left fun e member => agree e.1 e.2 (mem_entries.mp member)

/-- The sum over any set of keys that holds those of the map. -/
theorem sum_eq_sum_get [Inhabited α] (m : OrdMap κ α) {K : Finset κ} (keys : ∀ k, (m.find k).isSome → k ∈ K) {f : α → Int}
    (empty : f default = 0) : m.sum f = ∑ k ∈ K, f (m.get k) := by
  have nodup : (m.entries.map Prod.fst).Nodup := List.Pairwise.imp (fun less => less.ne) (List.pairwise_map.mpr m.sorted)
  have inside : (m.entries.map Prod.fst).toFinset ⊆ K := by
    intro k member
    obtain ⟨e, listed, rfl⟩ := List.mem_map.mp (List.mem_toFinset.mp member)
    exact keys e.1 (by rw [mem_entries.mp listed]; rfl)
  rw [← Finset.sum_subset inside, List.sum_toFinset _ nodup, List.map_map, sum]
  · congr 1
    exact List.map_congr_left fun e listed => congrArg f (get_of_find (mem_entries.mp listed)).symm
  · intro k _ outside
    cases found : m.find k with
    | none => rw [get, found]; exact empty
    | some a => exact absurd (List.mem_toFinset.mpr (List.mem_map.mpr ⟨(k, a), mem_entries.mpr found, rfl⟩)) outside

theorem sum_nonneg {m : OrdMap κ α} {f : α → Int} (nonneg : ∀ k a, m.find k = some a → 0 ≤ f a) : 0 ≤ m.sum f := by
  refine List.sum_nonneg fun n member => ?_
  obtain ⟨e, listed, rfl⟩ := List.mem_map.mp member
  exact nonneg e.1 e.2 (mem_entries.mp listed)

/-- Some of the elements add up to less than all. -/
theorem sum_le [Inhabited α] {m : OrdMap κ α} {ks : List κ} (nodup : ks.Nodup) (present : ∀ k ∈ ks, (m.find k).isSome)
    {f : α → Int} (nonneg : ∀ k a, m.find k = some a → 0 ≤ f a) : (ks.map fun k => f (m.get k)).sum ≤ m.sum f := by
  induction ks generalizing m with
  | nil => exact sum_nonneg nonneg
  | cons k ks inductionHypothesis =>
    obtain ⟨differ, nodup⟩ := List.nodup_cons.mp nodup
    obtain ⟨here, present⟩ := List.forall_mem_cons.mp present
    have other (j : κ) (member : j ∈ ks) : j ≠ k := fun same => differ (same ▸ member)
    have rest : (ks.map fun j => f ((m.erase k).get j)).sum ≤ (m.erase k).sum f := by
      refine inductionHypothesis nodup (fun j member => ?_) fun j a found => ?_
      · rw [find_erase_ne m (other j member)]
        exact present j member
      · rw [find_erase] at found
        split at found
        next => cases found
        next => exact nonneg j a found
    have same : (ks.map fun j => f ((m.erase k).get j)) = ks.map fun j => f (m.get j) :=
      List.map_congr_left fun j member => by rw [get_erase_ne m (other j member)]
    rw [same] at rest
    rw [List.map_cons, List.sum_cons, sum_eq_erase (find_eq_some_get here) f]
    omega

/-- Each element of the map counts for one of the parts. -/
theorem sum_parts {ι : Type*} [DecidableEq ι] (m : OrdMap κ α) (part : α → ι) {K : Finset ι}
    (parts : ∀ k a, m.find k = some a → part a ∈ K) (f : α → Int) :
    ∑ i ∈ K, m.sum (fun a => if part a = i then f a else 0) = m.sum f := by
  have parts : ∀ e ∈ m.entries, part e.2 ∈ K := fun e listed => parts e.1 e.2 (mem_entries.mp listed)
  simp only [sum]
  generalize m.entries = es at parts
  induction es with
  | nil => simp
  | cons e es inductionHypothesis =>
    obtain ⟨first, parts⟩ := List.forall_mem_cons.mp parts
    simp only [List.map_cons, List.sum_cons, Finset.sum_add_distrib, inductionHypothesis parts]
    rw [Finset.sum_ite_eq, if_pos first]

/-! ## Mapping the elements -/

section Map

variable {β : Type v} (f : α → β)

def map (m : OrdMap κ α) : OrdMap κ β :=
  ⟨m.entries.map fun e => (e.1, f e.2), List.pairwise_map.mpr m.sorted⟩

theorem lookup_map (k : κ) (es : List (κ × α)) : lookup k (es.map fun e => (e.1, f e.2)) = (lookup k es).map f := by
  induction es with
  | nil => rfl
  | cons e es inductionHypothesis =>
    simp only [List.map_cons, lookup, inductionHypothesis]
    split <;> rfl

@[simp] theorem find_map (m : OrdMap κ α) (k : κ) : (m.map f).find k = (m.find k).map f := lookup_map f k m.entries

theorem map_put (m : OrdMap κ α) (k : κ) (a : α) : (m.put k a).map f = (m.map f).put k (f a) := by
  refine ext_find fun j => ?_
  rw [find_map, find_put, find_put, find_map]
  split <;> rfl

/-- Replacing an element by one with the same image. -/
theorem map_put_same {m : OrdMap κ α} {k : κ} {a b : α} (present : m.find k = some b) (same : f a = f b) :
    (m.put k a).map f = m.map f := by
  rw [map_put, same]
  exact put_find (by rw [find_map, present, Option.map_some])

theorem get_map [Inhabited α] [Inhabited β] (m : OrdMap κ α) (k : κ) (fallback : f default = default) :
    (m.map f).get k = f (m.get k) := by
  simp only [get, find_map]
  cases m.find k with
  | none => exact fallback.symm
  | some a => rfl

end Map

end OrdMap
