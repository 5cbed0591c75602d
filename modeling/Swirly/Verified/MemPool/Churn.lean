import Swirly.Verified.MemPool.Ctx

/-!
# Blocks that are given back and handed out again

`alloc` rounds the size up and `dealloc` rounds it down, so a block may be given back to another list than the one that it came
from.  Where both take the same list, a pool grows only while more blocks are in use than before.
-/

namespace Swirly

theorem MemPool.allocBlock_room {pool : MemPool} {k : SizeClass} {maxSize : MemSize} (empty : (pool.free k).head = 0)
    (room : pool.offset + k.size ≤ maxSize) : (pool.allocBlock k maxSize).2 = some pool.offset := by
  have pop : MemStack.pop pool.next (pool.free k) = (pool.free k, none) := by rw [MemStack.pop, if_pos empty]
  simp [allocBlock, pop, reserve, setFree, UInt32.not_lt.mpr room]

namespace MemCtx

/-- The list that a block is taken from. -/
def takenFrom (size : UInt64) : SizeClass := .ofLines ((size.toNat + 63) / 64)

/-- The list that a block is given back to. -/
def givenTo (size : UInt64) : SizeClass := .ofLines (size.toNat / 64)

/-- The sizes for which these are the same list. -/
def SameList (size : UInt64) : Prop :=
  size.toNat ≤ 64 ∨ size.toNat = 128 ∨ size.toNat = 192 ∨ size.toNat = 256 ∨ 320 ≤ size.toNat ∧ size.toNat ≤ 512 ∨
    576 ≤ size.toNat ∧ size.toNat ≤ 1024 ∨ 1088 ≤ size.toNat

instance (size : UInt64) : Decidable (SameList size) := by
  unfold SameList
  infer_instance

theorem sameList_iff {size : UInt64} (small : size.toNat ≤ 2048) : SameList size ↔ takenFrom size = givenTo size := by
  rw [SameList, takenFrom, givenTo, SizeClass.ofLines, SizeClass.ofLines]
  split_ifs <;> simp <;> omega

/-- The link to a block that is given back is zero, and zero ends the list. -/
def Loses (ctx : MemCtx) (addr : MemSize) (size : UInt64) : Prop :=
  addr = 0 ∧ (ctx.pool.free (givenTo size)).tag + 1 = 0

instance (ctx : MemCtx) (addr : MemSize) (size : UInt64) : Decidable (ctx.Loses addr size) :=
  inferInstanceAs (Decidable (_ ∧ _))

/-- A block is given back, and the next one of its size is found without new memory. -/
def Reuses (ctx : MemCtx) (addr : MemSize) (size : UInt64) : Prop :=
  ∃ given, ctx.dealloc addr size = some given ∧
    ∃ taken other, given.alloc size = some (taken, some other) ∧ taken.pool.offset = given.pool.offset

theorem makeLink_eq_zero_iff (tag : MemTag) (offset : MemSize) : makeLink tag offset = 0 ↔ tag = 0 ∧ offset = 0 := by
  rw [← UInt64.toNat_inj, ← UInt32.toNat_inj, ← UInt32.toNat_inj, toNat_makeLink]
  simp

/-- New memory moves the offset. -/
theorem allocBlock_offset (pool : MemPool) (k : SizeClass) (maxSize : MemSize) :
    (∃ other, (pool.allocBlock k maxSize).2 = some other ∧ (pool.allocBlock k maxSize).1.offset = pool.offset) ↔
      (pool.free k).head ≠ 0 := by
  have allocs := MemPool.allocBlock_cases pool k maxSize
  generalize pool.allocBlock k maxSize = result at allocs ⊢
  obtain ⟨after, addr⟩ := result
  cases allocs with
  | popped used => simp [used]
  | carved empty =>
    have positive := k.size_pos
    have moved : k.size ≠ 0 := by
      intro none_
      rw [none_] at positive
      exact absurd positive (by decide)
    simp [empty, moved]
  | full empty => simpa using empty

/-- A block can be had again when its list is the one it is taken from, unless its link is zero, and otherwise when there are
other blocks on the list that it is taken from. -/
theorem reuses_iff (ctx : MemCtx) (addr : MemSize) {size : UInt64} (small : size.toNat ≤ 2048) : ctx.Reuses addr size ↔
    if SameList size then ¬ ctx.Loses addr size else (ctx.pool.free (takenFrom size)).head ≠ 0 := by
  have given := ctx.dealloc_small small addr
  -- The next block comes from the list where its head is now.
  have head : ((ctx.pool.deallocBlock (givenTo size) addr).free (takenFrom size)).head ≠ 0 ↔
      if SameList size then ¬ ctx.Loses addr size else (ctx.pool.free (takenFrom size)).head ≠ 0 := by
    simp only [MemPool.deallocBlock, MemStack.push, MemPool.setFree]
    by_cases same : SameList size
    · rw [if_pos same, (sameList_iff small).mp same, Function.update_self, Loses, ne_eq, makeLink_eq_zero_iff, and_comm]
    · rw [if_neg same, Function.update_of_ne fun equal => same ((sameList_iff small).mpr equal)]
  rw [← head, ← allocBlock_offset _ _ ctx.maxSize.toUInt32]
  constructor
  · rintro ⟨_, done, taken, other, allocated, still⟩
    obtain rfl := Option.some.inj (given.symm.trans done)
    rw [alloc_small _ small, Option.some.injEq, Prod.mk.injEq] at allocated
    obtain ⟨rfl, found⟩ := allocated
    exact ⟨other, found, still⟩
  · rintro ⟨other, found, still⟩
    have allocated := alloc_small { ctx with pool := ctx.pool.deallocBlock (givenTo size) addr } small
    exact ⟨_, given, _, other, allocated.trans (congrArg (fun addr => some (_, addr)) found), still⟩

end MemCtx

instance : Fintype SizeClass where
  elems := {.free1, .free2, .free3, .free4, .free8, .free16, .free32}
  complete k := by cases k <;> decide

namespace MemClient

/-- How many blocks of a size are held. -/
def inUse (live : List (MemSize × UInt64)) (n : Nat) : Nat := (live.map fun b => b.2.toNat).count n

/-- At most so many blocks of each size are held. -/
def Within (most : Nat → Nat) (live : List (MemSize × UInt64)) : Prop := ∀ n, inUse live n ≤ most n

theorem within_iff {most : Nat → Nat} {live : List (MemSize × UInt64)} :
    Within most live ↔ ∀ b ∈ live, inUse live b.2.toNat ≤ most b.2.toNat := by
  constructor
  · intro within b _
    exact within _
  · intro bounded n
    by_cases held : n ∈ live.map fun b => b.2.toNat
    · obtain ⟨b, member, rfl⟩ := List.mem_map.mp held
      exact bounded b member
    · rw [inUse, List.count_eq_zero_of_not_mem held]
      exact Nat.zero_le _

instance (most : Nat → Nat) (live : List (MemSize × UInt64)) : Decidable (Within most live) :=
  @decidable_of_iff _ _ within_iff.symm (List.decidableBAll _ live)

/-- The size of a block for so many bytes. -/
def blockSize (n : Nat) : Nat := (SizeClass.ofLines ((n + 63) / 64)).size.toNat

/-- The memory for so many blocks of each size. -/
def footprint (most : Nat → Nat) : Nat := ∑ n ∈ Finset.range 2049, most n * blockSize n

/-- How many blocks are held that come from a free list. -/
def held (live : List (MemSize × UInt64)) (k : SizeClass) : Nat := live.countP fun b => MemCtx.takenFrom b.2 = k

/-- How many blocks of the sizes of a free list may be held. -/
def mostOf (most : Nat → Nat) (k : SizeClass) : Nat :=
  ∑ n ∈ Finset.range 2049 with SizeClass.ofLines ((n + 63) / 64) = k, most n

theorem sum_mostOf (most : Nat → Nat) : ∑ k, mostOf most k * k.size.toNat = footprint most := by
  rw [footprint, ← Finset.sum_fiberwise _ fun n => SizeClass.ofLines ((n + 63) / 64)]
  apply Finset.sum_congr rfl
  intro k _
  rw [mostOf, Finset.sum_mul]
  apply Finset.sum_congr rfl
  intro n member
  rw [blockSize, (Finset.mem_filter.mp member).2]

theorem held_le {most : Nat → Nat} {live : List (MemSize × UInt64)} (small : ∀ b ∈ live, b.2.toNat ≤ 2048)
    (within : Within most live) (k : SizeClass) : held live k ≤ mostOf most k := by
  have counted : held live k =
      (live.map fun b => b.2.toNat).countP fun n => SizeClass.ofLines ((n + 63) / 64) = k := by
    rw [List.countP_map]
    rfl
  rw [counted, ← Finset.sum_filter_count_eq_countP, mostOf]
  calc ∑ n ∈ (live.map fun b => b.2.toNat).toFinset with SizeClass.ofLines ((n + 63) / 64) = k, inUse live n
    _ ≤ ∑ n ∈ Finset.range 2049 with SizeClass.ofLines ((n + 63) / 64) = k, inUse live n := by
      apply Finset.sum_le_sum_of_subset
      apply Finset.filter_subset_filter
      intro n member
      obtain ⟨b, lives, rfl⟩ := List.mem_map.mp (List.mem_toFinset.mp member)
      exact Finset.mem_range.mpr (Nat.lt_succ_of_le (small b lives))
    _ ≤ ∑ n ∈ Finset.range 2049 with SizeClass.ofLines ((n + 63) / 64) = k, most n :=
      Finset.sum_le_sum fun n _ => within n

/-- Each block that has been carved is held or on the list that it was carved for, and there are no more of them than could be
held at once. -/
structure Steady (most : Nat → Nat) (s : MemClient) (links : SizeClass → List MemLink) : Prop where
  layout : Layout s links
  within : Within most s.live
  same : ∀ b ∈ s.live, MemCtx.SameList b.2
  offset : s.ctx.pool.offset.toNat = ∑ k, ((links k).length + held s.live k) * k.size.toNat
  bounded : ∀ k, (links k).length + held s.live k ≤ mostOf most k

theorem held_cons (b : MemSize × UInt64) (live : List (MemSize × UInt64)) (k : SizeClass) :
    held (b :: live) k = held live k + if MemCtx.takenFrom b.2 = k then 1 else 0 := by
  simp [held, List.countP_cons]

theorem held_perm {live other : List (MemSize × UInt64)} (perm : live.Perm other) (k : SizeClass) : held live k = held other k :=
  perm.countP_eq _

theorem Layout.empty {s : MemClient} {links : SizeClass → List MemLink} {k : SizeClass} (layout : Layout s links)
    (empty : (s.ctx.pool.free k).head = 0) : links k = [] := by
  have chain := layout.chain k
  rw [empty] at chain
  exact chain.of_none

namespace Steady

variable {most : Nat → Nat} {s : MemClient} {links : SizeClass → List MemLink} {k : SizeClass} {addr : MemSize} {size : UInt64}

theorem make (most : Nat → Nat) (maxSize : UInt64) : Steady most (make maxSize) fun _ => [] where
  layout := .make maxSize
  within _ := Nat.zero_le _
  same := by simp [MemClient.make]
  offset := by simp [MemClient.make, MemCtx.make, MemPool.make, held]
  bounded _ := Nat.zero_le _

theorem offset_le (steady : Steady most s links) : s.ctx.pool.offset.toNat ≤ footprint most := by
  rw [steady.offset, ← sum_mostOf]
  exact Finset.sum_le_sum fun k _ => Nat.mul_le_mul_right _ (steady.bounded k)

/-- As many blocks of a list as before are on it or held. -/
theorem of_same (steady : Steady most s links) {t : MemClient} {after : SizeClass → List MemLink} (layout : Layout t after)
    (within : Within most t.live) (same : ∀ b ∈ t.live, MemCtx.SameList b.2) (still : t.ctx.pool.offset = s.ctx.pool.offset)
    (equal : ∀ l, (after l).length + held t.live l = (links l).length + held s.live l) : Steady most t after where
  layout := layout
  within := within
  same := same
  offset := by
    rw [still, steady.offset]
    exact Finset.sum_congr rfl fun l _ => by rw [equal]
  bounded l := by
    rw [equal]
    exact steady.bounded l

/-- Room for one more block of a size. -/
theorem one_more (steady : Steady most s links) (small : size.toNat ≤ 2048) (empty : links (MemCtx.takenFrom size) = [])
    (within : Within most ((addr, size) :: s.live)) :
    (∀ l, (links l).length + held ((addr, size) :: s.live) l ≤ mostOf most l) ∧
    s.ctx.pool.offset.toNat + (MemCtx.takenFrom size).size.toNat =
      ∑ l, ((links l).length + held ((addr, size) :: s.live) l) * l.size.toNat := by
  constructor
  · intro l
    by_cases same : l = MemCtx.takenFrom size
    · rw [same, empty, List.length_nil, Nat.zero_add]
      apply held_le _ within
      intro b lives
      cases lives with
      | head => exact small
      | tail _ lives => exact (steady.layout.live b lives).1
    · have other : held ((addr, size) :: s.live) l = held s.live l := by
        rw [held_cons, if_neg (Ne.symm same), Nat.add_zero]
      rw [other]
      exact steady.bounded l
  · simp only [held_cons, ← Nat.add_assoc, Nat.add_mul _ (ite _ _ _), Finset.sum_add_distrib, ite_mul, one_mul, zero_mul,
      Finset.sum_ite_eq, Finset.mem_univ, if_true]
    rw [steady.offset]

/-- The total of these is what the new blocks take. -/
theorem room_for_one (steady : Steady most s links) (small : size.toNat ≤ 2048)
    (empty : links (MemCtx.takenFrom size) = []) (within : Within most ((addr, size) :: s.live)) :
    s.ctx.pool.offset.toNat + (MemCtx.takenFrom size).size.toNat ≤ footprint most := by
  obtain ⟨bounded, total⟩ := steady.one_more small empty within
  rw [total, ← sum_mostOf]
  exact Finset.sum_le_sum fun k _ => Nat.mul_le_mul_right _ (bounded k)

theorem alloc (steady : Steady most s links) (modest : size.toNat ≤ 2 ^ 37)
    (same : size.toNat ≤ 2048 → MemCtx.SameList size) (narrow : footprint most < 2 ^ 32) {t : MemClient}
    (stepped : s.step (.alloc size) = some t) (within : Within most t.live) : ∃ links, Steady most t links := by
  by_cases small : size.toNat ≤ 2048
  · have allocs := MemPool.allocBlock_cases s.ctx.pool (MemCtx.takenFrom size) s.ctx.maxSize.toUInt32
    rw [step, MemCtx.alloc_small s.ctx small, ← MemCtx.takenFrom, Option.map_some] at stepped
    generalize s.ctx.pool.allocBlock (MemCtx.takenFrom size) s.ctx.maxSize.toUInt32 = result at allocs stepped
    obtain ⟨pool, addr⟩ := result
    cases stepped
    have same : ∀ b ∈ (addr.elim s.live fun addr => (addr, size) :: s.live), MemCtx.SameList b.2 := by
      cases addr with
      | none => exact steady.same
      | some addr => exact List.forall_mem_cons.mpr ⟨same small, steady.same⟩
    cases allocs with
    | @popped stack used head =>
      obtain ⟨rest, split, tail⟩ := (steady.layout.chain _).of_ne used
      rw [← head] at tail
      refine ⟨_, steady.of_same (steady.layout.pop split tail small rfl) within same rfl ?_⟩
      intro l
      simp only [allocated, held_cons]
      by_cases here : l = MemCtx.takenFrom size
      · rw [here, Function.update_self, if_pos rfl, split, List.length_cons]
        omega
      · rw [Function.update_of_ne here, if_neg (Ne.symm here), Nat.add_zero]
    | carved empty room =>
      -- Nothing is left on the list, so all of its blocks are held.
      have none_left := steady.layout.empty empty
      obtain ⟨bounded, total⟩ := steady.one_more small none_left within
      have enough := steady.room_for_one small none_left within
      have grown : (s.ctx.pool.offset + (MemCtx.takenFrom size).size).toNat =
          s.ctx.pool.offset.toNat + (MemCtx.takenFrom size).size.toNat := by
        rw [UInt32.toNat_add]
        exact Nat.mod_eq_of_lt (by omega)
      exact ⟨links, steady.layout.carve grown small rfl, within, same, grown.trans total, bounded⟩
    | full => exact ⟨links, steady⟩
  · rw [step, MemCtx.alloc_large s.ctx (by omega) modest] at stepped
    cases stepped
    exact ⟨links, steady⟩

theorem dealloc (steady : Steady most s links) (kept : ¬ s.ctx.Loses addr size) {t : MemClient}
    (stepped : s.step (.dealloc addr size) = some t) (within : Within most t.live) : ∃ links, Steady most t links := by
  rw [step] at stepped
  split at stepped
  next lives =>
    obtain ⟨small, takes⟩ : size.toNat ≤ 2048 ∧ Takes s.blocks (MemCtx.takenFrom size) addr := steady.layout.live _ lives
    rw [MemCtx.dealloc_small s.ctx small, ← MemCtx.givenTo, Option.map_some, Option.some.injEq] at stepped
    subst stepped
    have list := (MemCtx.sameList_iff small).mp (steady.same _ lives)
    rw [list] at takes
    have same : ∀ b ∈ s.live.erase (addr, size), MemCtx.SameList b.2 :=
      fun b member => steady.same b (List.mem_of_mem_erase member)
    refine ⟨_, steady.of_same (steady.layout.dealloc lives takes) within same rfl ?_⟩
    intro l
    have perm := held_perm (List.perm_cons_erase lives) l
    -- The link of the block is not zero, so that the list goes on behind it.
    have used : makeLink ((s.ctx.pool.free (MemCtx.givenTo size)).tag + 1) addr ≠ 0 := by
      rw [ne_eq, MemCtx.makeLink_eq_zero_iff, and_comm]
      exact kept
    rw [held_cons, list] at perm
    by_cases here : l = MemCtx.givenTo size
    · rw [here, if_pos rfl] at perm
      rw [here, Function.update_self, Layout.returned, if_neg used, List.length_cons, perm, Nat.add_assoc, Nat.add_comm 1]
    · rw [if_neg (Ne.symm here), Nat.add_zero] at perm
      rw [Function.update_of_ne here, perm]
  next => cases stepped

end Steady

/-- What the sizes allow, and that no block is lost. -/
def Tidy (s : MemClient) : Op → Prop
  | .alloc size => size.toNat ≤ 2 ^ 37 ∧ (size.toNat ≤ 2048 → MemCtx.SameList size)
  | .dealloc addr size => ¬ s.ctx.Loses addr size
  | .write _ _ _ => True

instance (s : MemClient) : DecidablePred s.Tidy
  | .alloc _ => inferInstanceAs (Decidable (_ ∧ _))
  | .dealloc _ _ => inferInstanceAs (Decidable (¬ _))
  | .write _ _ _ => inferInstanceAs (Decidable True)

theorem Steady.step {most : Nat → Nat} {s t : MemClient} {links : SizeClass → List MemLink} (steady : Steady most s links)
    (narrow : footprint most < 2 ^ 32) {op : Op} (tidy : s.Tidy op) (stepped : s.step op = some t) (within : Within most t.live) :
    ∃ links, Steady most t links := by
  cases op with
  | alloc size => exact steady.alloc tidy.1 tidy.2 narrow stepped within
  | dealloc addr size => exact steady.dealloc tidy stepped within
  | write addr size words =>
    rw [MemClient.step] at stepped
    split at stepped
    next lives =>
      cases stepped
      exact ⟨links, steady.of_same (steady.layout.write lives words) within steady.same rfl fun _ => rfl⟩
    next => cases stepped

theorem step_maxSize {s t : MemClient} {op : Op} (stepped : s.step op = some t) : t.ctx.maxSize = s.ctx.maxSize := by
  cases op with
  | alloc size =>
    obtain ⟨⟨ctx, addr⟩, done, rfl⟩ := Option.map_eq_some_iff.mp stepped
    obtain ⟨pow2, -, done⟩ := Option.map_eq_some_iff.mp done
    -- A block comes off the free list or is carved out of what is left, and the size of the pool is the same.
    have same : ctx.maxSize = s.ctx.maxSize := by
      split at done
      next =>
        cases done
        rfl
      next =>
        cases done
        rfl
    cases addr with
    | none => exact same
    | some addr => exact same
  | dealloc addr size =>
    rw [MemClient.step] at stepped
    split at stepped
    next =>
      obtain ⟨ctx, done, rfl⟩ := Option.map_eq_some_iff.mp stepped
      obtain ⟨pow2, -, done⟩ := Option.bind_eq_some_iff.mp done
      obtain ⟨k, -, rfl⟩ := Option.map_eq_some_iff.mp done
      rfl
    next => cases stepped
  | write addr size words =>
    rw [MemClient.step] at stepped
    split at stepped
    next =>
      cases stepped
      rfl
    next => cases stepped

/-- No operation holds more blocks of a size than that. -/
def Churns (most : Nat → Nat) (s : MemClient) (op : Op) : Prop := s.Tidy op ∧ ∀ t ∈ s.step op, Within most t.live

instance (most : Nat → Nat) (s : MemClient) (op : Op) : Decidable (Churns most s op) := inferInstanceAs (Decidable (_ ∧ _))

/-- While there is memory for the blocks that may be held, there is a block of each size of which not as many are held. -/
theorem Steady.allocates {most : Nat → Nat} {s : MemClient} {links : SizeClass → List MemLink} (steady : Steady most s links)
    (enough : footprint most ≤ s.ctx.maxSize.toUInt32.toNat) {size : UInt64} (small : size.toNat ≤ 2048)
    (fewer : inUse s.live size.toNat < most size.toNat) : ∃ ctx addr, s.ctx.alloc size = some (ctx, some addr) := by
  obtain ⟨addr, found⟩ : ∃ addr,
      (s.ctx.pool.allocBlock (MemCtx.takenFrom size) s.ctx.maxSize.toUInt32).2 = some addr := by
    by_cases empty : (s.ctx.pool.free (MemCtx.takenFrom size)).head = 0
    · have within : Within most ((0, size) :: s.live) := by
        intro n
        rw [inUse, List.map_cons, List.count_cons]
        have before : (s.live.map fun b => b.2.toNat).count n ≤ most n := steady.within n
        by_cases same : size.toNat = n
        · subst same
          rw [beq_self_eq_true, if_pos rfl]
          exact fewer
        · simpa [same] using before
      have enough := (steady.room_for_one small (steady.layout.empty empty) within).trans enough
      refine ⟨_, MemPool.allocBlock_room empty ?_⟩
      have bound := s.ctx.maxSize.toUInt32.toNat_lt
      rw [UInt32.le_iff_toNat_le, UInt32.toNat_add, Nat.mod_eq_of_lt (by omega)]
      exact enough
    · obtain ⟨addr, found, -⟩ := (MemCtx.allocBlock_offset _ _ s.ctx.maxSize.toUInt32).mpr empty
      exact ⟨addr, found⟩
  exact ⟨_, addr, (s.ctx.alloc_small small).trans (congrArg (fun addr => some (_, addr)) found)⟩

/-- A block that is given back is taken again for the next request of its size exactly when its list is the one for the size
and its link is not zero, or another block is on that list.  When all requests are of such sizes, and no block is lost, a pool
never grows beyond the blocks that are held at once. -/
theorem memory_reused (ctx : MemCtx) (addr : MemSize) {size : UInt64} (small : size.toNat ≤ 2048) {maxSize : UInt64}
    {most : Nat → Nat} {ops : List Op} {s : MemClient} (run : Run step (Churns most) (make maxSize) ops s) :
    (ctx.Reuses addr size ↔
      if MemCtx.SameList size then ¬ ctx.Loses addr size else (ctx.pool.free (MemCtx.takenFrom size)).head ≠ 0) ∧
    s.ctx.pool.offset.toNat ≤ footprint most ∧
    (footprint most ≤ maxSize.toUInt32.toNat → inUse s.live size.toNat < most size.toNat →
      ∃ ctx addr, s.ctx.alloc size = some (ctx, some addr)) := by
  have kept (narrow : footprint most < 2 ^ 32) : s.ctx.maxSize = maxSize ∧ ∃ links, Steady most s links := by
    apply run.invariant (I := fun s => s.ctx.maxSize = maxSize ∧ ∃ links, Steady most s links)
    · intro t op u kept churns stepped
      obtain ⟨limit, links, steady⟩ := kept
      rw [step_maxSize stepped]
      exact ⟨limit, steady.step narrow churns.1 stepped (churns.2 u stepped)⟩
    · exact ⟨rfl, _, .make most maxSize⟩
  refine ⟨ctx.reuses_iff addr small, ?_, fun enough fewer => ?_⟩
  · -- Any offset is within a footprint of `2 ^ 32` or more.
    by_cases narrow : footprint most < 2 ^ 32
    · obtain ⟨-, links, steady⟩ := kept narrow
      exact steady.offset_le
    · have bound := s.ctx.pool.offset.toNat_lt
      omega
  · have bound := maxSize.toUInt32.toNat_lt
    obtain ⟨rfl, links, steady⟩ := kept (by omega)
    exact steady.allocates enough small fewer

/-- One block of each of two sizes, and the same memory for the second one again. -/
theorem memory_reused_once :
    ∃ s : MemClient, s.live = [(64, 128), (0, 64)] ∧ s.ctx.Reuses 64 128 ∧
      s.ctx.pool.offset.toNat ≤ footprint fun n => if n = 64 ∨ n = 128 then 1 else 0 := by
  have made : ∃ s ∈ Run.exec step (Churns fun n => if n = 64 ∨ n = 128 then 1 else 0) (make (2 ^ 20))
      [.alloc 64, .alloc 128, .dealloc 64 128, .alloc 128], s.live = [(64, 128), (0, 64)] := by
    decide +kernel
  obtain ⟨s, done, live⟩ := made
  have small : (128 : UInt64).toNat ≤ 2048 := by decide
  obtain ⟨again, bounded, -⟩ := memory_reused s.ctx 64 small (Run.of_exec done)
  refine ⟨s, live, again.mpr ?_, bounded⟩
  rw [if_pos (by decide)]
  exact fun lost => absurd lost.1 (by decide)

/-- A block of 100 bytes is given back to another list, and a second one is carved. -/
theorem memory_leaks : ¬ ∀ (most : Nat → Nat) ops s,
    Run step (fun s op => op.Modest ∧ ∀ t ∈ s.step op, Within most t.live) (make (2 ^ 20)) ops s →
      s.ctx.pool.offset.toNat ≤ footprint most := by
  intro bounded
  have made : ∃ s ∈ Run.exec step (fun s op => op.Modest ∧ ∀ t ∈ s.step op, Within (fun n => if n = 100 then 1 else 0) t.live)
      (make (2 ^ 20)) [.alloc 100, .dealloc 0 100, .alloc 100], s.ctx.pool.offset.toNat = 256 := by
    decide +kernel
  obtain ⟨s, done, offset⟩ := made
  have most := bounded _ _ s (Run.of_exec done)
  have once : footprint (fun n => if n = 100 then 1 else 0) = 128 := by
    simp [footprint, blockSize, SizeClass.ofLines, SizeClass.size]
  omega

end MemClient

end Swirly
