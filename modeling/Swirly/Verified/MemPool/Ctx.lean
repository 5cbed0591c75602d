import Swirly.Verified.MemPool.Link
import Swirly.Verified.MemPool.Sizes

/-!
# Blocks of the memory context

The blocks tile the storage up to the offset.  Each of them is held by the user, on one free list whose nodes it can take, or
lost: a link with the tag zero and the offset zero ends its list.
-/

namespace Swirly

namespace MemPool

variable {pool pool' : MemPool} {k : SizeClass} {maxSize addr : MemSize}

/-- What `allocBlock` does. -/
inductive Allocs (pool : MemPool) (k : SizeClass) (maxSize : MemSize) : MemPool → Option MemSize → Prop
  | popped {stack : MemStack} (used : (pool.free k).head ≠ 0)
      (head : stack.head = pool.next (linkToOffset (pool.free k).head)) :
    Allocs pool k maxSize (pool.setFree k stack) (some (linkToOffset (pool.free k).head))
  | carved (empty : (pool.free k).head = 0) (room : pool.offset + k.size ≤ maxSize) :
    Allocs pool k maxSize { pool with offset := pool.offset + k.size } (some pool.offset)
  | full (empty : (pool.free k).head = 0) : Allocs pool k maxSize pool none

theorem setFree_self (pool : MemPool) (k : SizeClass) : pool.setFree k (pool.free k) = pool := by
  simp [setFree]

theorem allocBlock_cases (pool : MemPool) (k : SizeClass) (maxSize : MemSize) :
    Allocs pool k maxSize (pool.allocBlock k maxSize).1 (pool.allocBlock k maxSize).2 := by
  rw [allocBlock, MemStack.pop]
  by_cases empty : (pool.free k).head = 0
  · rw [if_pos empty]
    simp only [setFree_self, reserve]
    split
    next full => exact .full empty
    next pool' offset carved =>
      split at carved
      next => cases carved
      next room =>
        cases carved
        exact .carved empty (UInt32.not_lt.mp room)
  · rw [if_neg empty]
    exact .popped empty rfl

end MemPool

namespace MemClient

/-- The blocks, the latest first, follow one another from the start of the storage. -/
def Tiled : List (MemSize × MemSize) → Nat → Prop
  | [], offset => offset = 0
  | b :: rest, offset => 0 < b.2.toNat ∧ b.1.toNat + b.2.toNat = offset ∧ Tiled rest b.1.toNat

namespace Tiled

variable {blocks : List (MemSize × MemSize)} {offset : Nat}

theorem inside (tiled : Tiled blocks offset) : ∀ b ∈ blocks, 0 < b.2.toNat ∧ b.1.toNat + b.2.toNat ≤ offset := by
  induction blocks generalizing offset with
  | nil => simp
  | cons first rest inductionHypothesis =>
    obtain ⟨positive, end_, tiled⟩ := tiled
    intro b member
    cases member with
    | head => exact ⟨positive, end_.le⟩
    | tail _ member =>
      have before := inductionHypothesis tiled b member
      omega

/-- Two blocks are the same or do not overlap. -/
theorem apart (tiled : Tiled blocks offset) : ∀ b ∈ blocks, ∀ c ∈ blocks,
    b = c ∨ b.1.toNat + b.2.toNat ≤ c.1.toNat ∨ c.1.toNat + c.2.toNat ≤ b.1.toNat := by
  induction blocks generalizing offset with
  | nil => simp
  | cons first rest inductionHypothesis =>
    obtain ⟨-, -, tiled⟩ := tiled
    intro b here c there
    cases here with
    | head =>
      cases there with
      | head => exact .inl rfl
      | tail _ there => exact .inr (.inr (tiled.inside c there).2)
    | tail _ here =>
      cases there with
      | head => exact .inr (.inl (tiled.inside b here).2)
      | tail _ there => exact inductionHypothesis tiled b here c there

theorem size_unique (tiled : Tiled blocks offset) {addr size size' : MemSize} (here : (addr, size) ∈ blocks)
    (there : (addr, size') ∈ blocks) : size = size' := by
  have positive := (tiled.inside _ here).1
  have positive' := (tiled.inside _ there).1
  rcases tiled.apart _ here _ there with same | apart
  · exact congrArg Prod.snd same
  · simp only at positive positive' apart
    omega

theorem lookup (tiled : Tiled blocks offset) {addr size : MemSize} (member : (addr, size) ∈ blocks) :
    blocks.lookup addr = some size := by
  induction blocks generalizing offset with
  | nil => cases member
  | cons first rest inductionHypothesis =>
    obtain ⟨other, otherSize⟩ := first
    rw [List.lookup_cons]
    by_cases same : addr = other
    · obtain rfl := same
      simp [tiled.size_unique List.mem_cons_self member]
    · have different : (addr == other) = false := by simpa using same
      rw [different]
      apply inductionHypothesis tiled.2.2
      simpa [same] using member

end Tiled

/-- The free lists have no block in common, and none of them has a block twice. -/
structure Lists (nodes : SizeClass → List MemSize) : Prop where
  once : ∀ k, (nodes k).Nodup
  apart : ∀ k l, k ≠ l → (nodes k).Disjoint (nodes l)

theorem Lists.set {nodes : SizeClass → List MemSize} (lists : Lists nodes) {k : SizeClass} {new : List MemSize}
    (once : new.Nodup) (apart : ∀ l, k ≠ l → new.Disjoint (nodes l)) : Lists (Function.update nodes k new) where
  once l := by
    by_cases same : l = k
    · rwa [same, Function.update_self]
    · rw [Function.update_of_ne same]
      exact lists.once l
  apart l m differ := by
    by_cases first : l = k
    · obtain rfl := first
      rw [Function.update_self, Function.update_of_ne (Ne.symm differ)]
      exact apart m differ
    · rw [Function.update_of_ne first]
      by_cases second : m = k
      · obtain rfl := second
        rw [Function.update_self]
        exact (apart l (Ne.symm differ)).symm
      · rw [Function.update_of_ne second]
        exact lists.apart l m differ

/-- The offsets of the blocks of each free list. -/
def nodesOf (links : SizeClass → List MemLink) (k : SizeClass) : List MemSize := (links k).map linkToOffset

theorem nodesOf_update (links : SizeClass → List MemLink) (k : SizeClass) (new : List MemLink) :
    nodesOf (Function.update links k new) = Function.update (nodesOf links) k (new.map linkToOffset) := by
  funext l
  by_cases same : l = k
  · obtain rfl := same
    simp [nodesOf]
  · simp [nodesOf, same]

/-- A block that can take nodes of a free list. -/
def Takes (blocks : List (MemSize × MemSize)) (k : SizeClass) (addr : MemSize) : Prop :=
  ∃ size, (addr, size) ∈ blocks ∧ k.size.toNat ≤ size.toNat

/-- The free lists and the blocks of the user share the blocks that have been carved. -/
structure Layout (s : MemClient) (links : SizeClass → List MemLink) : Prop where
  tiled : Tiled s.blocks s.ctx.pool.offset.toNat
  chain : ∀ k, Chain s.ctx.pool.next (s.ctx.pool.free k).head (links k)
  lists : Lists (nodesOf links)
  takes : ∀ k, ∀ node ∈ nodesOf links k, Takes s.blocks k node
  free : ∀ k, (nodesOf links k).Disjoint (s.live.map Prod.fst)
  distinct : (s.live.map Prod.fst).Nodup
  live : ∀ b ∈ s.live, b.2.toNat ≤ 2048 ∧ Takes s.blocks (.ofLines ((b.2.toNat + 63) / 64)) b.1

structure Inv (s : MemClient) (links : SizeClass → List MemLink) : Prop where
  room : s.ctx.maxSize.toNat + 2048 < 2 ^ 32
  bounded : s.ctx.pool.offset.toNat ≤ s.ctx.maxSize.toNat
  tiled : Tiled s.blocks s.ctx.pool.offset.toNat
  chain : ∀ k, Chain s.ctx.pool.next (s.ctx.pool.free k).head (links k)
  lists : Lists (nodesOf links)
  takes : ∀ k, ∀ node ∈ nodesOf links k, Takes s.blocks k node
  free : ∀ k, (nodesOf links k).Disjoint (s.live.map Prod.fst)
  distinct : (s.live.map Prod.fst).Nodup
  live : ∀ b ∈ s.live, b.2.toNat ≤ 2048 ∧ Takes s.blocks (.ofLines ((b.2.toNat + 63) / 64)) b.1

theorem Takes.smaller {blocks : List (MemSize × MemSize)} {k l : SizeClass} {addr : MemSize} (takes : Takes blocks k addr)
    (smaller : l.size.toNat ≤ k.size.toNat) : Takes blocks l addr := by
  obtain ⟨size, member, large⟩ := takes
  exact ⟨size, member, smaller.trans large⟩

theorem Takes.more {blocks : List (MemSize × MemSize)} {k : SizeClass} {addr : MemSize} (takes : Takes blocks k addr)
    (b : MemSize × MemSize) : Takes (b :: blocks) k addr := by
  obtain ⟨size, member, large⟩ := takes
  exact ⟨size, List.mem_cons_of_mem _ member, large⟩

namespace Layout

variable {s t : MemClient} {links : SizeClass → List MemLink} {k : SizeClass} {addr : MemSize} {size : UInt64}

theorem make (maxSize : UInt64) : Layout (make maxSize) fun _ => [] where
  tiled := rfl
  chain _ := .nil
  lists := ⟨fun _ => .nil, fun _ _ _ => by simp [nodesOf]⟩
  takes := by simp [nodesOf]
  free := by simp [nodesOf]
  distinct := .nil
  live := by simp [MemClient.make]

/-- A block of a free list is handed out. -/
theorem pop (layout : Layout s links) {rest : List MemLink} (split : links k = (s.ctx.pool.free k).head :: rest)
    {stack : MemStack} (tail : Chain s.ctx.pool.next stack.head rest) (small : size.toNat ≤ 2048)
    (fits : k = .ofLines ((size.toNat + 63) / 64)) :
    Layout (s.allocated { s.ctx with pool := s.ctx.pool.setFree k stack } size
      (some (linkToOffset (s.ctx.pool.free k).head))) (Function.update links k rest) := by
  obtain ⟨node, offset⟩ : ∃ node, node = linkToOffset (s.ctx.pool.free k).head := ⟨_, rfl⟩
  have nodes : nodesOf links k = node :: rest.map linkToOffset := by rw [nodesOf, split, List.map_cons, offset]
  have listed : node ∈ nodesOf links k := by
    rw [nodes]
    exact List.mem_cons_self
  have fewer : rest.map linkToOffset ⊆ nodesOf links k := by
    rw [nodes]
    exact List.subset_cons_self _ _
  have once := layout.lists.once k
  rw [nodes] at once
  obtain ⟨fresh, once⟩ := List.nodup_cons.mp once
  rw [← offset]
  have kept (l : SizeClass) : nodesOf (Function.update links k rest) l ⊆ nodesOf links l := by
    rw [nodesOf_update]
    by_cases same : l = k
    · obtain rfl := same
      rwa [Function.update_self]
    · rw [Function.update_of_ne same]
      exact List.Subset.refl _
  have left (l : SizeClass) : node ∉ nodesOf (Function.update links k rest) l := by
    rw [nodesOf_update]
    by_cases same : l = k
    · obtain rfl := same
      rwa [Function.update_self]
    · rw [Function.update_of_ne same]
      exact fun member => layout.lists.apart k l (Ne.symm same) listed member
  simp only [allocated, MemPool.setFree, if_pos]
  constructor
  case tiled => exact layout.tiled
  case chain =>
    intro l
    by_cases same : l = k
    · obtain rfl := same
      simpa using tail
    · simpa [same] using layout.chain l
  case lists =>
    rw [nodesOf_update]
    apply layout.lists.set once
    intro l differ
    exact fun _ member => layout.lists.apart k l differ (fewer member)
  case takes =>
    intro l other member
    exact layout.takes l other (kept l member)
  case free =>
    intro l other member lives
    rw [List.map_cons] at lives
    cases lives with
    | head => exact left l member
    | tail _ lives => exact layout.free l (kept l member) lives
  case distinct =>
    rw [List.map_cons]
    exact List.nodup_cons.mpr ⟨fun lives => layout.free k listed lives, layout.distinct⟩
  case live =>
    intro b lives
    cases lives with
    | head =>
      refine ⟨small, ?_⟩
      rw [← fits]
      exact layout.takes k node listed
    | tail _ lives => exact layout.live b lives

/-- A new block is carved. -/
theorem carve (layout : Layout s links)
    (grown : (s.ctx.pool.offset + k.size).toNat = s.ctx.pool.offset.toNat + k.size.toNat)
    (small : size.toNat ≤ 2048) (fits : k = .ofLines ((size.toNat + 63) / 64)) :
    Layout (s.allocated { s.ctx with pool := { s.ctx.pool with offset := s.ctx.pool.offset + k.size } } size
      (some s.ctx.pool.offset)) links := by
  have positive := k.size_pos
  have moved : s.ctx.pool.offset + k.size ≠ s.ctx.pool.offset := by
    intro same
    rw [same] at grown
    omega
  -- The new block begins where the others end.
  have beyond (node : MemSize) (l : SizeClass) (takes : Takes s.blocks l node) : node ≠ s.ctx.pool.offset := by
    rintro rfl
    obtain ⟨_, member, -⟩ := takes
    have inside := layout.tiled.inside _ member
    simp only at inside
    omega
  simp only [allocated, if_neg moved, add_sub_cancel_left]
  constructor
  case tiled => exact ⟨positive, grown.symm, layout.tiled⟩
  case chain => exact layout.chain
  case lists => exact layout.lists
  case takes =>
    intro l node member
    exact (layout.takes l node member).more _
  case free =>
    intro l node member lives
    cases lives with
    | head => exact beyond _ l (layout.takes l _ member) rfl
    | tail _ lives => exact layout.free l member lives
  case distinct =>
    refine List.nodup_cons.mpr ⟨fun lives => ?_, layout.distinct⟩
    obtain ⟨b, member, same⟩ := List.mem_map.mp lives
    exact beyond _ _ (layout.live b member).2 same
  case live =>
    intro b lives
    cases lives with
    | head => exact ⟨small, k.size, List.mem_cons_self, by rw [fits]⟩
    | tail _ lives =>
      obtain ⟨small, takes⟩ := layout.live b lives
      exact ⟨small, takes.more _⟩

/-- The link of a block that is given back, and the links of its list then: none, if the link is zero. -/
def returned (pool : MemPool) (k : SizeClass) (addr : MemSize) (links : List MemLink) : List MemLink :=
  let newHead := makeLink ((pool.free k).tag + 1) addr
  if newHead = 0 then [] else newHead :: links

/-- A block is given back to a free list whose nodes it can take. -/
theorem dealloc (layout : Layout s links) (lives : (addr, size) ∈ s.live) (takes : Takes s.blocks k addr) :
    Layout { s with ctx := { s.ctx with pool := s.ctx.pool.deallocBlock k addr }, live := s.live.erase (addr, size) }
      (Function.update links k (returned s.ctx.pool k addr (links k))) := by
  have named : addr ∈ s.live.map Prod.fst := List.mem_map_of_mem lives
  have off (l : SizeClass) : addr ∉ nodesOf links l := fun member => layout.free l member named
  obtain ⟨newHead, made⟩ : ∃ newHead, newHead = makeLink ((s.ctx.pool.free k).tag + 1) addr := ⟨_, rfl⟩
  obtain ⟨new, shape⟩ : ∃ new, new = returned s.ctx.pool k addr (links k) := ⟨_, rfl⟩
  obtain ⟨chain, new_nodes⟩ : Chain (Function.update s.ctx.pool.next addr (s.ctx.pool.free k).head) newHead new ∧
      (new.map linkToOffset).Sublist (addr :: nodesOf links k) := by
    have offset : linkToOffset newHead = addr := by rw [made, linkToOffset_makeLink]
    rw [shape, returned, ← made]
    by_cases zero : newHead = 0
    · -- The tag has come round to zero for the block at zero, and the list is lost.
      rw [zero, if_pos rfl]
      exact ⟨.nil, List.nil_sublist _⟩
    · rw [if_neg zero]
      refine ⟨((layout.chain k).write (off k) _).push zero ?_, ?_⟩
      · rw [offset, Function.update_self]
      · rw [List.map_cons, offset, nodesOf]
  have within (l : SizeClass) (node : MemSize) (member : node ∈ nodesOf (Function.update links k new) l) :
      (l = k ∧ node = addr) ∨ node ∈ nodesOf links l := by
    rw [nodesOf_update] at member
    by_cases same : l = k
    · obtain rfl := same
      rw [Function.update_self] at member
      cases new_nodes.subset member with
      | head => exact .inl ⟨rfl, rfl⟩
      | tail _ member => exact .inr member
    · rw [Function.update_of_ne same] at member
      exact .inr member
  have erased : (s.live.erase (addr, size)).map Prod.fst ⊆ s.live.map Prod.fst :=
    (List.erase_sublist.map Prod.fst).subset
  have gone : addr ∉ (s.live.erase (addr, size)).map Prod.fst := by
    have perm := (List.perm_cons_erase lives).map Prod.fst
    exact (List.nodup_cons.mp (perm.nodup_iff.mp layout.distinct)).1
  rw [← shape]
  simp only [MemPool.deallocBlock, MemStack.push, MemPool.setFree, ← made]
  constructor
  case tiled => exact layout.tiled
  case chain =>
    intro l
    by_cases same : l = k
    · obtain rfl := same
      simpa using chain
    · simpa [same] using (layout.chain l).write (off l) _
  case lists =>
    rw [nodesOf_update]
    apply layout.lists.set
    · exact new_nodes.nodup (List.nodup_cons.mpr ⟨off k, layout.lists.once k⟩)
    · intro l differ node here there
      cases new_nodes.subset here with
      | head => exact off l there
      | tail _ here => exact layout.lists.apart k l differ here there
  case takes =>
    intro l node member
    rcases within l node member with ⟨rfl, rfl⟩ | before
    · exact takes
    · exact layout.takes l node before
  case free =>
    intro l node member lives
    rcases within l node member with ⟨-, rfl⟩ | before
    · exact gone lives
    · exact layout.free l before (erased lives)
  case distinct => exact (List.erase_sublist.map Prod.fst).nodup layout.distinct
  case live =>
    intro b lives
    exact layout.live b (List.mem_of_mem_erase lives)

/-- What the user writes to its blocks leaves the free lists alone. -/
theorem write (layout : Layout s links) (lives : (addr, size) ∈ s.live) (words : MemSize → MemLink) :
    Layout { s with ctx := { s.ctx with pool := s.ctx.pool.write addr size words } } links where
  tiled := layout.tiled
  chain k := by
    apply (layout.chain k).congr
    intro node member
    obtain ⟨nodeSize, listed, -⟩ := layout.takes k node member
    obtain ⟨small, blockSize, block, large⟩ :
      size.toNat ≤ 2048 ∧ Takes s.blocks (.ofLines ((size.toNat + 63) / 64)) addr := layout.live _ lives
    have positive := (layout.tiled.inside _ listed).1
    have lines : 64 * ((size.toNat + 63) / 64) ≤ _ := SizeClass.lines_le_size (by omega)
    have differ : node ≠ addr := by
      rintro rfl
      exact layout.free k member (List.mem_map_of_mem lives)
    apply if_neg
    rintro ⟨above, below⟩
    rw [UInt32.le_iff_toNat_le] at above
    rcases layout.tiled.apart _ listed _ block with same | apart
    · exact differ (congrArg Prod.fst same)
    · simp only at positive apart
      omega
  lists := layout.lists
  takes := layout.takes
  free := layout.free
  distinct := layout.distinct
  live := layout.live

theorem inv (layout : Layout s links) (room : s.ctx.maxSize.toNat + 2048 < 2 ^ 32)
    (bounded : s.ctx.pool.offset.toNat ≤ s.ctx.maxSize.toNat) : Inv s links :=
  ⟨room, bounded, layout.tiled, layout.chain, layout.lists, layout.takes, layout.free, layout.distinct, layout.live⟩

end Layout

namespace Inv

variable {s t : MemClient} {links : SizeClass → List MemLink} {k : SizeClass} {addr : MemSize} {size : UInt64}

theorem make {maxSize : UInt64} (room : maxSize.toNat + 2048 < 2 ^ 32) : Inv (make maxSize) fun _ => [] :=
  (Layout.make maxSize).inv room (Nat.zero_le _)

theorem layout (inv : Inv s links) : Layout s links :=
  ⟨inv.tiled, inv.chain, inv.lists, inv.takes, inv.free, inv.distinct, inv.live⟩

/-- A block of a free list is handed out. -/
theorem pop (inv : Inv s links) (used : (s.ctx.pool.free k).head ≠ 0) {stack : MemStack}
    (head : stack.head = s.ctx.pool.next (linkToOffset (s.ctx.pool.free k).head)) {size : UInt64}
    (small : size.toNat ≤ 2048) (fits : k = .ofLines ((size.toNat + 63) / 64)) :
    ∃ links, Inv (s.allocated { s.ctx with pool := s.ctx.pool.setFree k stack } size
      (some (linkToOffset (s.ctx.pool.free k).head))) links := by
  obtain ⟨rest, split, tail⟩ := (inv.chain k).of_ne used
  rw [← head] at tail
  exact ⟨_, (inv.layout.pop split tail small fits).inv inv.room inv.bounded⟩

/-- A new block is carved. -/
theorem carve (inv : Inv s links) (room : s.ctx.pool.offset + k.size ≤ s.ctx.maxSize.toUInt32)
    (small : size.toNat ≤ 2048) (fits : k = .ofLines ((size.toNat + 63) / 64)) :
    Inv (s.allocated { s.ctx with pool := { s.ctx.pool with offset := s.ctx.pool.offset + k.size } } size
      (some s.ctx.pool.offset)) links := by
  have roomy := inv.room
  have bounded := inv.bounded
  have most := k.size_le
  have grown : (s.ctx.pool.offset + k.size).toNat = s.ctx.pool.offset.toNat + k.size.toNat := by
    rw [UInt32.toNat_add]
    exact Nat.mod_eq_of_lt (by omega)
  have narrow : s.ctx.maxSize.toUInt32.toNat = s.ctx.maxSize.toNat := by
    rw [UInt64.toNat_toUInt32]
    exact Nat.mod_eq_of_lt (by omega)
  rw [UInt32.le_iff_toNat_le, narrow] at room
  exact (inv.layout.carve grown small fits).inv roomy room

theorem alloc (inv : Inv s links) (modest : size.toNat ≤ 2 ^ 37) :
    ∃ t links, s.step (.alloc size) = some t ∧ Inv t links := by
  by_cases small : size.toNat ≤ 2048
  · have allocs := MemPool.allocBlock_cases s.ctx.pool (.ofLines ((size.toNat + 63) / 64)) s.ctx.maxSize.toUInt32
    simp only [step, MemCtx.alloc_small s.ctx small, Option.map_some]
    generalize s.ctx.pool.allocBlock (.ofLines ((size.toNat + 63) / 64)) s.ctx.maxSize.toUInt32 = result at allocs
    obtain ⟨pool, addr⟩ := result
    cases allocs with
    | popped used head =>
      obtain ⟨links, popped⟩ := inv.pop used head small rfl
      exact ⟨_, links, rfl, popped⟩
    | carved _ room => exact ⟨_, links, rfl, inv.carve room small rfl⟩
    | full => exact ⟨_, links, rfl, inv⟩
  · refine ⟨s, links, ?_, inv⟩
    simp only [step, MemCtx.alloc_large s.ctx (by omega) modest, Option.map_some, allocated]

/-- A block is given back to the free list for its size, rounded down. -/
theorem dealloc (inv : Inv s links) (lives : (addr, size) ∈ s.live) :
    ∃ t links, s.step (.dealloc addr size) = some t ∧ Inv t links := by
  obtain ⟨small, takes⟩ := inv.live _ lives
  have takes : Takes s.blocks (.ofLines (size.toNat / 64)) addr :=
    takes.smaller (SizeClass.size_mono (Nat.div_le_div_right (Nat.le_add_right _ _)))
  simp only [step, if_pos lives, MemCtx.dealloc_small s.ctx small, Option.map_some]
  exact ⟨_, _, rfl, (inv.layout.dealloc lives takes).inv inv.room inv.bounded⟩

/-- What the user writes to its blocks leaves the free lists alone. -/
theorem write (inv : Inv s links) (lives : (addr, size) ∈ s.live) (words : MemSize → MemLink) :
    Inv { s with ctx := { s.ctx with pool := s.ctx.pool.write addr size words } } links :=
  (inv.layout.write lives words).inv inv.room inv.bounded

theorem step (inv : Inv s links) {op : Op} (modest : ∀ size, op = .alloc size → size.toNat ≤ 2 ^ 37)
    (stepped : s.step op = some t) : ∃ links, Inv t links := by
  cases op with
  | alloc size =>
    obtain ⟨u, links, done, inv⟩ := inv.alloc (modest size rfl)
    obtain rfl : u = t := Option.some.inj (done.symm.trans stepped)
    exact ⟨links, inv⟩
  | dealloc addr size =>
    simp only [MemClient.step] at stepped
    split at stepped
    next lives =>
      obtain ⟨u, links, done, inv⟩ := inv.dealloc lives
      rw [MemClient.step, if_pos lives] at done
      obtain rfl : u = t := Option.some.inj (done.symm.trans stepped)
      exact ⟨links, inv⟩
    next => cases stepped
  | write addr size words =>
    simp only [MemClient.step] at stepped
    split at stepped
    next lives =>
      cases stepped
      exact ⟨links, inv.write lives words⟩
    next => cases stepped

end Inv

/-- An operation asks for no more than the roundings and the shift can bear. -/
def Op.Modest : Op → Prop
  | .alloc size => size.toNat ≤ 2 ^ 37
  | _ => True

instance : DecidablePred Op.Modest
  | .alloc size => inferInstanceAs (Decidable (size.toNat ≤ 2 ^ 37))
  | .dealloc _ _ | .write _ _ _ => inferInstanceAs (Decidable True)

/-- The blocks of the user do not overlap and are large enough, and the free lists have other blocks, large enough for
their nodes. -/
structure Sound (s : MemClient) : Prop where
  inside : ∀ b ∈ s.live, b.1.toNat + s.capacity b.1 ≤ s.ctx.maxSize.toNat
  large : ∀ b ∈ s.live, b.2.toNat ≤ s.capacity b.1
  apart : s.live.Pairwise fun b c => b.1 ≠ c.1 ∧
    (b.1.toNat + s.capacity b.1 ≤ c.1.toNat ∨ c.1.toNat + s.capacity c.1 ≤ b.1.toNat)
  free : ∀ k, ∃ links, Chain s.ctx.pool.next (s.ctx.pool.free k).head links ∧
    ∀ node ∈ links.map linkToOffset, k.size.toNat ≤ s.capacity node ∧ ∀ b ∈ s.live, b.1 ≠ node
  returns : ∀ b ∈ s.live, (s.ctx.dealloc b.1 b.2).isSome

/-- A call of `alloc` returns or throws, and it throws for a size that no block has and leaves the context as it was. -/
structure Allocates (ctx : MemCtx) : Prop where
  returns : ∀ size : UInt64, size.toNat ≤ 2 ^ 37 → (ctx.alloc size).isSome
  large : ∀ size : UInt64, 2048 < size.toNat → size.toNat ≤ 2 ^ 37 → ctx.alloc size = some (ctx, none)
  failed : ∀ size ctx', ctx.alloc size = some (ctx', none) → ctx' = ctx

theorem allocates (ctx : MemCtx) : Allocates ctx where
  returns size modest := by
    by_cases small : size.toNat ≤ 2048
    · rw [ctx.alloc_small small]
      rfl
    · rw [ctx.alloc_large (by omega) modest]
      rfl
  large size above modest := ctx.alloc_large above modest
  failed size ctx' failed := by
    rw [MemCtx.alloc, Option.map_eq_some_iff] at failed
    obtain ⟨pow2, -, failed⟩ := failed
    split at failed
    next =>
      cases failed
      rfl
    next k _ =>
      have allocs := MemPool.allocBlock_cases ctx.pool k ctx.maxSize.toUInt32
      generalize ctx.pool.allocBlock k ctx.maxSize.toUInt32 = result at allocs failed
      obtain ⟨pool, addr⟩ := result
      cases failed
      cases allocs with
      | full => rfl

theorem Inv.sound {s : MemClient} {links : SizeClass → List MemLink} (inv : Inv s links) : s.Sound := by
  have capacity {addr size : MemSize} (member : (addr, size) ∈ s.blocks) : s.capacity addr = size.toNat := by
    rw [MemClient.capacity, inv.tiled.lookup member]
    rfl
  constructor
  case inside =>
    intro b lives
    obtain ⟨-, size, member, -⟩ := inv.live b lives
    have inside := (inv.tiled.inside _ member).2
    have bounded := inv.bounded
    rw [capacity member]
    simp only at inside
    omega
  case large =>
    intro b lives
    obtain ⟨small, size, member, large⟩ := inv.live b lives
    have lines : 64 * ((b.2.toNat + 63) / 64) ≤ _ := SizeClass.lines_le_size (by omega)
    rw [capacity member]
    omega
  case apart =>
    have differ := List.pairwise_map.mp inv.distinct
    apply differ.imp_of_mem
    intro b c here there differ
    obtain ⟨-, size, member, -⟩ := inv.live b here
    obtain ⟨-, size', member', -⟩ := inv.live c there
    refine ⟨differ, ?_⟩
    rw [capacity member, capacity member']
    rcases inv.tiled.apart _ member _ member' with same | apart
    · exact absurd (congrArg Prod.fst same) differ
    · exact apart
  case free =>
    intro k
    refine ⟨links k, inv.chain k, fun node member => ⟨?_, ?_⟩⟩
    · obtain ⟨size, block, large⟩ := inv.takes k node member
      rw [capacity block]
      exact large
    · rintro b lives rfl
      exact inv.free k member (List.mem_map_of_mem lives)
  case returns =>
    intro b lives
    rw [s.ctx.dealloc_small (inv.live b lives).1]
    rfl

/-- The memory is handed out soundly in every run that asks for no more than `2 ^ 37` bytes at once. -/
theorem run_sound {maxSize : UInt64} {ops : List Op} {s : MemClient}
    (whole : ∃ n < 4096, maxSize.toNat = n * 2 ^ 20) (run : Run step (fun _ op => op.Modest) (make maxSize) ops s) :
    s.Sound ∧ Allocates s.ctx := by
  obtain ⟨n, small, size⟩ := whole
  have kept : ∃ links, Inv s links := by
    apply run.invariant (I := fun s => ∃ links, Inv s links)
    · intro t op u kept modest stepped
      obtain ⟨links, inv⟩ := kept
      apply inv.step _ stepped
      rintro size rfl
      exact modest
    · exact ⟨_, .make (by omega)⟩
  obtain ⟨links, inv⟩ := kept
  exact ⟨inv.sound, allocates s.ctx⟩

/-- A megabyte, from which two blocks are taken, given back and taken again for other sizes. -/
theorem run_sound_recycled :
    ∃ s : MemClient, s.live = [(320, 2048), (64, 64), (192, 100)] ∧ s.Sound ∧ Allocates s.ctx := by
  have made : ∃ s ∈ Run.exec step (fun _ op => op.Modest) (make (2 ^ 20))
      [.alloc 10, .alloc 70, .dealloc 0 10, .dealloc 64 70, .alloc 100, .alloc 64, .alloc 3000, .alloc 2048],
      s.live = [(320, 2048), (64, 64), (192, 100)] := by
    decide +kernel
  obtain ⟨s, done, live⟩ := made
  exact ⟨s, live, run_sound ⟨1, by decide, by decide +kernel⟩ (Run.of_exec done)⟩

/-- The size is rounded up to nothing, and a block of one cache line is handed out for it. -/
theorem sound_wrapped : ¬ ∀ ops s, Run step (fun _ _ => True) (make (2 ^ 20)) ops s → s.Sound := by
  intro sound
  have made : ∃ s ∈ Run.exec step (fun _ _ => True) (make (2 ^ 20)) [.alloc (2 ^ 64 - 1)],
      s.live = [(0, 2 ^ 64 - 1)] ∧ s.capacity 0 = 64 := by
    decide +kernel
  obtain ⟨s, done, live, capacity⟩ := made
  have large := (sound _ s (Run.of_exec done)).large (0, 2 ^ 64 - 1) (by simp [live])
  have huge : (2 ^ 64 - 1 : UInt64).toNat = 2 ^ 64 - 1 := by decide +kernel
  rw [capacity, huge] at large
  omega

end MemClient

end Swirly
