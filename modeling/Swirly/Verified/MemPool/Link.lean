import Mathlib
import Swirly.App.MemPool
import Swirly.Lib.FreeList

/-!
# Links of free lists

A link is a tag and an offset, and both can be read back from it.  The chain of a free list goes from link to link, through
the first words of the blocks, and ends at a zero word.
-/

namespace Swirly

/-- The tag of a link. -/
def linkToTag (link : MemLink) : Nat := link.toNat / 2 ^ 32

theorem toNat_makeLink (tag : MemTag) (offset : MemSize) : (makeLink tag offset).toNat = tag.toNat * 2 ^ 32 + offset.toNat := by
  have small := tag.toNat_lt
  have fits := offset.toNat_lt
  have shifted : tag.toNat <<< 32 % 2 ^ 64 = tag.toNat <<< 32 := by
    rw [Nat.shiftLeft_eq]
    omega
  have joined : tag.toNat <<< 32 + offset.toNat = tag.toNat <<< 32 ||| offset.toNat := Nat.shiftLeft_add_eq_or_of_lt fits _
  simp only [makeLink, UInt64.toNat_or, UInt64.toNat_shiftLeft, UInt32.toNat_toUInt64]
  rw [show (32 : UInt64).toNat % 64 = 32 from rfl, shifted, ← joined, Nat.shiftLeft_eq]

theorem toNat_linkToOffset (link : MemLink) : (linkToOffset link).toNat = link.toNat % 2 ^ 32 := by
  have masked : link.toNat &&& (2 ^ 32 - 1) = link.toNat % 2 ^ 32 := Nat.and_two_pow_sub_one_eq_mod _ 32
  simp only [linkToOffset, UInt64.toNat_toUInt32, UInt64.toNat_and]
  rw [show (0xffffffff : UInt64).toNat = 2 ^ 32 - 1 from rfl, masked, Nat.mod_mod]

@[simp] theorem linkToOffset_makeLink (tag : MemTag) (offset : MemSize) : linkToOffset (makeLink tag offset) = offset := by
  have fits := offset.toNat_lt
  apply UInt32.toNat_inj.mp
  rw [toNat_linkToOffset, toNat_makeLink]
  omega

@[simp] theorem linkToTag_makeLink (tag : MemTag) (offset : MemSize) : linkToTag (makeLink tag offset) = tag.toNat := by
  have fits := offset.toNat_lt
  rw [linkToTag, toNat_makeLink]
  omega

theorem ne_zero_of_tag {link : MemLink} (tagged : 0 < linkToTag link) : link ≠ 0 := by
  rintro rfl
  exact absurd tagged (by decide)

/-- The block that a word leads to. -/
def target (word : MemLink) : Option MemLink := if word = 0 then none else some word

@[simp] theorem target_zero : target 0 = none := rfl

@[simp] theorem target_of_ne {word : MemLink} (used : word ≠ 0) : target word = some word := if_neg used

/-- The word in the block of a link. -/
def follow (next : MemSize → MemLink) (link : MemLink) : Option (Option MemLink) := some (target (next (linkToOffset link)))

/-- The links from the head of a free list to its end. -/
def Chain (next : MemSize → MemLink) (head : MemLink) (links : List MemLink) : Prop := Linked (follow next) (target head) links

namespace Chain

variable {next : MemSize → MemLink} {head : MemLink} {links : List MemLink} {node : MemSize}

theorem nil : Chain next 0 [] := Linked.nil

theorem of_ne (chain : Chain next head links) (used : head ≠ 0) :
    ∃ rest, links = head :: rest ∧ Chain next (next (linkToOffset head)) rest := by
  rw [Chain, target_of_ne used] at chain
  obtain ⟨_, rest, link, rfl, tail⟩ := chain.of_some
  cases link
  exact ⟨rest, rfl, tail⟩

/-- The chain depends on the words of its blocks only. -/
theorem congr (chain : Chain next head links) {next' : MemSize → MemLink}
    (same : ∀ node ∈ links.map linkToOffset, next' node = next node) : Chain next' head links := by
  apply Linked.congr chain
  intro link member
  rw [follow, follow, same _ (List.mem_map_of_mem member)]

/-- A word outside the list is written. -/
theorem write (chain : Chain next head links) (off : node ∉ links.map linkToOffset) (word : MemLink) :
    Chain (Function.update next node word) head links := by
  apply chain.congr
  intro other member
  apply Function.update_of_ne
  rintro rfl
  exact off member

theorem push (chain : Chain next head links) {newHead : MemLink} (used : newHead ≠ 0)
    (stored : next (linkToOffset newHead) = head) : Chain next newHead (newHead :: links) := by
  rw [Chain, target_of_ne used]
  have link : follow next newHead = some (target head) := by simp [follow, stored]
  exact .cons link chain

end Chain

end Swirly
