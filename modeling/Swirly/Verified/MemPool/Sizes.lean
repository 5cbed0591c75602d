import Mathlib
import Swirly.App.MemCtx

/-!
# Size classes

The free list for a number of cache lines, and what `alloc` and `dealloc` do with it: `alloc` rounds the size up, `dealloc`
rounds it down, and the free lists are in order of size.
-/

namespace Swirly

namespace SizeClass

/-- The free list for a number of cache lines up to 32. -/
def ofLines (n : Nat) : SizeClass :=
  if n ≤ 1 then free1
  else if n ≤ 2 then free2
  else if n ≤ 3 then free3
  else if n ≤ 4 then free4
  else if n ≤ 8 then free8
  else if n ≤ 16 then free16
  else free32

/-- The sizes of the free lists, as numbers. -/
theorem toNat_size_ofLines (n : Nat) : (ofLines n).size.toNat =
    if n ≤ 1 then 64 else if n ≤ 2 then 128 else if n ≤ 3 then 192 else if n ≤ 4 then 256 else if n ≤ 8 then 512
    else if n ≤ 16 then 1024 else 2048 := by
  rw [ofLines]
  split_ifs <;> rfl

theorem size_mono {m n : Nat} (le : m ≤ n) : (ofLines m).size.toNat ≤ (ofLines n).size.toNat := by
  rw [toNat_size_ofLines, toNat_size_ofLines]
  split_ifs <;> omega

/-- The lines fit into the blocks of their free list. -/
theorem lines_le_size {n : Nat} (small : n ≤ 32) : 64 * n ≤ (ofLines n).size.toNat := by
  rw [toNat_size_ofLines]
  split_ifs <;> omega

theorem size_le (k : SizeClass) : k.size.toNat ≤ 2048 := by cases k <;> decide

theorem size_pos (k : SizeClass) : 0 < k.size.toNat := by cases k <;> decide

end SizeClass

namespace MemCtx

/-- Up to 32 cache lines have a free list. -/
theorem nextPow2_small {lines : UInt64} (small : lines.toNat ≤ 32) :
    ∃ pow2, nextPow2 lines = some pow2 ∧ switch lines pow2 = some (.ofLines lines.toNat) := by
  obtain ⟨n, number⟩ : ∃ n, n = lines.toNat := ⟨_, rfl⟩
  obtain rfl : lines = UInt64.ofNat n := by rw [number, UInt64.ofNat_toNat]
  rw [← number] at small ⊢
  interval_cases n <;> exact ⟨_, rfl, rfl⟩

/-- No case of the switch is greater than 32. -/
theorem switch_large {pow2 : UInt64} (above : 32 < pow2.toNat) (lines : UInt64) : switch lines pow2 = none := by
  have other (c : UInt64) (small : c.toNat ≤ 32) : pow2 ≠ c := by
    rintro rfl
    omega
  simp [switch, other 1, other 2, other 4, other 8, other 16, other 32]

/-- A number of more cache lines is rounded up to a greater power, while the shift is in range. -/
theorem nextPow2_large {lines : UInt64} (above : 32 < lines.toNat) (below : lines.toNat ≤ 2 ^ 31) :
    ∃ pow2, nextPow2 lines = some pow2 ∧ 32 < pow2.toNat := by
  have one : (1 : UInt64).toNat = 1 := rfl
  have beyond : ¬ lines ≤ 1 := by
    rw [UInt64.le_iff_toNat_le]
    omega
  have pred : (lines - 1).toNat = lines.toNat - 1 := by
    apply UInt64.toNat_sub_of_le
    rw [UInt64.le_iff_toNat_le]
    omega
  have least : 5 ≤ (lines - 1).toNat.log2 := (Nat.le_log2 (by omega)).mpr (by omega)
  have most : (lines - 1).toNat.log2 < 31 := (Nat.log2_lt (by omega)).mpr (by omega)
  rw [nextPow2, if_neg beyond]
  obtain ⟨bits, shift⟩ : ∃ bits, bits = (lines - 1).toNat.log2 + 1 := ⟨_, rfl⟩
  simp only [← shift]
  by_cases inRange : bits < 31
  · refine ⟨_, if_pos inRange, ?_⟩
    have power : (1 <<< UInt64.ofNat bits : UInt64).toNat = 2 ^ bits := by
      have wide : bits % 2 ^ 64 % 64 = bits := by omega
      have fits : 2 ^ bits < 2 ^ 64 := Nat.pow_lt_pow_right (by omega) (by omega)
      rw [UInt64.toNat_shiftLeft, UInt64.toNat_ofNat', wide, one, Nat.one_shiftLeft, Nat.mod_eq_of_lt fits]
    rw [power]
    exact lt_of_lt_of_le (by decide) (Nat.pow_le_pow_right (by omega) (show 6 ≤ bits by omega))
  · refine ⟨0xffffffff80000000, ?_, by decide⟩
    rw [if_neg inRange, if_pos (by omega)]

/-- The size in cache lines, rounded up. -/
theorem toNat_roundUp {size : UInt64} (modest : size.toNat ≤ 2 ^ 37) :
    ((size + 63) >>> 6).toNat = (size.toNat + 63) / 64 := by
  rw [UInt64.toNat_shiftRight, UInt64.toNat_add, Nat.shiftRight_eq_div_pow]
  rw [show (63 : UInt64).toNat = 63 from rfl, show (6 : UInt64).toNat % 64 = 6 from rfl]
  omega

/-- The size in cache lines, rounded down. -/
theorem toNat_roundDown (size : UInt64) : (size >>> 6).toNat = size.toNat / 64 := by
  rw [UInt64.toNat_shiftRight, Nat.shiftRight_eq_div_pow]
  rfl

variable (ctx : MemCtx)

theorem alloc_small {size : UInt64} (small : size.toNat ≤ 2048) :
    ctx.alloc size = some
      ({ ctx with pool := (ctx.pool.allocBlock (.ofLines ((size.toNat + 63) / 64)) ctx.maxSize.toUInt32).1 },
        (ctx.pool.allocBlock (.ofLines ((size.toNat + 63) / 64)) ctx.maxSize.toUInt32).2) := by
  have lines : ((size + 63) >>> 6).toNat = (size.toNat + 63) / 64 := toNat_roundUp (by omega)
  have small : ((size + 63) >>> 6).toNat ≤ 32 := by omega
  obtain ⟨pow2, pow, list⟩ := nextPow2_small small
  rw [lines] at list
  simp only [alloc, pow, Option.map_some, list]

/-- A greater size throws, while it can be rounded up. -/
theorem alloc_large {size : UInt64} (above : 2048 < size.toNat) (modest : size.toNat ≤ 2 ^ 37) :
    ctx.alloc size = some (ctx, none) := by
  have lines := toNat_roundUp modest
  have below : ((size + 63) >>> 6).toNat ≤ 2 ^ 31 := by omega
  obtain ⟨pow2, pow, beyond⟩ := nextPow2_large (by omega) below
  simp only [alloc, pow, Option.map_some, switch_large beyond]

theorem dealloc_small {size : UInt64} (small : size.toNat ≤ 2048) (addr : MemSize) :
    ctx.dealloc addr size = some { ctx with pool := ctx.pool.deallocBlock (.ofLines (size.toNat / 64)) addr } := by
  have lines := toNat_roundDown size
  have small : (size >>> 6).toNat ≤ 32 := by omega
  obtain ⟨pow2, pow, list⟩ := nextPow2_small small
  rw [lines] at list
  simp only [dealloc, pow, Option.bind_some, list, Option.map_some]

end MemCtx

end Swirly
