import Swirly.Util.RingBuffer

/-!
# The next power of two

The shift of `next_pow2` has the width of an `int`, which is wide enough for an `unsigned`, and for an `unsigned long` up to
`2 ^ 30`.
-/

namespace Swirly

/-- The least power of two that is not less than a number. -/
def LeastPow2 (n p : Nat) : Prop := IsLeast {q | n ≤ q ∧ ∃ k, q = 2 ^ k} p

theorem leastPow2_one : LeastPow2 1 1 :=
  ⟨⟨le_rfl, 0, rfl⟩, fun _ above => above.1⟩

/-- The number of bits of the number before. -/
theorem leastPow2_log2 {n : Nat} (more : 1 < n) : LeastPow2 n (2 ^ ((n - 1).log2 + 1)) := by
  have below : 2 ^ (n - 1).log2 ≤ n - 1 := Nat.log2_self_le (by omega)
  have above : n - 1 < 2 ^ ((n - 1).log2 + 1) := Nat.lt_log2_self
  refine ⟨⟨by omega, _, rfl⟩, ?_⟩
  rintro q ⟨enough, k, rfl⟩
  have fewer : (n - 1).log2 < k := (Nat.pow_lt_pow_iff_right (by decide)).mp (show 2 ^ (n - 1).log2 < 2 ^ k by omega)
  exact Nat.pow_le_pow_right (by decide) fewer

theorem toNat_pred64 {n : UInt64} (more : 1 < n.toNat) : (n - 1).toNat = n.toNat - 1 := by
  apply UInt64.toNat_sub_of_le
  rw [UInt64.le_iff_toNat_le]
  exact more.le

theorem toNat_pred32 {n : UInt32} (more : 1 < n.toNat) : (n - 1).toNat = n.toNat - 1 := by
  apply UInt32.toNat_sub_of_le
  rw [UInt32.le_iff_toNat_le]
  exact more.le

/-- Up to `2 ^ 31` the shift of an `unsigned` is in range. -/
theorem nextPow2Unsigned_least {n : UInt32} (positive : 1 ≤ n.toNat) (bounded : n.toNat ≤ 2 ^ 31) :
    ∃ p, nextPow2Unsigned n = some p ∧ LeastPow2 n.toNat p.toNat := by
  rw [nextPow2Unsigned]
  by_cases one : n ≤ 1
  · have value : n.toNat = 1 := le_antisymm (UInt32.le_iff_toNat_le.mp one) positive
    rw [if_pos one, value]
    exact ⟨1, rfl, leastPow2_one⟩
  · have more : 1 < n.toNat := by
      rw [UInt32.le_iff_toNat_le] at one
      exact not_le.mp one
    have pred := toNat_pred32 more
    have short : (n - 1).toNat.log2 < 31 := (Nat.log2_lt (by omega)).mpr (by omega)
    obtain ⟨bits, count⟩ : ∃ bits, bits = (n - 1).toNat.log2 + 1 := ⟨_, rfl⟩
    rw [if_neg one]
    simp only [← count]
    refine ⟨_, if_pos (by omega), ?_⟩
    have power : (1 <<< UInt32.ofNat bits : UInt32).toNat = 2 ^ bits := by
      have wide : bits % 2 ^ 32 % 32 = bits := by omega
      have fits : 2 ^ bits < 2 ^ 32 := Nat.pow_lt_pow_right (by omega) (by omega)
      have unit : (1 : UInt32).toNat = 1 := rfl
      rw [UInt32.toNat_shiftLeft, UInt32.toNat_ofNat', wide, unit, Nat.one_shiftLeft, Nat.mod_eq_of_lt fits]
    rw [power, count, pred]
    exact leastPow2_log2 more

namespace MemCtx

/-- A shift by less than 31 gives the power. -/
theorem nextPow2_least {n : UInt64} (positive : 1 ≤ n.toNat) (bounded : n.toNat ≤ 2 ^ 30) :
    ∃ p, nextPow2 n = some p ∧ LeastPow2 n.toNat p.toNat := by
  rw [nextPow2]
  by_cases one : n ≤ 1
  · have value : n.toNat = 1 := le_antisymm (UInt64.le_iff_toNat_le.mp one) positive
    rw [if_pos one, value]
    exact ⟨1, rfl, leastPow2_one⟩
  · have more : 1 < n.toNat := by
      rw [UInt64.le_iff_toNat_le] at one
      exact not_le.mp one
    have pred := toNat_pred64 more
    have short : (n - 1).toNat.log2 < 30 := (Nat.log2_lt (by omega)).mpr (by omega)
    obtain ⟨bits, count⟩ : ∃ bits, bits = (n - 1).toNat.log2 + 1 := ⟨_, rfl⟩
    rw [if_neg one]
    simp only [← count]
    refine ⟨_, if_pos (by omega), ?_⟩
    have power : (1 <<< UInt64.ofNat bits : UInt64).toNat = 2 ^ bits := by
      have wide : bits % 2 ^ 64 % 64 = bits := by omega
      have fits : 2 ^ bits < 2 ^ 64 := Nat.pow_lt_pow_right (by omega) (by omega)
      have unit : (1 : UInt64).toNat = 1 := rfl
      rw [UInt64.toNat_shiftLeft, UInt64.toNat_ofNat', wide, unit, Nat.one_shiftLeft, Nat.mod_eq_of_lt fits]
    rw [power, count, pred]
    exact leastPow2_log2 more

/-- Beyond, the sign of the `int` is extended, or the shift has no result. -/
theorem nextPow2_beyond {n : UInt64} (beyond : 2 ^ 30 < n.toNat) :
    (n.toNat ≤ 2 ^ 31 ∧ nextPow2 n = some 0xffffffff80000000) ∨ nextPow2 n = none := by
  have several : ¬ n ≤ 1 := by
    rw [UInt64.le_iff_toNat_le]
    exact not_le.mpr (lt_trans (by decide) beyond)
  have pred := toNat_pred64 (lt_trans (by decide) beyond)
  have long : 30 ≤ (n - 1).toNat.log2 := (Nat.le_log2 (by omega)).mpr (by omega)
  rw [nextPow2, if_neg several]
  obtain ⟨bits, count⟩ : ∃ bits, bits = (n - 1).toNat.log2 + 1 := ⟨_, rfl⟩
  simp only [← count]
  rw [if_neg (by omega)]
  by_cases last : bits = 31
  · have short : (n - 1).toNat < 2 ^ 31 := (Nat.log2_lt (by omega)).mp (by omega)
    exact .inl ⟨by omega, if_pos last⟩
  · exact .inr (if_neg last)

end MemCtx

/-- It is no power of two. -/
theorem extended_ne_pow (k : Nat) : (0xffffffff80000000 : UInt64).toNat ≠ 2 ^ k := by
  intro same
  have value : (0xffffffff80000000 : UInt64).toNat = 2 ^ 64 - 2 ^ 31 := by decide +kernel
  rw [value] at same
  have above : 63 < k := (Nat.pow_lt_pow_iff_right (by decide : 1 < 2)).mp (by omega)
  have below : k < 64 := (Nat.pow_lt_pow_iff_right (by decide : 1 < 2)).mp (by omega)
  omega

/-- What is asked for has room, and the mask of a position is its remainder. -/
structure RingSize.Sized (ring : RingSize) (asked : UInt64) : Prop where
  enough : asked ≤ ring.capacity
  masked : ∀ pos, ring.index pos = pos % ring.capacity

namespace RingSize

theorem sized_of_least {asked capacity : UInt64} (least : LeastPow2 asked.toNat capacity.toNat) :
    Sized { capacity, mask := capacity - 1 } asked where
  enough := UInt64.le_iff_toNat_le.mpr least.1.1
  masked pos := by
    obtain ⟨⟨-, k, power⟩, -⟩ := least
    have one : (1 : UInt64) ≤ capacity := by
      rw [UInt64.le_iff_toNat_le, power]
      exact Nat.one_le_two_pow
    apply UInt64.toNat_inj.mp
    rw [index, UInt64.toNat_and, UInt64.toNat_sub_of_le _ _ one, UInt64.toNat_mod, power]
    exact Nat.and_two_pow_sub_one_eq_mod _ _

/-- A ring is right up to `2 ^ 30`, and beyond a mask takes the position `2 ^ 31` to another element. -/
theorem make_sized_iff {asked : UInt64} (positive : 1 ≤ asked.toNat) :
    (∃ ring, make asked = some ring ∧ ring.Sized asked) ↔ asked.toNat ≤ 2 ^ 30 := by
  constructor
  · rintro ⟨ring, made, sized⟩
    by_contra beyond
    obtain ⟨-, extended⟩ | undefined := MemCtx.nextPow2_beyond (not_le.mp beyond)
    · rw [make, extended] at made
      cases made
      have masked := sized.masked 0x80000000
      revert masked
      decide +kernel
    · rw [make, undefined] at made
      cases made
  · intro bounded
    obtain ⟨p, power, least⟩ := MemCtx.nextPow2_least positive bounded
    exact ⟨_, by rw [make, power]; rfl, sized_of_least least⟩

end RingSize

/-- The power that an `unsigned long` is rounded up to is the least one as long as it is at most `2 ^ 30`, and so are the sizes
of rings; the power for an `unsigned` always is. -/
theorem nextPow2_least_iff (n : UInt64) (m : UInt32) :
    (1 ≤ n.toNat → n.toNat ≤ 2 ^ 63 →
      ((∃ p, MemCtx.nextPow2 n = some p ∧ LeastPow2 n.toNat p.toNat) ↔ n.toNat ≤ 2 ^ 30) ∧
      ((∃ ring, MemQueue.ring n = some ring ∧ ring.Sized n) ↔ n.toNat ≤ 2 ^ 30) ∧
      ((∃ ring, RingBuffer.ring n = some ring ∧ ring.Sized n) ↔ n.toNat ≤ 2 ^ 30)) ∧
    (1 ≤ m.toNat → m.toNat ≤ 2 ^ 31 → ∃ p, nextPow2Unsigned m = some p ∧ LeastPow2 m.toNat p.toNat) := by
  constructor
  · intro positive _
    have rings := RingSize.make_sized_iff positive
    constructor
    · constructor
      · rintro ⟨p, power, ⟨-, k, exact_⟩, -⟩
        by_contra beyond
        obtain ⟨-, extended⟩ | undefined := MemCtx.nextPow2_beyond (not_le.mp beyond)
        · rw [extended] at power
          cases power
          exact extended_ne_pow k exact_
        · rw [undefined] at power
          cases power
      · exact MemCtx.nextPow2_least positive
    · exact ⟨rings, rings⟩
  · exact nextPow2Unsigned_least

/-- The greatest sizes that are rounded up as they should. -/
theorem nextPow2_least_largest :
    (∃ p, MemCtx.nextPow2 (2 ^ 30) = some p ∧ LeastPow2 (2 ^ 30) p.toNat) ∧
    ∃ p, nextPow2Unsigned (2 ^ 31) = some p ∧ LeastPow2 (2 ^ 31) p.toNat := by
  have sizes : (2 ^ 30 : UInt64).toNat = 2 ^ 30 ∧ (2 ^ 31 : UInt32).toNat = 2 ^ 31 := by decide +kernel
  obtain ⟨long, short⟩ := nextPow2_least_iff (2 ^ 30) (2 ^ 31)
  rw [sizes.1] at long
  rw [sizes.2] at short
  exact ⟨(long (by decide) (by decide)).1.mpr le_rfl, short (by decide) le_rfl⟩

/-- A gigabyte and one. -/
theorem gigabyte_extended : ¬ ∀ n : UInt64, 1 ≤ n.toNat → n.toNat ≤ 2 ^ 63 →
    ∃ p, MemCtx.nextPow2 n = some p ∧ LeastPow2 n.toNat p.toNat := by
  intro all
  obtain ⟨p, power, ⟨-, k, exact_⟩, -⟩ := all (2 ^ 30 + 1) (by decide +kernel) (by decide +kernel)
  have extended : MemCtx.nextPow2 (2 ^ 30 + 1) = some 0xffffffff80000000 := by decide +kernel
  rw [extended] at power
  cases power
  exact extended_ne_pow k exact_

end Swirly
