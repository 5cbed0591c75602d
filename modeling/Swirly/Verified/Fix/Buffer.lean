import Mathlib
import Swirly.Sys.Buffer

/-!
# Buffers as queues of bytes

The unread bytes are all that a reader can see: room that is prepared does not change them, a commit appends the bytes
written there, and consumption drops from the front, whether or not the bytes are moved.
-/

namespace Swirly

section Overwrite

variable {buf new : Bytes} {pos : Nat}

theorem length_overwrite (fits : pos + new.length ≤ buf.length) : (overwrite buf pos new).length = buf.length := by
  simp only [overwrite, List.length_append, List.length_take, List.length_drop]
  omega

/-- The bytes before the position are as they were. -/
theorem take_overwrite (fits : pos ≤ buf.length) {n : Nat} (before : n ≤ pos) :
    (overwrite buf pos new).take n = buf.take n := by
  have inside : n ≤ (buf.take pos).length := by
    rw [List.length_take]
    omega
  rw [overwrite, List.append_assoc, List.take_append_of_le_length inside, List.take_take, min_eq_left before]

/-- The bytes up to the end of what is written. -/
theorem take_overwrite_end (fits : pos ≤ buf.length) :
    (overwrite buf pos new).take (pos + new.length) = buf.take pos ++ new := by
  have length : (buf.take pos ++ new).length = pos + new.length := by
    rw [List.length_append, List.length_take, min_eq_left fits]
  rw [overwrite, ← length, List.take_left]

end Overwrite

namespace Buffer

variable {b : Buffer} {n size pos : Nat} {chunk : Bytes}

theorem data_eq (b : Buffer) : b.data = (b.buf.take b.wpos).drop b.rpos := by
  rw [data, Buffer.size, List.drop_take]

theorem length_data (valid : b.Valid) : b.data.length = b.size := by
  have ordered := valid.ordered
  have inside := valid.inside
  rw [data, List.length_take, List.length_drop, Buffer.size]
  omega

theorem valid_empty : empty.Valid := ⟨Nat.le_refl _, Nat.le_refl _⟩

theorem prepare_valid (valid : b.Valid) (size : Nat) : (b.prepare size).Valid := by
  have inside := valid.inside
  rw [prepare]
  split
  next =>
    refine ⟨valid.ordered, ?_⟩
    show b.wpos ≤ (b.buf ++ _).length
    rw [List.length_append]
    omega
  next => exact valid

/-- The room that has been asked for is there. -/
theorem prepare_room (valid : b.Valid) (size : Nat) : b.wpos + size ≤ (b.prepare size).buf.length := by
  have inside := valid.inside
  rw [prepare]
  split
  next short =>
    simp only [unused] at short ⊢
    rw [List.length_append, List.length_replicate]
    omega
  next enough =>
    simp only [unused] at enough
    omega

@[simp] theorem wpos_prepare (b : Buffer) (size : Nat) : (b.prepare size).wpos = b.wpos := by
  rw [prepare]
  split <;> rfl

@[simp] theorem rpos_prepare (b : Buffer) (size : Nat) : (b.prepare size).rpos = b.rpos := by
  rw [prepare]
  split <;> rfl

theorem take_prepare (b : Buffer) (size : Nat) (inside : n ≤ b.buf.length) :
    (b.prepare size).buf.take n = b.buf.take n := by
  rw [prepare]
  split
  next => exact List.take_append_of_le_length inside
  next => rfl

theorem data_prepare (valid : b.Valid) (size : Nat) : (b.prepare size).data = b.data := by
  rw [data_eq, data_eq, wpos_prepare, rpos_prepare, b.take_prepare size valid.inside]

/-- A chunk is read from a connection into the room prepared for it. -/
def receive (b : Buffer) (chunk : Bytes) (extra : Nat) : Buffer :=
  ((b.prepare (chunk.length + extra)).write 0 chunk).commit chunk.length

/-- The bytes that have been prepared for are committed. -/
theorem commit_valid (valid : b.Valid) (room : b.wpos + n ≤ b.buf.length) : (b.commit n).Valid :=
  ⟨valid.ordered.trans (Nat.le_add_right _ _), room⟩

theorem data_commit (valid : b.Valid) (n : Nat) : (b.commit n).data = b.data ++ (b.buf.drop b.wpos).take n := by
  have ordered := valid.ordered
  have length : (b.buf.take b.wpos).length = b.wpos := List.length_take_of_le valid.inside
  rw [data_eq, data_eq]
  show (b.buf.take (b.wpos + n)).drop b.rpos = _
  rw [List.take_add, List.drop_append_of_le_length (by omega)]

theorem receive_valid (valid : b.Valid) (chunk : Bytes) (extra : Nat) : (b.receive chunk extra).Valid := by
  have prepared := prepare_valid valid (chunk.length + extra)
  have room := prepare_room valid (chunk.length + extra)
  apply commit_valid
  · refine ⟨prepared.ordered, ?_⟩
    simp only [write, Nat.add_zero]
    rw [length_overwrite (by rw [wpos_prepare]; omega)]
    exact prepared.inside
  · simp only [write, Nat.add_zero]
    rw [length_overwrite (by rw [wpos_prepare]; omega), wpos_prepare]
    omega

theorem data_receive (valid : b.Valid) (chunk : Bytes) (extra : Nat) : (b.receive chunk extra).data = b.data ++ chunk := by
  have prepared := prepare_valid valid (chunk.length + extra)
  have room := prepare_room valid (chunk.length + extra)
  have inside : (b.prepare (chunk.length + extra)).wpos ≤ (b.prepare (chunk.length + extra)).buf.length := prepared.inside
  have ordered : b.rpos ≤ (b.buf.take b.wpos).length := by
    rw [List.length_take_of_le valid.inside]
    exact valid.ordered
  rw [data_eq, data_eq, receive, commit, write]
  simp only [Nat.add_zero]
  rw [take_overwrite_end inside, wpos_prepare, rpos_prepare, b.take_prepare _ valid.inside,
    List.drop_append_of_le_length ordered]

theorem consume_spec (valid : b.Valid) (count : Nat) (le : count ≤ b.size) :
    (b.consume count).Valid ∧ (b.consume count).data = b.data.drop count := by
  have ordered := valid.ordered
  have inside := valid.inside
  rw [Buffer.size] at le
  have dropped : (b.buf.take b.wpos).drop (b.rpos + count) = b.data.drop count := by
    rw [data_eq, List.drop_drop]
  rw [consume]
  by_cases zero : count = 0
  · rw [if_pos zero, zero]
    exact ⟨valid, rfl⟩
  · rw [if_neg zero]
    simp only
    split
    next shrink =>
      obtain ⟨rest, unread⟩ : ∃ rest, rest = (b.buf.drop (b.rpos + count)).take (b.wpos - (b.rpos + count)) := ⟨_, rfl⟩
      have length : rest.length = b.wpos - (b.rpos + count) := by
        rw [unread, List.length_take, List.length_drop]
        omega
      have same : rest = b.data.drop count := by rw [unread, ← dropped, List.drop_take]
      simp only [Buffer.size, ← unread]
      rw [← length]
      by_cases some_ : 0 < rest.length
      · rw [if_pos some_]
        have fits : 0 + rest.length ≤ b.buf.length := by omega
        refine ⟨⟨Nat.zero_le _, ?_⟩, ?_⟩
        · show rest.length ≤ (overwrite b.buf 0 rest).length
          rw [length_overwrite fits]
          omega
        · have taken : (overwrite b.buf 0 rest).take (0 + rest.length) = b.buf.take 0 ++ rest :=
            take_overwrite_end (Nat.zero_le _)
          rw [Nat.zero_add, List.take_zero, List.nil_append] at taken
          rw [data_eq, List.drop_zero, taken, same]
      · rw [if_neg some_]
        have nothing : rest = [] := List.eq_nil_of_length_eq_zero (by omega)
        refine ⟨⟨Nat.zero_le _, ?_⟩, ?_⟩
        · rw [nothing]
          exact Nat.zero_le _
        · rw [← same, nothing]
          rfl
    next =>
      refine ⟨⟨?_, inside⟩, ?_⟩
      · show b.rpos + count ≤ b.wpos
        omega
      · rw [data_eq]
        exact dropped

end Buffer

end Swirly
