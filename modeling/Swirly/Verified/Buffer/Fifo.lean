import Swirly.Lib.Run
import Swirly.Verified.Fix.Buffer

/-!
# A buffer as a queue of bytes

A ledger beside the buffer keeps every byte that was committed and every byte that was written and still waits for its
commit.  Compaction moves the unread bytes only, so that what waits for a commit is lost in it.
-/

namespace Swirly

/-- What is known of some bytes: what was written there last, if anything was. -/
def Known (known : List (Option UInt8)) (bytes : Bytes) : Prop := List.Forall₂ (fun k c => ∀ w ∈ k, c = w) known bytes

namespace Known

variable {known more : List (Option UInt8)} {bytes others : Bytes}

theorem length_eq (holds : Known known bytes) : known.length = bytes.length := List.Forall₂.length_eq holds

theorem append (first : Known known bytes) (second : Known more others) : Known (known ++ more) (bytes ++ others) :=
  List.rel_append first second

theorem take (holds : Known known bytes) (n : Nat) : Known (known.take n) (bytes.take n) := List.forall₂_take n holds

theorem drop (holds : Known known bytes) (n : Nat) : Known (known.drop n) (bytes.drop n) := List.forall₂_drop n holds

theorem written (bytes : Bytes) : Known (bytes.map some) bytes := by
  rw [Known, List.forall₂_map_left_iff, List.forall₂_same]
  intro c _ w written
  exact Option.some.inj written

theorem of_none (none_ : ∀ k ∈ known, k = none) (length : known.length = bytes.length) : Known known bytes := by
  rw [Known, List.forall₂_iff_zip]
  refine ⟨length, ?_⟩
  intro k c member w written
  rw [none_ k (List.of_mem_zip member).1] at written
  cases written

theorem eq_of_written (holds : Known (others.map some) bytes) : bytes = others := by
  rw [Known, List.forall₂_map_left_iff] at holds
  induction holds with
  | nil => rfl
  | cons same _ inductionHypothesis => rw [same _ rfl, inductionHypothesis]

end Known

namespace Buffer

inductive Op where
  | prepare (size : Nat)
  /-- Bytes are written into the prepared area. -/
  | write (pos : Nat) (new : Bytes)
  | commit (count : Nat)
  | consume (count : Nat)
  deriving DecidableEq

def apply (b : Buffer) : Op → Buffer
  | .prepare size => b.prepare size
  | .write pos new => b.write pos new
  | .commit count => b.commit count
  | .consume count => b.consume count

/-- The unread bytes are moved to the front. -/
def Compacts (b : Buffer) (count : Nat) : Prop :=
  count ≠ 0 ∧ shrinkThreshold ≤ b.rpos + count ∧ b.buf.length >>> 1 ≤ b.rpos + count

instance (b : Buffer) (count : Nat) : Decidable (b.Compacts count) := inferInstanceAs (Decidable (_ ∧ _))

/-- The bytes after the write position. -/
def room (b : Buffer) : Bytes := b.buf.drop b.wpos

end Buffer

/-- A queue of bytes.  Bytes that were committed without having been written are not known. -/
structure Fifo where
  committed : List (Option UInt8)
  consumed : Nat
  /-- What is prepared and not committed. -/
  area : List (Option UInt8)
  deriving DecidableEq

namespace Fifo

def empty : Fifo := { committed := [], consumed := 0, area := [] }

def queue (q : Fifo) : List (Option UInt8) := q.committed.drop q.consumed

def apply (q : Fifo) : Buffer.Op → Fifo
  | .prepare size => { q with area := q.area ++ List.replicate (size - q.area.length) none }
  | .write pos new => { q with area := q.area.take pos ++ new.map some ++ q.area.drop (pos + new.length) }
  | .commit count => { q with committed := q.committed ++ q.area.take count, area := q.area.drop count }
  | .consume count => { q with consumed := q.consumed + count }

end Fifo

/-- A buffer with its ledger. -/
structure Piped where
  buffer : Buffer
  fifo : Fifo
  deriving DecidableEq

namespace Piped

def start : Piped := { buffer := .empty, fifo := .empty }

def step (s : Piped) (op : Buffer.Op) : Option Piped := some { buffer := s.buffer.apply op, fifo := s.fifo.apply op }

/-- Writes stay in the prepared area, and so do commits; no more is consumed than is there. -/
def Allowed (s : Piped) : Buffer.Op → Prop
  | .prepare _ => True
  | .write pos new => pos + new.length ≤ s.fifo.area.length
  | .commit count => count ≤ s.fifo.area.length
  | .consume count => count ≤ s.buffer.size

/-- Nothing that is written waits for its commit when the unread bytes are moved. -/
def Settled (s : Piped) : Buffer.Op → Prop
  | .consume count => s.buffer.Compacts count → ∀ k ∈ s.fifo.area, k = none
  | .prepare _ | .write _ _ | .commit _ => True

instance (s : Piped) (op : Buffer.Op) : Decidable (s.Allowed op) := by
  cases op <;> unfold Allowed <;> infer_instance

instance (s : Piped) (op : Buffer.Op) : Decidable (s.Settled op) := by
  cases op <;> unfold Settled <;> infer_instance

/-- The ledger knows what is in the buffer. -/
structure Tracks (s : Piped) : Prop where
  valid : s.buffer.Valid
  consumed : s.fifo.consumed ≤ s.fifo.committed.length
  data : Known s.fifo.queue s.buffer.data
  room : s.fifo.area.length ≤ s.buffer.room.length
  area : Known s.fifo.area (s.buffer.room.take s.fifo.area.length)

variable {s t : Piped}

theorem tracks_start : start.Tracks where
  valid := Buffer.valid_empty
  consumed := Nat.le_refl _
  data := .nil
  room := Nat.le_refl _
  area := .nil

/-- New room lies behind the old room. -/
theorem room_prepare (b : Buffer) (inside : b.wpos ≤ b.buf.length) (size : Nat) :
    ∃ fresh, (b.prepare size).room = b.room ++ fresh ∧ size ≤ b.room.length + fresh.length := by
  have room : b.room.length = b.buf.length - b.wpos := by rw [Buffer.room, List.length_drop]
  rw [Buffer.prepare]
  split
  next short =>
    exists List.replicate (size - b.unused) 0
    constructor
    · exact List.drop_append_of_le_length inside
    · rw [List.length_replicate, room]
      simp only [Buffer.unused] at short ⊢
      omega
  next enough =>
    exists []
    constructor
    · rw [List.append_nil]
    · rw [List.length_nil, room]
      simp only [Buffer.unused] at enough
      omega

theorem Tracks.prepare (tracks : s.Tracks) (size : Nat) :
    Tracks { buffer := s.buffer.apply (.prepare size), fifo := s.fifo.apply (.prepare size) } := by
  have old := tracks.room
  obtain ⟨fresh, room, enough⟩ := room_prepare s.buffer tracks.valid.inside size
  have kept : (s.buffer.prepare size).room.take s.fifo.area.length = s.buffer.room.take s.fifo.area.length := by
    rw [room, List.take_append_of_le_length old]
  have length : s.fifo.area.length + (size - s.fifo.area.length) ≤ (s.buffer.prepare size).room.length := by
    rw [room, List.length_append]
    omega
  constructor
  case valid => exact Buffer.prepare_valid tracks.valid size
  case consumed => exact tracks.consumed
  case data =>
    show Known s.fifo.queue (s.buffer.prepare size).data
    rw [Buffer.data_prepare tracks.valid]
    exact tracks.data
  case room =>
    simpa [Fifo.apply, Buffer.apply] using length
  case area =>
    -- Only what was in the area before is known.
    simp only [Fifo.apply, Buffer.apply, List.length_append, List.length_replicate, List.take_add, kept]
    apply tracks.area.append
    apply Known.of_none
    · intro k member
      exact List.eq_of_mem_replicate member
    · rw [List.length_replicate, List.length_take, List.length_drop]
      omega

theorem room_write (b : Buffer) (inside : b.wpos ≤ b.buf.length) (pos : Nat) (new : Bytes)
    (fits : pos + new.length ≤ b.room.length) :
    (b.write pos new).room = b.room.take pos ++ new ++ b.room.drop (pos + new.length) := by
  have length : (b.buf.take (b.wpos + pos)).length = b.wpos + pos := by
    rw [Buffer.room, List.length_drop] at fits
    rw [List.length_take]
    omega
  simp only [Buffer.room, Buffer.write, overwrite, List.drop_drop, List.append_assoc]
  rw [List.drop_append_of_le_length (by omega), List.drop_take, Nat.add_sub_cancel_left]
  simp [Nat.add_assoc]

theorem length_write (b : Buffer) (inside : b.wpos ≤ b.buf.length) (pos : Nat) (new : Bytes)
    (fits : pos + new.length ≤ b.room.length) : (b.write pos new).buf.length = b.buf.length := by
  apply length_overwrite
  rw [Buffer.room, List.length_drop] at fits
  omega

/-- What is written into the room is not for the reader yet. -/
theorem data_write (b : Buffer) (inside : b.wpos ≤ b.buf.length) (pos : Nat) (new : Bytes)
    (fits : pos + new.length ≤ b.room.length) : (b.write pos new).data = b.data := by
  rw [Buffer.room, List.length_drop] at fits
  rw [Buffer.data_eq, Buffer.data_eq]
  show ((overwrite b.buf (b.wpos + pos) new).take b.wpos).drop b.rpos = _
  rw [take_overwrite (by omega) (Nat.le_add_right _ _)]

theorem write_valid {b : Buffer} (valid : b.Valid) (pos : Nat) (new : Bytes) (fits : pos + new.length ≤ b.room.length) :
    (b.write pos new).Valid := by
  constructor
  · exact valid.ordered
  · show b.wpos ≤ (b.write pos new).buf.length
    rw [length_write b valid.inside pos new fits]
    exact valid.inside

theorem Tracks.write (tracks : s.Tracks) {pos : Nat} {new : Bytes} (fits : pos + new.length ≤ s.fifo.area.length) :
    Tracks { buffer := s.buffer.apply (.write pos new), fifo := s.fifo.apply (.write pos new) } := by
  have inside := tracks.valid.inside
  have old := tracks.room
  have room := room_write s.buffer inside pos new (fits.trans old)
  have same := length_write s.buffer inside pos new (fits.trans old)
  have area : (s.fifo.apply (.write pos new)).area.length = s.fifo.area.length := by
    simp only [Fifo.apply, List.length_append, List.length_take, List.length_map, List.length_drop]
    omega
  constructor
  case valid => exact write_valid tracks.valid pos new (fits.trans old)
  case consumed => exact tracks.consumed
  case data =>
    have unread := data_write s.buffer inside pos new (fits.trans old)
    show Known s.fifo.queue (s.buffer.write pos new).data
    rw [unread]
    exact tracks.data
  case room =>
    simp only
    rw [area]
    simp only [Buffer.apply, Buffer.room, List.length_drop, same] at old ⊢
    exact old
  case area =>
    have before := tracks.area.take pos
    have after := tracks.area.drop (pos + new.length)
    have whole := (before.append (Known.written new)).append after
    simp only
    rw [area]
    have taken : (s.buffer.write pos new).room.take s.fifo.area.length =
        (s.buffer.room.take s.fifo.area.length).take pos ++ new ++
          (s.buffer.room.take s.fifo.area.length).drop (pos + new.length) := by
      have front : (s.buffer.room.take pos ++ new).length = pos + new.length := by
        rw [List.length_append, List.length_take]
        omega
      rw [room, List.take_append, front, List.take_of_length_le (by omega), List.take_take, min_eq_left (by omega), List.drop_take]
    show Known _ ((s.buffer.write pos new).room.take s.fifo.area.length)
    rw [taken]
    exact whole

theorem Tracks.commit (tracks : s.Tracks) {count : Nat} (fits : count ≤ s.fifo.area.length) :
    Tracks { buffer := s.buffer.apply (.commit count), fifo := s.fifo.apply (.commit count) } := by
  have old := tracks.room
  have room : s.buffer.room.length = s.buffer.buf.length - s.buffer.wpos := by rw [Buffer.room, List.length_drop]
  have moved : (s.buffer.commit count).room = s.buffer.room.drop count := by
    simp [Buffer.room, Buffer.commit]
  have first := tracks.area.take count
  rw [List.take_take, min_eq_left fits] at first
  constructor
  case valid =>
    apply Buffer.commit_valid tracks.valid
    have inside := tracks.valid.inside
    omega
  case consumed =>
    have consumed := tracks.consumed
    simp only [Fifo.apply, List.length_append]
    omega
  case data =>
    have queue : (s.fifo.apply (.commit count)).queue = s.fifo.queue ++ s.fifo.area.take count := by
      simp only [Fifo.apply, Fifo.queue]
      rw [List.drop_append_of_le_length tracks.consumed]
    show Known (s.fifo.apply (.commit count)).queue (s.buffer.commit count).data
    rw [queue, Buffer.data_commit tracks.valid]
    exact tracks.data.append first
  case room =>
    show (s.fifo.area.drop count).length ≤ (s.buffer.commit count).room.length
    rw [moved, List.length_drop, List.length_drop]
    omega
  case area =>
    show Known (s.fifo.area.drop count) ((s.buffer.commit count).room.take (s.fifo.area.drop count).length)
    rw [moved, List.length_drop, ← List.drop_take]
    exact tracks.area.drop count

/-- Without compaction the room stays where it is, and with it there is no less room. -/
theorem room_consume (b : Buffer) (count : Nat) (fits : b.rpos + count ≤ b.wpos) (inside : b.wpos ≤ b.buf.length) :
    (¬ b.Compacts count → (b.consume count).room = b.room) ∧ b.room.length ≤ (b.consume count).room.length := by
  rw [Buffer.consume]
  by_cases zero : count = 0
  · rw [if_pos zero]
    exact ⟨fun _ => rfl, Nat.le_refl _⟩
  · rw [if_neg zero]
    simp only
    split
    next shrink =>
      constructor
      · intro stays
        exact absurd ⟨zero, shrink⟩ stays
      · have moved : (overwrite b.buf 0 ((b.buf.drop (b.rpos + count)).take (b.wpos - (b.rpos + count)))).length =
            b.buf.length := by
          apply length_overwrite
          rw [List.length_take, List.length_drop]
          omega
        rw [Buffer.room, Buffer.room, List.length_drop, List.length_drop]
        by_cases unread : 0 < b.wpos - (b.rpos + count)
        · simp only [Buffer.size, unread, if_true, moved]
          omega
        · simp only [Buffer.size, unread, if_false]
          omega
    next => exact ⟨fun _ => rfl, Nat.le_refl _⟩

theorem Tracks.consume (tracks : s.Tracks) {count : Nat} (fits : count ≤ s.buffer.size)
    (settled : s.buffer.Compacts count → ∀ k ∈ s.fifo.area, k = none) :
    Tracks { buffer := s.buffer.apply (.consume count), fifo := s.fifo.apply (.consume count) } := by
  have ordered := tracks.valid.ordered
  have old := tracks.room
  obtain ⟨valid, data⟩ := Buffer.consume_spec tracks.valid count fits
  have size : s.fifo.queue.length = s.buffer.size := by
    rw [tracks.data.length_eq, Buffer.length_data tracks.valid]
  have inside : s.buffer.rpos + count ≤ s.buffer.wpos := by
    rw [Buffer.size] at fits
    omega
  obtain ⟨still, wider⟩ := room_consume s.buffer count inside tracks.valid.inside
  constructor
  case valid => exact valid
  case consumed =>
    have consumed := tracks.consumed
    rw [Fifo.queue, List.length_drop] at size
    show s.fifo.consumed + count ≤ s.fifo.committed.length
    omega
  case data =>
    show Known (s.fifo.committed.drop (s.fifo.consumed + count)) (s.buffer.consume count).data
    rw [data, ← List.drop_drop]
    exact tracks.data.drop count
  case room => exact old.trans wider
  case area =>
    show Known s.fifo.area ((s.buffer.consume count).room.take s.fifo.area.length)
    by_cases compacts : s.buffer.Compacts count
    · apply Known.of_none (settled compacts)
      rw [List.length_take, min_eq_left (old.trans wider)]
    · rw [still compacts]
      exact tracks.area

theorem Tracks.step (tracks : s.Tracks) {op : Buffer.Op} (allowed : s.Allowed op) (settled : s.Settled op)
    (stepped : s.step op = some t) : t.Tracks := by
  obtain rfl := Option.some.inj stepped
  cases op with
  | prepare size => exact tracks.prepare size
  | write pos new => exact tracks.write allowed
  | commit count => exact tracks.commit allowed
  | consume count => exact tracks.consume allowed settled

/-- The buffer is the queue of the bytes that were committed and not consumed, and what is written in the prepared area
stays there until its commit. -/
theorem buffer_fifo {ops : List Buffer.Op} (run : Run step (fun s op => s.Allowed op ∧ s.Settled op) start ops s) :
    Known (s.fifo.committed.drop s.fifo.consumed) s.buffer.data ∧
    s.buffer.size = s.fifo.committed.length - s.fifo.consumed ∧
    (∀ all : Bytes, s.fifo.committed = all.map some → s.buffer.data = all.drop s.fifo.consumed) ∧
    Known s.fifo.area (s.buffer.room.take s.fifo.area.length) := by
  have tracks : s.Tracks :=
    run.invariant (fun _ _ _ tracks allowed stepped => tracks.step allowed.1 allowed.2 stepped) tracks_start
  have length := tracks.data.length_eq
  rw [Fifo.queue, List.length_drop, Buffer.length_data tracks.valid] at length
  refine ⟨tracks.data, length.symm, ?_, tracks.area⟩
  intro all committed
  have data := tracks.data
  rw [Fifo.queue, committed, ← List.map_drop] at data
  exact data.eq_of_written

/-- A buffer of 2049 bytes is compacted when it has consumed 1024 of them, and not before. -/
def shrinking : List Buffer.Op :=
  [.prepare 2048, .write 0 (List.replicate 2048 97), .prepare 2049, .write 2048 [98], .commit 2049, .consume 1023,
   .consume 1]

theorem buffer_shrinking :
    ∃ s, Run step (fun s op => s.Allowed op ∧ s.Settled op) start shrinking s ∧ s.buffer.rpos = 0 ∧
      s.buffer.data = List.replicate 1024 97 ++ [98] := by
  have made : ∃ s ∈ Run.exec step (fun s op => s.Allowed op ∧ s.Settled op) start shrinking, s.buffer.rpos = 0 ∧
      s.fifo.committed = (List.replicate 2048 97 ++ [98] : Bytes).map some ∧ s.fifo.consumed = 1024 := by
    decide +kernel
  obtain ⟨s, done, moved, committed, consumed⟩ := made
  have run := Run.of_exec (Option.mem_def.mp done)
  refine ⟨s, run, moved, ?_⟩
  have data := (buffer_fifo run).2.2.1 _ committed
  have inside : 1024 ≤ (List.replicate 2048 (97 : UInt8)).length := by
    rw [List.length_replicate]
    omega
  rw [data, consumed, List.drop_append_of_le_length inside, List.drop_replicate]

/-- A byte is written and waits for its commit while the bytes before it are consumed. -/
def overtaken : List Buffer.Op :=
  [.prepare 1024, .write 0 (List.replicate 1024 97), .commit 1024, .prepare 1, .write 0 [98], .consume 1024, .commit 1]

/-- The byte is lost, and a stale one is committed in its place. -/
theorem buffer_overtaken :
    ∃ s, Run step Allowed start overtaken s ∧ s.fifo.queue = [some 98] ∧ s.buffer.data = [97] := by
  have made : ∃ s ∈ Run.exec step Allowed start overtaken, s.fifo.queue = [some 98] ∧ s.buffer.data = [97] := by
    decide +kernel
  obtain ⟨s, done, facts⟩ := made
  exact ⟨s, Run.of_exec (Option.mem_def.mp done), facts⟩

end Piped

end Swirly
