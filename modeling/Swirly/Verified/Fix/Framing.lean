import Swirly.Verified.Fix.Buffer
import Swirly.Verified.Fix.Frame

/-!
# Framing

A reader puts each chunk of a stream into its buffer, has the parser look at the unread bytes, and consumes what the parser
has done with.  However the stream is cut, the messages that are told are those whose last byte has come.
-/

namespace Swirly

/-- A connection that is being read. -/
structure FixReader where
  buffer : Buffer
  parser : FixParser
  /-- The calls of `on_message` so far. -/
  calls : List FixMessage

namespace FixReader

def make (buffer : Buffer) : FixReader := { buffer, parser := .make, calls := [] }

/-- Read a chunk into room for it and `extra` bytes.  The loop of the parser gets a round for each byte. -/
def feed (r : FixReader) (chunk : Bytes × Nat) : Option FixReader :=
  let buffer := r.buffer.receive chunk.1 chunk.2
  match r.parser.parse (buffer.size + 1) buffer.data with
  | some { parser, calls, result := .returned sum } =>
    some { buffer := buffer.consume sum, parser, calls := r.calls ++ calls }
  | _ => none

/-- The bytes of the chunks, one after the other. -/
def stream (chunks : List (Bytes × Nat)) : Bytes := chunks.flatMap Prod.fst

end FixReader

/-- The bytes of messages sent one after the other. -/
def Frame.sent (frames : List Frame) : Bytes := frames.flatMap Frame.encoded

namespace Frame

variable {f : Frame} {frames done rest : List Frame} {tail later : Bytes} {q : FixParser} {fuel : Nat}

theorem length_encoded_pos (f : Frame) : 8 < f.encoded.length := by
  rw [length_encoded]
  simp only [FixParser.bodyLenStart]
  omega

@[simp] theorem sent_nil : sent [] = [] := rfl

@[simp] theorem sent_cons (f : Frame) (frames : List Frame) : sent (f :: frames) = f.encoded ++ sent frames := rfl

/-- The first bytes of a stream are some whole messages and the first bytes of the next one. -/
theorem split_sent (split : tail ++ later = sent frames) :
    ∃ done rest unread, frames = done ++ rest ∧ tail = sent done ++ unread ∧ unread ++ later = sent rest ∧
      ∀ f ∈ rest.head?, unread.length < f.encoded.length := by
  induction frames generalizing tail with
  | nil =>
    obtain ⟨rfl, rfl⟩ := List.append_eq_nil_iff.mp split
    exact ⟨[], [], [], rfl, rfl, rfl, by simp⟩
  | cons f frames inductionHypothesis =>
    rw [sent_cons] at split
    by_cases short : tail.length < f.encoded.length
    · refine ⟨[], f :: frames, tail, rfl, rfl, split, ?_⟩
      rintro g here
      obtain rfl : f = g := Option.some.inj here
      exact short
    · obtain ⟨unread, rfl, more⟩ : ∃ unread, tail = f.encoded ++ unread ∧ sent frames = unread ++ later := by
        rcases List.append_eq_append_iff.mp split with ⟨cut, whole, _⟩ | ⟨unread, whole, more⟩
        · have length := congrArg List.length whole
          rw [List.length_append] at length
          obtain rfl : cut = [] := List.eq_nil_of_length_eq_zero (by omega)
          exact ⟨[], by simpa using whole.symm, by simp_all⟩
        · exact ⟨unread, whole, more⟩
      obtain ⟨done, rest, unread, rfl, rfl, left, short⟩ := inductionHypothesis more.symm
      exact ⟨f :: done, rest, unread, rfl, by simp, left, short⟩

/-- A parser waits at what is left. -/
theorem waits_sent (left : tail ++ later = sent rest) (short : ∀ f ∈ rest.head?, tail.length < f.encoded.length) :
    ∃ q, FixParser.Waits q tail := by
  cases rest with
  | nil =>
    obtain ⟨rfl, -⟩ := List.append_eq_nil_iff.mp left
    exact ⟨_, .header rfl⟩
  | cons f rest =>
    have short := short f rfl
    have first : tail ++ f.encoded.drop tail.length = f.encoded := by
      have taken := congrArg (List.take tail.length) left
      rw [List.take_left, sent_cons, List.take_append_of_le_length short.le] at taken
      have whole := List.take_append_drop tail.length f.encoded
      rwa [← taken] at whole
    refine f.waits first fun nothing => ?_
    rw [nothing, List.append_nil] at first
    rw [first] at short
    exact lt_irrefl _ short

/-- The parser tells the whole messages and waits at the rest. -/
theorem enter_sent (waits : FixParser.Waits q tail) (enough : done.length < fuel) (sum : Nat) (calls : List FixMessage) :
    ∃ told, told.map FixMessage.told = done.map Frame.told ∧
      FixParser.enter fuel (sent done ++ tail) sum calls =
        some { parser := q, calls := calls ++ told, result := .returned (sum + (sent done).length) } := by
  induction done generalizing fuel sum calls with
  | nil =>
    obtain ⟨rounds, rfl⟩ : ∃ rounds, fuel = rounds + 1 := ⟨fuel - 1, by simp only [List.length_nil] at enough; omega⟩
    refine ⟨[], rfl, ?_⟩
    simpa using waits.enter rounds sum calls
  | cons f done inductionHypothesis =>
    obtain ⟨rounds, rfl⟩ : ∃ rounds, fuel = rounds + 1 := ⟨fuel - 1, by omega⟩
    have whole : f.parser.len ≤ (f.encoded ++ (sent done ++ tail)).length := by
      rw [f.parser_len, List.length_append]
      omega
    have large : 8 < (f.encoded ++ (sent done ++ tail)).length := by
      have large := f.length_encoded_pos
      rw [List.length_append]
      omega
    have enough : done.length < rounds := Nat.lt_of_succ_lt_succ enough
    obtain ⟨told, same, rounds_⟩ := inductionHypothesis enough (sum + f.parser.len)
      (calls ++ [f.parser.message (f.encoded ++ (sent done ++ tail))])
    refine ⟨f.parser.message (f.encoded ++ (sent done ++ tail)) :: told, ?_, ?_⟩
    · rw [List.map_cons, List.map_cons, same, f.told_message]
    · rw [sent_cons, List.append_assoc, FixParser.enter, f.parseBodyLen_encoded]
      simp only
      rw [FixParser.loop_message whole large, f.parser_len, List.drop_left, ← f.parser_len, rounds_, f.parser_len]
      simp [Nat.add_assoc]

end Frame

namespace FixReader

variable {frames : List Frame} {chunks : List (Bytes × Nat)} {later : Bytes} {r : FixReader} {buffer : Buffer}

/-- The messages told so far are the first ones, and the rest of the bytes that have come lies in the buffer. -/
structure Keeps (frames : List Frame) (come : Bytes) (r : FixReader) : Prop where
  valid : r.buffer.Valid
  waits : FixParser.Waits r.parser r.buffer.data
  told : ∃ done rest, frames = done ++ rest ∧ r.calls.map FixMessage.told = done.map Frame.told ∧
    come = Frame.sent done ++ r.buffer.data ∧ ∀ f ∈ rest.head?, r.buffer.data.length < f.encoded.length

theorem Keeps.feed {come : Bytes} (keeps : Keeps frames come r) (chunk : Bytes × Nat)
    (split : come ++ chunk.1 ++ later = Frame.sent frames) : ∃ t, r.feed chunk = some t ∧ Keeps frames (come ++ chunk.1) t := by
  obtain ⟨done, rest, rfl, told, rfl, -⟩ := keeps.told
  have left : r.buffer.data ++ chunk.1 ++ later = Frame.sent rest := by
    simp only [Frame.sent, List.flatMap_append, List.append_assoc, List.append_cancel_left_eq] at split
    rw [List.append_assoc]
    exact split
  obtain ⟨more, others, unread, rfl, cut, left, short⟩ := Frame.split_sent left
  obtain ⟨q, waits⟩ := Frame.waits_sent left short
  have valid := Buffer.receive_valid keeps.valid chunk.1 chunk.2
  have data := Buffer.data_receive keeps.valid chunk.1 chunk.2
  have size : (r.buffer.receive chunk.1 chunk.2).size = (Frame.sent more ++ unread).length := by
    rw [← cut, ← data, Buffer.length_data valid]
  have rounds : more.length < (r.buffer.receive chunk.1 chunk.2).size + 1 := by
    have bytes_ : more.length ≤ (Frame.sent more).length := by
      rw [Frame.sent, List.length_flatMap, ← List.length_map (f := fun f : Frame => f.encoded.length)]
      apply List.length_le_sum_of_one_le
      intro n member
      obtain ⟨f, -, rfl⟩ := List.mem_map.mp member
      have large := f.length_encoded_pos
      omega
    rw [size, List.length_append]
    omega
  obtain ⟨news, same, parsed⟩ := Frame.enter_sent waits rounds 0 []
  have inside : (Frame.sent more).length ≤ (r.buffer.receive chunk.1 chunk.2).size := by
    rw [size, List.length_append]
    omega
  have consumed := Buffer.consume_spec valid _ inside
  rw [data, cut, List.drop_left] at consumed
  refine ⟨{ buffer := (r.buffer.receive chunk.1 chunk.2).consume (Frame.sent more).length, parser := q,
            calls := r.calls ++ news }, ?_, ?_⟩
  · rw [FixReader.feed, data, keeps.waits.resume, cut, FixParser.parse_make, parsed]
    simp
  · refine ⟨consumed.1, ?_, done ++ more, others, by simp, ?_, ?_, ?_⟩
    · rwa [consumed.2]
    · rw [List.map_append, told, same, List.map_append]
    · rw [consumed.2, List.append_assoc, cut]
      simp [Frame.sent]
    · simpa only [consumed.2] using short

/-- The messages told are those that have come whole, and what has come of the next one lies in the buffer. -/
theorem framing (valid : buffer.Valid) (unread : buffer.data = []) (split : stream chunks ++ later = Frame.sent frames) :
    ∃ r done rest, chunks.foldlM feed (make buffer) = some r ∧ frames = done ++ rest ∧
      r.calls.map FixMessage.told = done.map Frame.told ∧ stream chunks = Frame.sent done ++ r.buffer.data ∧
      r.buffer.data ++ later = Frame.sent rest ∧ ∀ f ∈ rest.head?, r.buffer.data.length < f.encoded.length := by
  have kept : ∀ before after, chunks = before ++ after →
      ∃ r, before.foldlM feed (make buffer) = some r ∧ Keeps frames (stream before) r := by
    intro before
    induction before using List.reverseRecOn with
    | nil =>
      intro after _
      refine ⟨make buffer, rfl, valid, ?_, [], frames, rfl, rfl, ?_, ?_⟩
      · rw [make, unread]
        exact .header rfl
      · rw [make, unread]
        rfl
      · intro f _
        rw [make, unread]
        have large := f.length_encoded_pos
        simp only [List.length_nil]
        omega
    | append_singleton before chunk inductionHypothesis =>
      intro after cut
      obtain ⟨r, read, keeps⟩ := inductionHypothesis (chunk :: after) (by simp [cut])
      have whole : stream before ++ chunk.1 ++ (stream after ++ later) = Frame.sent frames := by
        rw [← split, cut]
        simp [stream]
      obtain ⟨t, fed, keeps⟩ := keeps.feed chunk whole
      refine ⟨t, ?_, by simpa [stream] using keeps⟩
      rw [List.foldlM_append, read]
      simpa using fed
  obtain ⟨r, read, keeps⟩ := kept chunks [] (by simp)
  obtain ⟨done, rest, rfl, told, come, short⟩ := keeps.told
  refine ⟨r, done, rest, read, rfl, told, come, ?_, short⟩
  rw [come] at split
  simpa [Frame.sent] using split

/-- A message with one field. -/
def newOrder : Frame where
  major := 4
  minor := 3
  len := [0, 0, 0, 5]
  body := bytes "35=D" ++ [soh]
  check := (0, 7, 0)
  counted := by decide
  sized := by decide

/-- Two messages, cut within the length of the first one and within the body of the second one. -/
theorem framing_cut :
    ∃ r done rest, [(newOrder.encoded.take 13, 0), (newOrder.encoded.drop 13 ++ newOrder.encoded.take 20, 100)].foldlM feed
        (make .empty) = some r ∧ [newOrder, newOrder] = done ++ rest ∧
      r.calls.map FixMessage.told = done.map Frame.told ∧
      stream [(newOrder.encoded.take 13, 0), (newOrder.encoded.drop 13 ++ newOrder.encoded.take 20, 100)] =
        Frame.sent done ++ r.buffer.data ∧
      r.buffer.data ++ newOrder.encoded.drop 20 = Frame.sent rest ∧
      ∀ f ∈ rest.head?, r.buffer.data.length < f.encoded.length :=
  framing Buffer.valid_empty rfl (by decide)

end FixReader

end Swirly
