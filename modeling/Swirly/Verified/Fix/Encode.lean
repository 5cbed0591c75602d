import Swirly.Verified.Fix.Compose
import Swirly.Verified.Fix.Framing

/-!
# Encoding and decoding

The placeholder for the length has four digits.  A message whose length has no more is a well-formed one, and a parser gets
back what was composed; a longer length runs over the name of its field.
-/

namespace Swirly

namespace FixStream

def Write.bytes : Write → Bytes
  | char c => [c]
  | block s => s

/-- A message to compose. -/
structure Composition where
  major : Fin 10
  minor : Fin 10
  writes : List Write

namespace Composition

variable (m : Composition)

def ver : FixVersion := { major := m.major, minor := m.minor }

def body : Bytes := m.writes.flatMap Write.bytes

def told : FixVersion × Bytes := (m.ver, m.body)

end Composition

/-- The bytes are a well-formed message: its length is the number of bytes of the body, and its check sum the sum of the bytes
before it modulo 256. -/
def Encodes (m : Composition) (out : Bytes) : Prop :=
  ∃ f : Frame, out = f.encoded ∧ f.major = m.major ∧ f.minor = m.minor ∧ f.body = m.body ∧
    ofDigits 0 [f.check.1, f.check.2.1, f.check.2.2] = sumBytes (out.take (out.length - FixParser.checkSumLen)) % 256

/-- The committed bytes that nobody has read. -/
def data (st : FixStream) : Bytes := st.buf.buf.data

/-- Compose messages one after the other.  The result has the bytes that each of them has added. -/
def composeAll (st : FixStream) : List Composition → Option (FixStream × List Bytes)
  | [] => some (st, [])
  | m :: ms =>
    (st.compose m.ver m.writes).bind fun t =>
      (composeAll t ms).map fun (u, outs) => (u, t.data.drop st.data.length :: outs)

/-- The messages are committed after what was there, each is well-formed, and a parser gets all of them back. -/
def RoundTrips (st : FixStream) (ms : List Composition) : Prop :=
  ∃ t outs, st.composeAll ms = some (t, outs) ∧ t.data = st.data ++ outs.flatten ∧ List.Forall₂ Encodes ms outs ∧
    ∃ fuel told, FixParser.parse fuel .make outs.flatten =
        some { parser := .make, calls := told, result := .returned outs.flatten.length } ∧
      told.map FixMessage.told = ms.map Composition.told

variable {st t : FixStream} {m : Composition} {ms : List Composition} {out tail : Bytes} {b : Buffer}

/-- The header before its length is known. -/
def placeholder (m : Composition) : Bytes :=
  beginString m.major m.minor ++ bytes "9=" ++ (List.replicate 4 48 ++ [soh])

theorem length_placeholder (m : Composition) : (placeholder m).length = 17 := rfl

theorem toString_digit (d : Fin 10) : bytes (toString (d : Int)) = [digitChar d] := by
  revert d
  decide

theorem begun_reset (valid : st.buf.buf.Valid) (m : Composition) :
    FixBuf.Begun st.buf.buf (placeholder m) (st.reset m.ver).buf ∧ (st.reset m.ver).bloff = 17 := by
  have begun := ((((FixBuf.Holds.reset st.buf valid).xsputn valid (bytes "8=FIX.")).toHolds.xsputn valid
    (bytes (toString m.ver.major))).toHolds.xsputn valid (bytes ".")).toHolds.xsputn valid (bytes (toString m.ver.minor))
  have begun := begun.toHolds.xsputn valid ([soh] ++ bytes "9=0000" ++ [soh])
  have whole : [] ++ bytes "8=FIX." ++ bytes (toString m.ver.major) ++ bytes "." ++ bytes (toString m.ver.minor) ++
      ([soh] ++ bytes "9=0000" ++ [soh]) = placeholder m := by
    rw [Composition.ver, toString_digit, toString_digit]
    rfl
  rw [whole] at begun
  exact ⟨begun, begun.pcount.trans (length_placeholder m)⟩

theorem begun_writes (valid : b.Valid) (begun : FixBuf.Begun b out st.buf) (writes : List Write) :
    FixBuf.Begun b (out ++ writes.flatMap Write.bytes) (writes.foldl write st).buf ∧
      (writes.foldl write st).bloff = st.bloff := by
  induction writes generalizing st out with
  | nil => exact ⟨by simpa using begun, rfl⟩
  | cons w writes inductionHypothesis =>
    rw [List.foldl_cons, List.flatMap_cons, ← List.append_assoc]
    cases w with
    | char c =>
      have begun : FixBuf.Begun b (out ++ [c]) (st.write (.char c)).buf := begun.toHolds.overflow valid c
      exact inductionHypothesis begun
    | block s =>
      have begun : FixBuf.Begun b (out ++ s) (st.write (.block s)).buf := begun.toHolds.xsputn valid s
      exact inductionHypothesis begun

/-- The digits of the check sum. -/
def checkOf (sum : Nat) : Fin 10 × Fin 10 × Fin 10 :=
  (Fin.ofNat 10 (sum % 256 / 10 / 10), Fin.ofNat 10 (sum % 256 / 10), Fin.ofNat 10 (sum % 256))

theorem putCheckSum_eq (sum : Nat) : putCheckSum sum = trailer (checkOf sum) := rfl

theorem value_checkOf (sum : Nat) :
    ofDigits 0 [(checkOf sum).1, (checkOf sum).2.1, (checkOf sum).2.2] = sum % 256 := by
  simp only [checkOf, ofDigits, List.foldl_cons, List.foldl_nil, Fin.val_ofNat]
  omega

/-- The trailer is put after the message, and all of it is committed. -/
theorem data_commit (fb : FixBuf) (out : Bytes) (valid : b.Valid) (rpos : fb.buf.rpos = b.rpos) (wpos : fb.buf.wpos = b.wpos)
    (pbase : fb.pbase = b.wpos) (pcount : fb.pcount = out.length) (some_ : out ≠ [])
    (room : b.wpos + out.length + FixParser.checkSumLen ≤ fb.buf.buf.length)
    (content : fb.buf.buf.take (b.wpos + out.length) = b.buf.take b.wpos ++ out) :
    fb.commit.buf.Valid ∧ fb.commit.buf.data = b.data ++ (out ++ putCheckSum fb.sum) := by
  have positive : 0 < fb.pcount := by
    rw [pcount]
    exact List.length_pos_iff.mpr some_
  have check : (putCheckSum fb.sum).length = FixParser.checkSumLen := rfl
  have length : (overwrite fb.buf.buf (b.wpos + out.length) (putCheckSum fb.sum)).length = fb.buf.buf.length :=
    length_overwrite (by omega)
  have ordered := valid.ordered
  have before : b.rpos ≤ (b.buf.take b.wpos).length := by
    rw [List.length_take_of_le valid.inside]
    exact ordered
  rw [FixBuf.commit, if_pos positive]
  constructor
  · constructor
    · show fb.buf.rpos ≤ fb.buf.wpos + (fb.pcount + FixParser.checkSumLen)
      omega
    · show fb.buf.wpos + (fb.pcount + FixParser.checkSumLen) ≤ (overwrite fb.buf.buf (fb.pbase + fb.pcount) _).length
      rw [pbase, pcount, length, wpos]
      omega
  · have written : (overwrite fb.buf.buf (b.wpos + out.length) (putCheckSum fb.sum)).take
        (b.wpos + out.length + (putCheckSum fb.sum).length) = _ := take_overwrite_end (by omega)
    rw [Buffer.data_eq, Buffer.data_eq]
    show (List.take (fb.buf.wpos + (fb.pcount + FixParser.checkSumLen))
      (overwrite fb.buf.buf (fb.pbase + fb.pcount) (putCheckSum fb.sum))).drop fb.buf.rpos = _
    rw [pbase, pcount, wpos, rpos, ← Nat.add_assoc, ← check, written, content, List.append_assoc,
      List.drop_append_of_le_length before]

/-- A message with a length of at most four digits. -/
theorem compose_short (valid : st.buf.buf.Valid) (short : m.body.length ≤ 9999) :
    ∃ t out, st.compose m.ver m.writes = some t ∧ t.buf.buf.Valid ∧ t.data = st.data ++ out ∧ Encodes m out := by
  obtain ⟨begun, bloff⟩ := begun_reset valid m
  obtain ⟨begun, bloff'⟩ := begun_writes valid begun m.writes
  rw [bloff] at bloff'
  obtain ⟨s, composed⟩ : ∃ s, s = m.writes.foldl write (st.reset m.ver) := ⟨_, rfl⟩
  rw [← composed, show m.writes.flatMap Write.bytes = m.body from rfl] at begun
  rw [← composed] at bloff'
  have total : (placeholder m ++ m.body).length = 17 + m.body.length := by rw [List.length_append, length_placeholder]
  have length : s.buf.pcount - s.bloff = m.body.length := by
    rw [begun.pcount, bloff', total]
    omega
  obtain ⟨before, first⟩ : ∃ before, before = st.buf.buf.buf.take st.buf.buf.wpos ++ (beginString m.major m.minor ++ bytes "9=") :=
    ⟨_, rfl⟩
  obtain ⟨rest, last⟩ : ∃ rest, rest = s.buf.buf.buf.drop (st.buf.buf.wpos + (placeholder m ++ m.body).length) := ⟨_, rfl⟩
  have position : before.length = st.buf.buf.wpos + 12 := by
    rw [first, List.length_append, List.length_take_of_le valid.inside]
    rfl
  have content : s.buf.buf.buf = before ++ (List.replicate (3 + 1) 48 ++ (soh :: (m.body ++ rest))) := by
    rw [← List.take_append_drop (st.buf.buf.wpos + (placeholder m ++ m.body).length) s.buf.buf.buf, ← last, begun.content,
      first, placeholder]
    simp
  have fits : m.body.length < 10 ^ (3 + 1) := by omega
  obtain ⟨sum, done, added⟩ := FixBuf.putLength_padded content fits
  obtain ⟨digits, numeral⟩ : ∃ digits, digits = digitsOf (3 + 1) m.body.length := ⟨_, rfl⟩
  obtain ⟨message, made⟩ : ∃ message, message = beginString m.major m.minor ++ lengthField digits ++ m.body := ⟨_, rfl⟩
  rw [← numeral] at done added
  have digits_length : digits.length = 4 := by rw [numeral, length_digitsOf]
  have message_length : message.length = 17 + m.body.length := by
    rw [made, List.length_append, List.length_append, Frame.length_beginString, Frame.length_lengthField, digits_length]
  have vector : before ++ (digits.map digitChar ++ (soh :: (m.body ++ rest))) =
      (st.buf.buf.buf.take st.buf.buf.wpos ++ message) ++ rest := by
    rw [first, made, lengthField]
    simp
  have written : st.buf.buf.wpos + message.length = (st.buf.buf.buf.take st.buf.buf.wpos ++ message).length := by
    rw [List.length_append, List.length_take_of_le valid.inside]
  have room := begun.room
  have same : (st.buf.buf.buf.take st.buf.buf.wpos ++ message ++ rest).length = s.buf.buf.buf.length := by
    rw [← vector, content]
    simp only [List.length_append, List.length_map, digits_length, List.length_replicate]
  rw [vector] at done
  have some_ : message ≠ [] := by
    intro nothing
    rw [nothing, List.length_nil] at message_length
    omega
  obtain ⟨fb, named⟩ : ∃ fb : FixBuf, fb = { s.buf with
      buf := { s.buf.buf with buf := st.buf.buf.buf.take st.buf.buf.wpos ++ message ++ rest }
      sum } := ⟨_, rfl⟩
  rw [← named] at done
  have committed : fb.commit.buf.Valid ∧ fb.commit.buf.data = st.buf.buf.data ++ (message ++ putCheckSum fb.sum) := by
    apply data_commit fb message valid
    · rw [named, ← begun.rpos]
    · rw [named, ← begun.wpos]
    · rw [named, ← begun.pbase]
    · rw [named, message_length, ← total, ← begun.pcount]
    · exact some_
    · rw [named, same]
      omega
    · rw [named, written]
      exact List.take_left
  rw [show fb.sum = sum by rw [named]] at committed
  have summed : sum % 256 = sumBytes message % 256 := by
    have before_ := begun.sum
    have added : (sum + sumBytes (List.replicate 4 48)) % 256 = (s.buf.sum + sumBytes (digits.map digitChar)) % 256 := added
    rw [placeholder] at before_
    rw [made, lengthField]
    simp only [sumBytes_append] at before_ ⊢
    omega
  refine ⟨{ s with buf := fb.commit }, message ++ putCheckSum sum, ?_, committed.1, committed.2, ?_⟩
  · have at_ : before.length + 3 + 1 = s.buf.pbase + (s.bloff - 1) := by
      rw [position, begun.pbase, bloff']
    rw [at_] at done
    rw [compose, ← composed, commit, if_pos (by omega), length, FixBuf.setBodyLength, done]
    rfl
  · refine ⟨{ major := m.major, minor := m.minor, len := digits, body := m.body, check := checkOf sum,
              counted := by rw [numeral]; exact ofDigits_digitsOf fits
              sized := by rw [digits_length]; simp only [FixParser.bodyLenStart, FixParser.checkSumLen]; omega },
      ?_, rfl, rfl, rfl, ?_⟩
    · show message ++ putCheckSum sum = beginString m.major m.minor ++ lengthField digits ++ m.body ++ trailer (checkOf sum)
      rw [made, putCheckSum_eq]
    · have preceding : (message ++ putCheckSum sum).length - FixParser.checkSumLen = message.length := by
        rw [List.length_append, show (putCheckSum sum).length = FixParser.checkSumLen from rfl, Nat.add_sub_cancel]
      rw [preceding, List.take_left, value_checkOf, summed]

/-- Whatever the length, the buffer stays valid, and a length of more than four digits runs over the sign before it. -/
theorem compose_any (valid : st.buf.buf.Valid) (done : st.compose m.ver m.writes = some t) :
    t.buf.buf.Valid ∧ (9999 < m.body.length → ∃ d, (t.data.drop st.data.length)[11]? = some (digitChar d)) := by
  obtain ⟨begun, bloff⟩ := begun_reset valid m
  obtain ⟨begun, bloff'⟩ := begun_writes valid begun m.writes
  rw [bloff] at bloff'
  obtain ⟨s, composed⟩ : ∃ s, s = m.writes.foldl write (st.reset m.ver) := ⟨_, rfl⟩
  rw [← composed, show m.writes.flatMap Write.bytes = m.body from rfl] at begun
  rw [← composed] at bloff'
  have total : (placeholder m ++ m.body).length = 17 + m.body.length := by rw [List.length_append, length_placeholder]
  have length : s.buf.pcount - s.bloff = m.body.length := by
    rw [begun.pcount, bloff', total]
    omega
  rw [compose, ← composed, commit, if_pos (by omega), length, FixBuf.setBodyLength, bloff', begun.pbase] at done
  obtain ⟨fb, put, rfl⟩ := Option.map_eq_some_iff.mp done
  have room := begun.room
  rw [total] at room
  have keeps := FixBuf.putLength_keeps put (by omega)
  have pcount : fb.pcount = 17 + m.body.length := by rw [keeps.pcount, begun.pcount, total]
  have pbase : fb.pbase = st.buf.buf.wpos := by rw [keeps.pbase, begun.pbase]
  have wpos : fb.buf.wpos = st.buf.buf.wpos := by rw [keeps.wpos, begun.wpos]
  have rpos : fb.buf.rpos = st.buf.buf.rpos := by rw [keeps.rpos, begun.rpos]
  have roomy : st.buf.buf.wpos + (17 + m.body.length) + FixParser.checkSumLen ≤ fb.buf.buf.length := by
    rw [keeps.length]
    omega
  obtain ⟨before, last⟩ : ∃ before, before = st.buf.buf.wpos + (17 + m.body.length) := ⟨_, rfl⟩
  have committed : (FixBuf.commit fb).buf =
      { buf := overwrite fb.buf.buf before (putCheckSum fb.sum)
        rpos := st.buf.buf.rpos
        wpos := st.buf.buf.wpos + (17 + m.body.length + FixParser.checkSumLen) } := by
    rw [FixBuf.commit, if_pos (by omega)]
    simp only [FixBuf.put, Buffer.commit, pbase, pcount, wpos, rpos, last]
  have trailing : (overwrite fb.buf.buf before (putCheckSum fb.sum)).length = fb.buf.buf.length :=
    length_overwrite (show before + FixParser.checkSumLen ≤ _ by omega)
  have ordered := valid.ordered
  have inside := valid.inside
  refine ⟨?_, fun long => ?_⟩
  · rw [committed]
    exact ⟨by simp only; omega, by simp only [trailing]; omega⟩
  · have digit : fb.buf.buf[st.buf.buf.wpos + 11]? = some (digitChar (Fin.ofNat 10 (m.body.length / 10 ^ 4))) :=
      FixBuf.putLength_digit put (by omega) (.inr (Nat.div_pos (by omega) (by decide)))
    refine ⟨Fin.ofNat 10 (m.body.length / 10 ^ 4), ?_⟩
    rw [← digit]
    show (fb.commit.buf.data.drop st.buf.buf.data.length)[11]? = _
    rw [committed, Buffer.length_data valid, Buffer.data, Buffer.size, List.getElem?_drop,
      List.getElem?_take_of_lt (by simp only [Buffer.size]; omega), List.getElem?_drop]
    have position : st.buf.buf.rpos + (st.buf.buf.wpos - st.buf.buf.rpos + 11) = st.buf.buf.wpos + 11 := by omega
    simp only [position]
    have kept : (overwrite fb.buf.buf before (putCheckSum fb.sum)).take before = fb.buf.buf.take before :=
      take_overwrite (by omega) (Nat.le_refl before)
    have at_ := congrArg (fun buf : Bytes => buf[st.buf.buf.wpos + 11]?) kept
    simp only [List.getElem?_take_of_lt (show st.buf.buf.wpos + 11 < before by omega)] at at_
    exact at_

/-- The sign before the length is there in a well-formed message. -/
theorem Encodes.sign (encodes : Encodes m out) : out[11]? = some 61 := by
  obtain ⟨f, rfl, -⟩ := encodes
  rfl

/-- Each message adds what it adds to a valid buffer. -/
theorem composeAll_short (valid : st.buf.buf.Valid) (short : ∀ m ∈ ms, m.body.length ≤ 9999) :
    ∃ t outs, st.composeAll ms = some (t, outs) ∧ t.data = st.data ++ outs.flatten ∧ List.Forall₂ Encodes ms outs := by
  induction ms generalizing st with
  | nil => exact ⟨st, [], rfl, by simp, .nil⟩
  | cons m ms inductionHypothesis =>
    obtain ⟨shortFirst, short⟩ := List.forall_mem_cons.mp short
    obtain ⟨t, out, composed, valid, added, encodes⟩ := compose_short valid shortFirst
    obtain ⟨u, outs, done, data, rest⟩ := inductionHypothesis valid short
    have new : t.data.drop st.data.length = out := by rw [added, List.drop_left]
    refine ⟨u, out :: outs, ?_, ?_, .cons encodes rest⟩
    · rw [composeAll, composed, Option.bind_some, done, Option.map_some, new]
    · rw [data, added, List.flatten_cons, List.append_assoc]

/-- Each message that comes out well-formed has a short length. -/
theorem short_of_encodes {outs : List Bytes} (valid : st.buf.buf.Valid) (done : st.composeAll ms = some (t, outs))
    (encodes : List.Forall₂ Encodes ms outs) : ∀ m ∈ ms, m.body.length ≤ 9999 := by
  induction ms generalizing st outs with
  | nil => simp
  | cons m ms inductionHypothesis =>
    rw [composeAll] at done
    obtain ⟨s, composed, done⟩ := Option.bind_eq_some_iff.mp done
    obtain ⟨⟨u, more⟩, later, same⟩ := Option.map_eq_some_iff.mp done
    cases same
    obtain ⟨valid, long⟩ := compose_any valid composed
    cases encodes with
    | cons first rest =>
      refine List.forall_mem_cons.mpr ⟨?_, inductionHypothesis valid later rest⟩
      by_contra more
      obtain ⟨d, digit⟩ := long (by omega)
      rw [first.sign] at digit
      have sign : ∀ d : Fin 10, (61 : UInt8) ≠ digitChar d := by decide
      exact sign d (Option.some.inj digit)

/-- Well-formed messages are read back. -/
theorem parse_flatten {outs : List Bytes} (encodes : List.Forall₂ Encodes ms outs) :
    ∃ fuel told, FixParser.parse fuel .make outs.flatten =
        some { parser := .make, calls := told, result := .returned outs.flatten.length } ∧
      told.map FixMessage.told = ms.map Composition.told := by
  obtain ⟨frames, sent, told⟩ : ∃ frames, outs.flatten = Frame.sent frames ∧
      frames.map Frame.told = ms.map Composition.told := by
    induction encodes with
    | nil => exact ⟨[], rfl, rfl⟩
    | @cons m out ms outs first rest inductionHypothesis =>
      obtain ⟨f, rfl, major, minor, body, -⟩ := first
      obtain ⟨frames, sent, told⟩ := inductionHypothesis
      refine ⟨f :: frames, ?_, ?_⟩
      · rw [List.flatten_cons, sent, Frame.sent_cons]
      · rw [List.map_cons, List.map_cons, told, Frame.told, Frame.ver, major, minor, body]
        rfl
  have waits : FixParser.Waits .make [] := .header rfl
  obtain ⟨calls, same, parsed⟩ := Frame.enter_sent waits (Nat.lt_succ_self frames.length) 0 []
  refine ⟨frames.length + 1, calls, ?_, same.trans told⟩
  rw [List.append_nil, ← sent] at parsed
  simpa [FixParser.parse_make] using parsed

/-- Messages come back exactly if none of them has more than 9999 bytes. -/
theorem roundTrips_iff (valid : st.buf.buf.Valid) : RoundTrips st ms ↔ ∀ m ∈ ms, m.body.length ≤ 9999 := by
  constructor
  · rintro ⟨t, outs, done, -, encodes, -⟩
    exact short_of_encodes valid done encodes
  · intro short
    obtain ⟨t, outs, done, data, encodes⟩ := composeAll_short valid short
    exact ⟨t, outs, done, data, encodes, parse_flatten encodes⟩

/-- A stream on an empty buffer. -/
def new : FixStream := { buf := { buf := .empty, pbase := 0, pcount := 0, sum := 0 }, bloff := 0 }

/-- Two messages, one of them empty. -/
theorem roundTrips_iff_two :
    RoundTrips new [⟨4, 3, [.block (bytes "35=D"), .char 1]⟩, ⟨4, 2, []⟩] ↔
      ∀ m ∈ [(⟨4, 3, [.block (bytes "35=D"), .char 1]⟩ : Composition), ⟨4, 2, []⟩], m.body.length ≤ 9999 :=
  roundTrips_iff Buffer.valid_empty

/-- Ten thousand bytes. -/
theorem roundTrips_long : ¬ RoundTrips new [⟨4, 3, [.block (List.replicate 10000 65)]⟩] := by
  rintro ⟨t, outs, done, -, encodes, -⟩
  have short := short_of_encodes Buffer.valid_empty done encodes _ (List.mem_singleton_self _)
  rw [Composition.body, List.flatMap_singleton, Write.bytes, List.length_replicate] at short
  omega

end FixStream

end Swirly
