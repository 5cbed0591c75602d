import Swirly.Verified.Buffer.Fifo
import Swirly.Verified.Fix.Tokens
import Swirly.Web.Stream

/-!
# Framing a response

What is composed stands in the room of the buffer, out of its reader's sight, and the next response is begun over it.  The
digits of the length go backwards into the placeholder, so they stay inside the response as long as they fit there.
-/

namespace Swirly

namespace HttpStream

def Write.bytes : Write → Bytes
  | char c => [c]
  | block s => s

namespace Attempt

variable (a : Attempt)

def body : Bytes := a.writes.flatMap Write.bytes

def statusLine : Bytes := bytes "HTTP/1.1 " ++ bytes (toString a.status.code) ++ [32] ++ a.reason

/-- The headers before the content length. -/
def fixed : Bytes := if a.cache then [] else bytes "\r\nCache-Control: no-cache"

/-- What stands before the content length. -/
def front : Bytes := a.statusLine ++ a.fixed ++ bytes "\r\nContent-Type: application/json\r\nContent-Length:"

/-- The status line and the headers. -/
def head (length : Bytes) : Bytes :=
  (if withBody a.status then a.front ++ length else a.statusLine ++ a.fixed) ++ bytes "\r\n\r\n"

/-- The number of bytes of the body, after the spaces that make up the width of the placeholder. -/
def length : Bytes :=
  List.replicate (contentLength.length - (decimal a.body.length).length) 32 ++ decimal a.body.length

def response : Bytes := a.head a.length ++ a.body

/-- What is composed before the commit. -/
def composed : Bytes := a.head contentLength ++ a.body

def cloff : Nat := if withBody a.status then (a.front ++ contentLength).length else 0

/-- What is committed, for a body of any length. -/
def frame : Option Bytes :=
  if 0 < a.cloff then HttpBuf.putDigits a.cloff (streamsize a.body.length) a.composed else some a.composed

/-- The bytes that a commit adds. -/
def sent : Bytes := a.frame.getD []

end Attempt

end HttpStream

namespace HttpBuf

variable {hb : HttpBuf} {d out front rest old after s r : Bytes} {it n : Nat}

theorem overwrite_inside (front rest : Bytes) (c : UInt8) (inside : it < out.length) :
    overwrite (front ++ (out ++ rest)) (front.length + it) [c] = front ++ (overwrite out it [c] ++ rest) := by
  have before : (front ++ (out ++ rest)).take (front.length + it) = front ++ out.take it := by
    rw [List.take_length_add_append, List.take_append_of_le_length (Nat.le_of_lt inside)]
  have behind : (front ++ (out ++ rest)).drop (front.length + it + 1) = out.drop (it + 1) ++ rest := by
    rw [Nat.add_assoc, List.drop_length_add_append, List.drop_append_of_le_length inside]
  simp only [overwrite, List.length_singleton, before, behind, List.append_assoc]

/-- Digits that stay inside some bytes change nothing around them. -/
theorem putDigits_inside (front rest : Bytes) (inside : it ≤ out.length) (done : putDigits it n out = some r) :
    putDigits (front.length + it) n (front ++ (out ++ rest)) = some (front ++ (r ++ rest)) ∧ r.length = out.length := by
  induction it generalizing n out with
  | zero => cases done
  | succ it inductionHypothesis =>
    have length : (overwrite out it [UInt8.ofNat (48 + n % 10)]).length = out.length :=
      length_overwrite (by simpa using inside)
    rw [← Nat.add_assoc]
    simp only [putDigits] at done ⊢
    rw [overwrite_inside front rest _ inside]
    by_cases more : n / 10 > 0
    · rw [if_pos more] at done ⊢
      rw [← length]
      apply inductionHypothesis _ done
      omega
    · rw [if_neg more] at done ⊢
      cases done
      exact ⟨rfl, length⟩

/-- A number takes the place of bytes that are as many as its digits. -/
theorem putDigits_decimal (front after : Bytes) (width : old.length = (decimal n).length) :
    putDigits (front.length + old.length) n (front ++ (old ++ after)) = some (front ++ (decimal n ++ after)) := by
  induction n using Nat.strong_induction_on generalizing old after with
  | h n inductionHypothesis =>
    have nonempty : old ≠ [] := by
      rw [← List.length_pos_iff, width, List.length_pos_iff]
      exact decimal_ne_nil n
    obtain ⟨init, last, rfl⟩ : ∃ init last, old = init ++ [last] := ⟨_, _, (List.dropLast_append_getLast nonempty).symm⟩
    have written : overwrite (front ++ (init ++ [last] ++ after)) (front.length + init.length) [UInt8.ofNat (48 + n % 10)] =
        front ++ (init ++ UInt8.ofNat (48 + n % 10) :: after) := by
      have one := FixBuf.overwrite_one (front ++ init) after last (UInt8.ofNat (48 + n % 10))
      rw [List.length_append] at one
      simpa using one
    rw [List.length_append, List.length_singleton, ← Nat.add_assoc, putDigits, written]
    rw [List.length_append, List.length_singleton] at width
    by_cases more : n / 10 > 0
    · have large : 10 ≤ n := by omega
      rw [decimal_of_ge large, List.length_append, List.length_singleton, Nat.add_right_cancel_iff] at width
      simp only [if_pos more]
      rw [inductionHypothesis (n / 10) (by omega) _ width, decimal_of_ge large, digitChar_ofNat, List.append_assoc,
        List.singleton_append]
    · have small : n < 10 := by omega
      rw [decimal_of_lt small, List.length_singleton] at width
      have none_ : init = [] := List.eq_nil_of_length_eq_zero (by omega)
      subst none_
      simp only [if_neg more]
      rw [decimal_of_lt small, digitChar_ofNat, List.nil_append, List.singleton_append]

/-- The reader sees the earlier responses, and the room begins with what is composed so far. -/
structure Holds (d out : Bytes) (hb : HttpBuf) : Prop where
  valid : hb.buf.Valid
  data : hb.buf.data = d
  composed : ∃ rest, hb.buf.room = out ++ rest
  pcount : hb.pcount = out.length

/-- Something has been written, so the position of the response is known. -/
structure Begun (d out : Bytes) (hb : HttpBuf) : Prop extends Holds d out hb where
  pbase : hb.pbase = some hb.buf.wpos

theorem Holds.reset (valid : hb.buf.Valid) : Holds hb.buf.data [] hb.reset where
  valid := valid
  data := rfl
  composed := ⟨hb.buf.room, rfl⟩
  pcount := rfl

/-- The vector may have moved, so the position is taken again. -/
theorem Holds.xsputn (holds : Holds d out hb) (s : Bytes) : Begun d (out ++ s) (hb.xsputn s) := by
  obtain ⟨rest, composed⟩ := holds.composed
  obtain ⟨fresh, room, enough⟩ := Piped.room_prepare hb.buf holds.valid.inside (hb.pcount + s.length)
  obtain ⟨prepared, made⟩ : ∃ prepared, prepared = hb.buf.prepare (hb.pcount + s.length) := ⟨_, rfl⟩
  have valid : prepared.Valid := by
    rw [made]
    exact Buffer.prepare_valid holds.valid _
  rw [← made, composed, List.append_assoc] at room
  have fits : hb.pcount + s.length ≤ prepared.room.length := by
    rw [room]
    rw [composed] at enough
    simp only [List.length_append] at enough ⊢
    omega
  have stands : hb.xsputn s = { buf := prepared.write hb.pcount s, pbase := some prepared.wpos, pcount := hb.pcount + s.length } := by
    rw [made]
    rfl
  rw [stands]
  constructor
  case toHolds =>
    constructor
    case valid => exact Piped.write_valid valid _ _ fits
    case data =>
      show (prepared.write hb.pcount s).data = d
      rw [Piped.data_write prepared valid.inside _ _ fits, made, Buffer.data_prepare holds.valid]
      exact holds.data
    case composed =>
      exists (rest ++ fresh).drop s.length
      show (prepared.write hb.pcount s).room = _
      rw [Piped.room_write prepared valid.inside _ _ fits, room, holds.pcount, List.take_left, List.drop_length_add_append]
    case pcount =>
      rw [List.length_append, ← holds.pcount]
  case pbase => rfl

/-- The bytes composed are committed. -/
theorem Begun.commit (begun : Begun d out hb) : hb.commit.buf.Valid ∧ hb.commit.buf.data = d ++ out := by
  obtain ⟨rest, composed⟩ := begun.composed
  constructor
  · apply Buffer.commit_valid begun.valid
    have inside := begun.valid.inside
    have length := congrArg List.length composed
    rw [Buffer.room, List.length_drop, List.length_append] at length
    rw [begun.pcount]
    omega
  · show (hb.buf.commit hb.pcount).data = _
    rw [Buffer.room] at composed
    rw [Buffer.data_commit begun.valid, begun.data, composed, begun.pcount, List.take_left]

/-- The digits of the length go into what is composed. -/
theorem Begun.setContentLength (begun : Begun d out hb) (inside : it ≤ out.length) (done : putDigits it n out = some r) :
    ∃ next, hb.setContentLength it n = some next ∧ Begun d r next := by
  obtain ⟨rest, composed⟩ := begun.composed
  -- The digits go over the blanks in place, so what stands before the message and its length stay.
  have before : (hb.buf.buf.take hb.buf.wpos).length = hb.buf.wpos := List.length_take_of_le begun.valid.inside
  have whole : hb.buf.buf.take hb.buf.wpos ++ (out ++ rest) = hb.buf.buf := by
    rw [← composed]
    exact List.take_append_drop _ _
  obtain ⟨written, length⟩ := putDigits_inside (hb.buf.buf.take hb.buf.wpos) rest inside done
  rw [before, whole] at written
  obtain ⟨new, made⟩ : ∃ new, new = hb.buf.buf.take hb.buf.wpos ++ (r ++ rest) := ⟨_, rfl⟩
  have front : new.take hb.buf.wpos = hb.buf.buf.take hb.buf.wpos := by rw [made, List.take_left' before]
  have same : new.length = hb.buf.buf.length := by
    rw [made, ← whole, List.length_append, List.length_append, List.length_append, List.length_append, length, before]
    simp [begun.valid.inside]
  rw [← made] at written
  exists { hb with buf := { hb.buf with buf := new } }
  constructor
  · rw [HttpBuf.setContentLength, begun.pbase, Option.bind_some, written, Option.map_some]
  · constructor
    case toHolds =>
      constructor
      case valid =>
        refine ⟨begun.valid.ordered, ?_⟩
        show hb.buf.wpos ≤ new.length
        rw [same]
        exact begun.valid.inside
      case data =>
        rw [Buffer.data_eq]
        show (new.take hb.buf.wpos).drop hb.buf.rpos = d
        rw [front, ← Buffer.data_eq, begun.data]
      case composed =>
        exists rest
        show new.drop hb.buf.wpos = _
        rw [made, List.drop_left' before]
      case pcount => rw [length, ← begun.pcount]
    case pbase => exact begun.pbase

end HttpBuf

namespace HttpStream

open HttpBuf

variable {st t : HttpStream} {d out r : Bytes} {a : Attempt}

theorem begun_write (holds : HttpBuf.Holds d out st.buf) (w : Write) : Begun d (out ++ w.bytes) (st.write w).buf := by
  cases w with
  | char c => exact holds.xsputn [c]
  | block s => exact holds.xsputn s

theorem offsets_writeAll (st : HttpStream) (writes : List Write) :
    (st.writeAll writes).cloff = st.cloff ∧ (st.writeAll writes).hcount = st.hcount := by
  induction writes generalizing st with
  | nil => exact ⟨rfl, rfl⟩
  | cons w writes inductionHypothesis =>
    have rest := inductionHypothesis (st.write w)
    cases w with
    | char c => exact rest
    | block s => exact rest

theorem writeAll_cons (st : HttpStream) (w : Write) (writes : List Write) :
    st.writeAll (w :: writes) = (st.write w).writeAll writes := rfl

theorem begun_writeAll (begun : Begun d out st.buf) (writes : List Write) :
    Begun d (out ++ writes.flatMap Write.bytes) (st.writeAll writes).buf := by
  induction writes generalizing st out with
  | nil => simpa [writeAll] using begun
  | cons w writes inductionHypothesis =>
    rw [List.flatMap_cons, ← List.append_assoc]
    exact inductionHypothesis (begun_write begun.toHolds w)

/-- A response is begun over what was composed before it. -/
theorem begun_reset (valid : st.buf.buf.Valid) (a : Attempt) :
    Begun st.buf.buf.data (a.head contentLength) (st.reset a.status a.reason a.cache).buf ∧
      (st.reset a.status a.reason a.cache).cloff = a.cloff ∧
      (st.reset a.status a.reason a.cache).hcount = (a.head contentLength).length := by
  have holds : HttpBuf.Holds st.buf.buf.data [] ({ st with buf := st.buf.reset } : HttpStream).buf := HttpBuf.Holds.reset valid
  obtain ⟨line, opened⟩ : ∃ line : HttpStream, line = ({ st with buf := st.buf.reset } : HttpStream).writeAll
    [.block (bytes "HTTP/1.1 "), .block (bytes (toString a.status.code)), .char 32, .block a.reason] := ⟨_, rfl⟩
  have begun : Begun st.buf.buf.data a.statusLine line.buf := by
    have first := begun_writeAll (begun_write holds (.block (bytes "HTTP/1.1 ")))
      [.block (bytes (toString a.status.code)), .char 32, .block a.reason]
    rw [opened, writeAll_cons, Attempt.statusLine]
    simp only [List.flatMap_cons, List.flatMap_nil, List.append_nil, List.nil_append, Write.bytes] at first
    simp only [List.append_assoc]
    exact first
  obtain ⟨plain, cached⟩ : ∃ plain, plain = if a.cache then line else line.write (.block (bytes "\r\nCache-Control: no-cache")) :=
    ⟨_, rfl⟩
  -- The cache header is there unless the answer may be cached.
  have begun : Begun st.buf.buf.data (a.statusLine ++ a.fixed) plain.buf := by
    rw [cached, Attempt.fixed]
    cases a.cache with
    | true => simpa using begun
    | false =>
      rw [if_neg Bool.false_ne_true, if_neg Bool.false_ne_true]
      exact begun_write begun.toHolds (.block (bytes "\r\nCache-Control: no-cache"))
  -- The place of the length is remembered here: `cloff` counts what has been written so far.
  obtain ⟨typed, counted⟩ : ∃ typed : HttpStream, typed =
      if withBody a.status then
        { plain.write (.block (bytes "\r\nContent-Type: application/json\r\nContent-Length:" ++ contentLength)) with
          cloff := (plain.write (.block (bytes "\r\nContent-Type: application/json\r\nContent-Length:" ++ contentLength))).buf.pcount }
      else { plain with cloff := 0 } := ⟨_, rfl⟩
  have last : st.reset a.status a.reason a.cache =
      { typed.write (.block (bytes "\r\n\r\n")) with hcount := (typed.write (.block (bytes "\r\n\r\n"))).buf.pcount } := by
    rw [reset, counted, cached, opened]
  have headers : Begun st.buf.buf.data
      (if withBody a.status then a.front ++ contentLength else a.statusLine ++ a.fixed) typed.buf ∧ typed.cloff = a.cloff := by
    rw [counted, Attempt.cloff]
    cases withBody a.status with
    | true =>
      have more := begun_write begun.toHolds
        (.block (bytes "\r\nContent-Type: application/json\r\nContent-Length:" ++ contentLength))
      rw [Write.bytes, ← List.append_assoc, ← Attempt.front] at more
      rw [if_pos rfl, if_pos rfl, if_pos rfl]
      exact ⟨more, more.pcount⟩
    | false =>
      rw [if_neg Bool.false_ne_true, if_neg Bool.false_ne_true, if_neg Bool.false_ne_true]
      exact ⟨begun, rfl⟩
  have done := begun_write headers.1.toHolds (.block (bytes "\r\n\r\n"))
  rw [last]
  exact ⟨done, headers.2, done.pcount⟩

theorem begun_attempt (valid : st.buf.buf.Valid) (a : Attempt) :
    Begun st.buf.buf.data a.composed (st.attempt a).buf ∧ (st.attempt a).cloff = a.cloff ∧
      (st.attempt a).buf.pcount - (st.attempt a).hcount = a.body.length := by
  obtain ⟨begun, cloff, hcount⟩ := begun_reset valid a
  have composed := begun_writeAll begun a.writes
  have offsets := offsets_writeAll (st.reset a.status a.reason a.cache) a.writes
  refine ⟨composed, offsets.1.trans cloff, ?_⟩
  have pcount := composed.pcount
  rw [List.length_append] at pcount
  show ((st.reset a.status a.reason a.cache).writeAll a.writes).buf.pcount - _ = _
  rw [pcount, attempt, offsets.2, hcount]
  exact Nat.add_sub_cancel_left _ _

/-- Nothing of the responses that are given up comes into sight. -/
theorem unread_attempts (valid : st.buf.buf.Valid) (attempts : List Attempt) :
    (attempts.foldl attempt st).buf.buf.Valid ∧ (attempts.foldl attempt st).buf.buf.data = st.buf.buf.data := by
  induction attempts generalizing st with
  | nil => exact ⟨valid, rfl⟩
  | cons a attempts inductionHypothesis =>
    have begun := (begun_attempt valid a).1
    have rest := inductionHypothesis begun.valid
    rw [List.foldl_cons]
    exact ⟨rest.1, rest.2.trans begun.data⟩

theorem putDigits_some {it n : Nat} (fits : n < 10 ^ it) (digits : 0 < it) (inside : it ≤ out.length) :
    ∃ r, putDigits it n out = some r ∧ r.length = out.length := by
  induction it generalizing n out with
  | zero => omega
  | succ it inductionHypothesis =>
    have length : (overwrite out it [UInt8.ofNat (48 + n % 10)]).length = out.length :=
      length_overwrite (by simpa using inside)
    simp only [putDigits]
    by_cases more : n / 10 > 0
    · have fits : n / 10 < 10 ^ it := by
        rw [Nat.pow_succ] at fits
        omega
      have digits : 0 < it := by
        cases it with
        | zero => omega
        | succ it => exact Nat.succ_pos it
      rw [if_pos more, ← length]
      exact inductionHypothesis fits digits (by omega)
    · rw [if_neg more]
      exact ⟨_, rfl, length⟩

theorem cloff_le (a : Attempt) : a.cloff ≤ a.composed.length := by
  rw [Attempt.cloff, Attempt.composed, Attempt.head]
  cases withBody a.status with
  | true => simp
  | false => simp

/-- The number of bytes never runs over the headers before it. -/
theorem frame_sent (a : Attempt) : a.frame = some a.sent ∧ a.sent.length = a.composed.length := by
  have framed : ∃ r, a.frame = some r ∧ r.length = a.composed.length := by
    rw [Attempt.frame]
    by_cases patched : 0 < a.cloff
    · have wide : 19 ≤ a.cloff := by
        rw [Attempt.cloff] at patched ⊢
        split at patched
        next typed =>
          have named : 19 ≤ (bytes "\r\nContent-Type: application/json\r\nContent-Length:").length := by decide +kernel
          rw [if_pos typed, Attempt.front]
          simp only [List.length_append]
          omega
        next => exact absurd patched (Nat.lt_irrefl 0)
      have fits : streamsize a.body.length < 10 ^ a.cloff :=
        calc streamsize a.body.length
            < 2 ^ 63 := Nat.mod_lt _ (by decide)
          _ ≤ 10 ^ 19 := by decide
          _ ≤ 10 ^ a.cloff := Nat.pow_le_pow_right (by decide) wide
      rw [if_pos patched]
      exact putDigits_some fits patched (cloff_le a)
    · rw [if_neg patched]
      exact ⟨_, rfl, rfl⟩
  obtain ⟨r, framed, length⟩ := framed
  rw [Attempt.sent, framed]
  exact ⟨rfl, length⟩

/-- The last response is committed after what was there. -/
theorem compose_sent (valid : st.buf.buf.Valid) (abandoned : List Attempt) (last : Attempt) :
    ∃ done, st.compose (abandoned ++ [last]) = some done ∧ done.buf.buf.Valid ∧
      done.buf.buf.data = st.buf.buf.data ++ last.sent := by
  have framed := (frame_sent last).1
  obtain ⟨valid, unread⟩ := unread_attempts valid abandoned
  obtain ⟨begun, cloff, length⟩ := begun_attempt valid last
  rw [unread] at begun
  rw [compose, List.foldl_append, List.foldl_cons, List.foldl_nil]
  obtain ⟨composed, made⟩ : ∃ composed, composed = (abandoned.foldl attempt st).attempt last := ⟨_, rfl⟩
  rw [← made] at begun cloff length ⊢
  rw [Attempt.frame] at framed
  rw [commit, cloff, length]
  by_cases patched : 0 < last.cloff
  · rw [if_pos patched] at framed ⊢
    obtain ⟨next, done, begun⟩ := begun.setContentLength (cloff_le last) framed
    rw [done]
    exact ⟨_, rfl, begun.commit⟩
  · rw [if_neg patched] at framed ⊢
    rw [← Option.some.inj framed]
    exact ⟨_, rfl, begun.commit⟩

theorem length_decimal_le {n k : Nat} (fits : n < 10 ^ (k + 1)) : (decimal n).length ≤ k + 1 := by
  induction k generalizing n with
  | zero =>
    rw [decimal_of_lt (by simpa using fits)]
    exact Nat.le_refl 1
  | succ k inductionHypothesis =>
    by_cases small : n < 10
    · rw [decimal_of_lt small]
      exact Nat.succ_le_succ (Nat.zero_le _)
    · have shorter : n / 10 < 10 ^ (k + 1) := by
        rw [Nat.pow_succ] at fits
        omega
      rw [decimal_of_ge (Nat.le_of_not_lt small), List.length_append]
      exact Nat.succ_le_succ (inductionHypothesis shorter)

/-- A length that the placeholder has room for. -/
theorem frame_short (short : a.body.length < 10 ^ 11) : a.frame = some a.response := by
  rw [Attempt.frame, Attempt.response, Attempt.cloff, Attempt.composed, Attempt.head, Attempt.head]
  cases withBody a.status with
  | false => rfl
  | true =>
    have width := length_decimal_le (k := 10) short
    have size : streamsize a.body.length = a.body.length := Nat.mod_eq_of_lt (by omega)
    have digits : 0 < (decimal a.body.length).length := List.length_pos_iff.mpr (decimal_ne_nil _)
    obtain ⟨gap, spaces⟩ : ∃ gap, gap = 11 - (decimal a.body.length).length := ⟨_, rfl⟩
    -- The number takes the last of the blanks, and those before it stay.
    have split : contentLength = List.replicate gap 32 ++ contentLength.drop gap := by
      have front : contentLength.take gap = List.replicate gap 32 := by
        rw [contentLength, List.take_append_of_le_length (by rw [List.length_replicate]; omega), List.take_replicate,
          min_eq_left (by omega)]
      rw [← front, List.take_append_drop]
    have old : (contentLength.drop gap).length = (decimal a.body.length).length := by
      rw [List.length_drop]
      show 11 - gap = _
      omega
    have put := putDigits_decimal (a.front ++ List.replicate gap 32) (bytes "\r\n\r\n" ++ a.body) old
    have place : (a.front ++ contentLength).length = (a.front ++ List.replicate gap 32).length + (contentLength.drop gap).length := by
      conv_lhs => rw [split, ← List.append_assoc, List.length_append]
    have whole : a.front ++ contentLength ++ bytes "\r\n\r\n" ++ a.body =
        a.front ++ List.replicate gap 32 ++ (contentLength.drop gap ++ (bytes "\r\n\r\n" ++ a.body)) := by
      conv_lhs => rw [split]
      simp only [List.append_assoc]
    have positive : 0 < (a.front ++ contentLength).length := by
      rw [List.length_append]
      exact Nat.add_pos_right _ (by decide)
    simp only [if_true]
    rw [if_pos positive, size, place, whole, put, Attempt.length]
    have padding : contentLength.length - (decimal a.body.length).length = gap := spaces.symm
    rw [padding]
    simp only [List.append_assoc]

/-- Whatever is begun and given up, the buffer gets one response, after what it had. -/
theorem framed (st : HttpStream) (valid : st.buf.buf.Valid) (abandoned : List Attempt) (last : Attempt)
    (short : last.body.length < 10 ^ 10) :
    ∃ done, st.compose (abandoned ++ [last]) = some done ∧ done.buf.buf.Valid ∧
      done.buf.buf.data = st.buf.buf.data ++ last.response := by
  have sent : last.sent = last.response := by
    rw [Attempt.sent, frame_short (by omega)]
    rfl
  rw [← sent]
  exact compose_sent valid abandoned last

/-- A buffer whose first byte has been read, and whose second has not. -/
def unsent : HttpStream := .make { buf := [1, 2, 3], rpos := 1, wpos := 2 }

/-- Half an answer. -/
def half : Attempt := { status := .ok, reason := HttpStatus.ok.reason, cache := true, writes := [.block (bytes "[1,2")] }

def gone : Attempt :=
  { status := .notFound, reason := HttpStatus.notFound.reason, cache := false, writes := [.block (bytes "gone"), .char 10] }

theorem framed_gone :
    ∃ done, unsent.compose [half, gone] = some done ∧ done.buf.buf.data =
      2 :: bytes ("HTTP/1.1 404 Not Found\r\nCache-Control: no-cache\r\nContent-Type: application/json\r\n" ++
        "Content-Length:          5\r\n\r\ngone\n") := by
  have valid : unsent.buf.buf.Valid := ⟨by decide, by decide⟩
  obtain ⟨done, composed, -, data⟩ := framed unsent valid [half] gone (by decide +kernel)
  refine ⟨done, composed, ?_⟩
  rw [data]
  decide +kernel

end HttpStream

end Swirly
