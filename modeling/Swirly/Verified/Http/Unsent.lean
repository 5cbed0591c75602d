import Swirly.Verified.Http.Framed
import Swirly.Verified.Http.Closing

/-!
# Responses on their way

What the socket has taken and what is in the buffer are the responses to the requests that were handled, one after the other.
A response is never empty, so the first one that meets an empty buffer turns the interest in writing on, and the write that
empties the buffer turns it off.
-/

universe u v

namespace Swirly

namespace Session

variable {σ : Type v} {π : Type u} {host : Host σ π} {s t : Session σ π} {a : Answers}

/-- The response to a request that was handled. -/
def response (host : Host σ π) (handled : σ × HttpRequest) : Bytes :=
  (host.handleRequest handled.1 handled.2).1.last.sent

/-- The connection is kept, nothing fails, and the socket takes some of the bytes or all of them. -/
def Fine (host : Host σ π) (s : Session σ π) : Event σ → Prop
  | .io ready a =>
    (ready &&& s.events &&& eventOut ≠ 0 →
      (∃ count ∈ a.written, 1 ≤ count ∧ count ≤ s.buf.size) ∧ a.drainedFails = false ∧
        host.parser.shouldKeepAlive s.parser = true) ∧
    (ready &&& s.events &&& eventIn ≠ 0 →
      (∃ data ∈ a.read, data ≠ [] ∧ (host.parser.execute s.parser data).2.1 = true ∧
        (s.sess.parse host.validUrl (host.parser.execute s.parser data).1).1 = true) ∧
        a.messageFails = false ∧ a.timerFails = false)
  | .timer => False
  | .elsewhere _ => True

/-- The interest that goes with the unsent bytes. -/
def interest (unsent : Bytes) : UInt32 := if unsent = [] then eventIn else eventIn ||| eventOut

structure Delivers (host : Host σ π) (s : Session σ π) : Prop where
  valid : s.buf.Valid
  bytes : s.sent ++ s.buf.data = (s.handled.map (response host)).flatten
  handed : s.handled.map Prod.snd = s.sess.handed
  subscribed : s.subscribed = true
  events : s.events = interest s.buf.data

theorem sent_ne_nil (a : HttpStream.Attempt) : a.sent ≠ [] := by
  have length := (HttpStream.frame_sent a).2
  have line : 0 < a.composed.length := by
    rw [HttpStream.Attempt.composed, HttpStream.Attempt.head]
    simp only [List.length_append]
    have last : 0 < (bytes "\r\n\r\n").length := by decide +kernel
    omega
  rw [← List.length_pos_iff, length]
  exact line

theorem setEvents_done (s : Session σ π) (events : UInt32) :
    s.setEvents false events = (.done, { s.did .setEvents with events }) := by
  rw [setEvents]
  dsimp only
  split
  next => rfl
  next same => rw [← not_not.mp same]

theorem size_eq_zero {b : Buffer} (valid : b.Valid) : b.size = 0 ↔ b.data = [] := by
  rw [← Buffer.length_data valid, List.length_eq_zero_iff]

theorem handed_messageEnd {sess next : HttpSess} {validUrl : Bytes → Bool} (flushed : sess.onMessageEnd validUrl = (true, next)) :
    next.handed = sess.handed ++ [sess.req] := by
  rw [HttpSess.onMessageEnd] at flushed
  split at flushed
  next => cases flushed
  next =>
    cases flushed
    rfl

/-- A request is handled, and its response goes behind those that wait. -/
theorem Delivers.onMessageEnd (delivers : Delivers host s) {sess : HttpSess}
    (flushed : s.sess.onMessageEnd host.validUrl = (true, sess)) :
    ∃ t, Session.onMessageEnd host s false = some (true, t) ∧ Delivers host t ∧ t.sess = sess := by
  obtain ⟨os, composed, valid, data⟩ := HttpStream.compose_sent delivers.valid
    (host.handleRequest s.server s.sess.req).1.abandoned (host.handleRequest s.server s.sess.req).1.last
  obtain ⟨next, made⟩ : ∃ next : Session σ π, next =
    { s with server := (host.handleRequest s.server s.sess.req).2, sess, os, handled := s.handled ++ [(s.server, s.sess.req)] } :=
    ⟨_, rfl⟩
  have buf : next.buf.data = s.buf.data ++ response host (s.server, s.sess.req) := by
    rw [made]
    exact data
  have unsent : next.buf.data ≠ [] := by
    rw [buf]
    exact List.append_ne_nil_of_right_ne_nil _ (sent_ne_nil _)
  have bytes : next.sent ++ next.buf.data = (next.handled.map (response host)).flatten := by
    rw [buf, made]
    simp only [List.map_append, List.map_cons, List.map_nil, List.flatten_append, List.flatten_cons, List.flatten_nil,
      List.append_nil, ← delivers.bytes, List.append_assoc]
  have handed : next.handled.map Prod.snd = next.sess.handed := by
    rw [made]
    simp only [List.map_append, List.map_cons, List.map_nil, delivers.handed, handed_messageEnd flushed]
  have valid : next.buf.Valid := by
    rw [made]
    exact valid
  have subscribed : next.subscribed = true := by
    rw [made]
    exact delivers.subscribed
  have same : next.sess = sess := by rw [made]
  have writable : interest next.buf.data = eventIn ||| eventOut := if_neg unsent
  rw [Session.onMessageEnd, flushed]
  simp only [composed, Option.map_some, ← made]
  -- Only a first response changes the interest; later ones find it already in both events.
  by_cases empty : s.buf.size = 0
  · rw [if_pos empty, setEvents_done]
    exact ⟨_, rfl, ⟨valid, bytes, handed, subscribed, writable.symm⟩, same⟩
  · rw [if_neg empty]
    have events : next.events = s.events := by rw [made]
    refine ⟨next, rfl, ⟨valid, bytes, handed, subscribed, ?_⟩, same⟩
    rw [events, delivers.events, writable]
    exact if_neg fun none_ => empty ((size_eq_zero delivers.valid).mpr none_)

/-- What is found before the end of a message changes the request only. -/
theorem handed_on {sess next : HttpSess} {validUrl : Bytes → Bool} {c : HttpCallback} (other : c ≠ .messageEnd)
    {going : Bool} (found : sess.on validUrl c = (going, next)) : next.handed = sess.handed := by
  cases c with
  | messageEnd => exact absurd rfl other
  | messageBegin | url _ | headerField _ | headerValue _ | headersEnd _ =>
    cases found
    rfl
  | body sv =>
    rw [HttpSess.on, HttpSess.onBody] at found
    split at found
    next =>
      cases found
      rfl
    next =>
      cases found
      rfl

theorem Delivers.on (delivers : Delivers host s) {c : HttpCallback} {sess : HttpSess}
    (found : s.sess.on host.validUrl c = (true, sess)) :
    ∃ t, Session.on host s false c = some (true, t) ∧ Delivers host t ∧ t.sess = sess := by
  by_cases ends : c = .messageEnd
  · subst ends
    exact delivers.onMessageEnd found
  · have same : Session.on host s false c = some (true, { s with sess }) := by
      cases c with
      | messageEnd => exact absurd rfl ends
      | messageBegin | url _ | headerField _ | headerValue _ | headersEnd _ | body _ =>
        rw [Session.on, found]
        exact ends
    refine ⟨_, same, ⟨delivers.valid, delivers.bytes, ?_, delivers.subscribed, delivers.events⟩, rfl⟩
    exact delivers.handed.trans (handed_on ends found).symm

/-- One read may bring any number of requests. -/
theorem Delivers.onAll (delivers : Delivers host s) {cs : List HttpCallback}
    (going : (s.sess.parse host.validUrl cs).1 = true) :
    ∃ t, Session.onAll host false cs s = some (true, t) ∧ Delivers host t := by
  induction cs generalizing s with
  | nil => exact ⟨s, rfl, delivers⟩
  | cons c cs inductionHypothesis =>
    rw [HttpSess.parse] at going
    split at going
    next sess found =>
      obtain ⟨t, one, delivers, same⟩ := delivers.on found
      rw [← same] at going
      obtain ⟨u, rest, delivers⟩ := inductionHypothesis delivers going
      refine ⟨u, ?_, delivers⟩
      rw [Session.onAll, one]
      exact rest
    next => cases going

theorem Delivers.onReadable (delivers : Delivers host s) {data : Bytes} (read : a.read = some data) (nonempty : data ≠ [])
    (through : (host.parser.execute s.parser data).2.1 = true)
    (going : (s.sess.parse host.validUrl (host.parser.execute s.parser data).1).1 = true) (messages : a.messageFails = false)
    (timer : a.timerFails = false) : ∃ t, Session.onReadable host s a = some (.done, t) ∧ Delivers host t := by
  obtain ⟨parsing, made⟩ : ∃ parsing : Session σ π, parsing =
    { (s.did .read).did .parse with parser := (host.parser.execute s.parser data).2.2 } := ⟨_, rfl⟩
  have same : parsing.sess = s.sess := by
    rw [made]
    rfl
  have before : Delivers host parsing := by
    rw [made]
    exact ⟨delivers.valid, delivers.bytes, delivers.handed, delivers.subscribed, delivers.events⟩
  rw [← same] at going
  obtain ⟨t, ran, after⟩ := before.onAll going
  -- Nothing is thrown: the parser took it all, and every callback went through.
  have parsed : Session.parse host (s.did .read) a.messageFails data = some (.done, t) := by
    rw [Session.parse, messages]
    show (Session.onAll host false _ { (s.did .read).did .parse with parser := (host.parser.execute s.parser data).2.2 }).map _ = _
    rw [← made]
    show (Session.onAll host false (host.parser.execute s.parser data).1 parsing).map _ = _
    rw [ran]
    show some (if true && (host.parser.execute s.parser data).2.1 then Ctl.done else Ctl.threw, t) = _
    rw [through]
    rfl
  refine ⟨{ t.did .timer with armed := true }, ?_, ⟨after.valid, after.bytes, after.handed, after.subscribed, after.events⟩⟩
  obtain ⟨c, cs, rfl⟩ := List.exists_cons_of_ne_nil nonempty
  rw [Session.onReadable, read]
  simp only [parsed, Option.map_some, timer, Bool.false_eq_true, if_false]

/-- Once the buffer is empty there is nothing more to write. -/
theorem Delivers.onWritable (delivers : Delivers host s) {count : Nat} (written : a.written = some count) (some_ : 1 ≤ count)
    (fits : count ≤ s.buf.size) (drained : a.drainedFails = false) (keeps : host.parser.shouldKeepAlive s.parser = true) :
    ∃ t, Session.onWritable host s a = (.done, t) ∧ Delivers host t ∧ t.parser = s.parser ∧ t.sess = s.sess := by
  obtain ⟨valid, data⟩ := Buffer.consume_spec delivers.valid count fits
  obtain ⟨next, made⟩ : ∃ next, next = (s.did .write).take count := ⟨_, rfl⟩
  have buf : next.buf.data = s.buf.data.drop count := by
    rw [made]
    exact data
  have valid : next.buf.Valid := by
    rw [made]
    exact valid
  -- What leaves the buffer is what is added to the bytes sent.
  have bytes : next.sent ++ next.buf.data = (next.handled.map (response host)).flatten := by
    have took : next.sent = s.sent ++ s.buf.data.take count := by rw [made]; rfl
    have handled : next.handled = s.handled := by rw [made]; rfl
    rw [took, buf, handled, List.append_assoc, List.take_append_drop, delivers.bytes]
  have handed : next.handled.map Prod.snd = next.sess.handed := by
    rw [made]
    exact delivers.handed
  have subscribed : next.subscribed = true := by
    rw [made]
    exact delivers.subscribed
  have same : next.parser = s.parser ∧ next.sess = s.sess := by
    rw [made]
    exact ⟨rfl, rfl⟩
  rw [Session.onWritable, written]
  simp only [← made]
  by_cases empty : next.buf.size = 0
  · have nothing : next.buf.data = [] := (size_eq_zero valid).mp empty
    rw [if_pos empty, same.1, if_pos keeps, drained, setEvents_done]
    refine ⟨_, rfl, ⟨valid, bytes, handed, subscribed, ?_⟩, same⟩
    exact (if_pos nothing).symm
  -- Still something to write: the interest was in both events before and stays so.
  · have unsent : s.buf.data ≠ [] := by
      rw [← List.length_pos_iff, Buffer.length_data delivers.valid]
      omega
    have events : next.events = s.events := by
      rw [made]
      rfl
    rw [if_neg empty]
    refine ⟨next, rfl, ⟨valid, bytes, handed, subscribed, ?_⟩, same⟩
    rw [events, delivers.events, interest, interest, if_neg unsent,
      if_neg fun none_ => empty ((size_eq_zero valid).mpr none_)]

/-- What is written first changes neither the parser nor the request that is being read. -/
theorem Delivers.onIoEvent (delivers : Delivers host s) {ready : UInt32} (fine : Fine host s (.io ready a)) :
    ∃ t, Session.onIoEvent host s (ready &&& s.events) a = some t ∧ Delivers host t := by
  have wrote : ∃ next, (if ready &&& s.events &&& eventOut ≠ 0 then Session.onWritable host s a else (.done, s)) = (.done, next) ∧
      Delivers host next ∧ next.parser = s.parser ∧ next.sess = s.sess := by
    by_cases writable : ready &&& s.events &&& eventOut ≠ 0
    · obtain ⟨⟨count, written, some_, fits⟩, drained, keeps⟩ := fine.1 writable
      rw [if_pos writable]
      exact delivers.onWritable written some_ fits drained keeps
    · rw [if_neg writable]
      exact ⟨s, rfl, delivers, rfl, rfl⟩
  obtain ⟨next, wrote, delivers, parser, sess⟩ := wrote
  rw [Session.onIoEvent, wrote]
  by_cases readable : ready &&& s.events &&& eventIn ≠ 0
  · obtain ⟨⟨data, read, nonempty, through, going⟩, messages, timer⟩ := fine.2 readable
    rw [← parser] at through going
    rw [← sess] at going
    obtain ⟨t, done, delivers⟩ := delivers.onReadable read nonempty through going messages timer
    refine ⟨t, ?_, delivers⟩
    simp only [if_pos readable, done, Option.map_some]
  · refine ⟨next, ?_, delivers⟩
    simp only [if_neg readable, Option.map_some]

theorem Delivers.step (delivers : Delivers host s) {e : Event σ} (fine : Fine host s e) :
    ∃ t, Session.step host s e = some t ∧ Delivers host t := by
  cases e with
  | io ready a =>
    rw [Session.step]
    by_cases called : s.subscribed = true ∧ ready &&& s.events ≠ 0
    · rw [if_pos called]
      exact delivers.onIoEvent fine
    · rw [if_neg called]
      exact ⟨s, rfl, delivers⟩
  | timer => exact absurd fine id
  | elsewhere server =>
    exact ⟨_, rfl, ⟨delivers.valid, delivers.bytes, delivers.handed, delivers.subscribed, delivers.events⟩⟩

theorem delivers_make (host : Host σ π) (server : σ) : Delivers host (make host server) where
  valid := Buffer.valid_empty
  bytes := rfl
  handed := rfl
  subscribed := rfl
  events := rfl

/-- In every run without errors the responses leave in order, each of them once, and none stays behind unnoticed. -/
theorem responses_delivered (host : Host σ π) (server : σ) {events : List (Event σ)}
    (run : Run (step host) (Fine host) (make host server) events s) :
    s.sent ++ s.buf.data = (s.handled.map (response host)).flatten ∧ s.handled.map Prod.snd = s.sess.handed ∧
      s.subscribed = true ∧ (s.events &&& eventOut ≠ 0 ↔ s.buf.data ≠ []) ∧
      ∀ e, Fine host s e → ∃ t, step host s e = some t := by
  have delivers : Delivers host s := by
    apply Run.invariant _ _ run
    · intro s e t delivers fine stepped
      obtain ⟨u, done, delivers⟩ := delivers.step fine
      rw [stepped] at done
      cases done
      exact delivers
    · exact delivers_make host server
  refine ⟨delivers.bytes, delivers.handed, delivers.subscribed, ?_, ?_⟩
  · rw [delivers.events, interest]
    by_cases sent : s.buf.data = []
    · rw [if_pos sent]
      simp only [sent, ne_eq, not_true_eq_false, iff_false]
      decide
    · rw [if_neg sent]
      simp only [sent, ne_eq, not_false_eq_true, iff_true]
      decide
  -- The run is never stuck, as each event that is fine can be taken.
  · intro e fine
    obtain ⟨t, done, -⟩ := delivers.step fine
    exact ⟨t, done⟩

instance (host : Host σ π) (s : Session σ π) : ∀ e : Event σ, Decidable (Fine host s e)
  | .io _ _ => inferInstanceAs (Decidable (_ ∧ _))
  | .timer => inferInstanceAs (Decidable False)
  | .elsewhere _ => inferInstanceAs (Decidable True)

/-- What a parser of HTTP finds in a request, and in another one that comes in two parts. -/
def pipelined : HttpParser Unit where
  init := ()
  execute _ data :=
    if data = bytes "GET /api HTTP/1.1\r\n\r\nGET /api/" then
      ([.messageBegin, .url (bytes "/api"), .headersEnd .get, .messageEnd, .messageBegin, .url (bytes "/api/")], true, ())
    else if data = bytes "sess HTTP/1.1\r\n\r\n" then ([.url (bytes "sess"), .headersEnd .get, .messageEnd], true, ())
    else ([], true, ())
  shouldKeepAlive _ := true

/-- A server that counts its requests, and answers with the path. -/
def counting : Host Nat Unit where
  parser := pipelined
  validUrl _ := true
  handleRequest count r :=
    ({ abandoned := [],
       last := { status := .ok, reason := HttpStatus.ok.reason, cache := false, writes := [.block r.url.data] } }, count + 1)

/-- The second response is composed while the first one is only half written. -/
theorem responses_delivered_pipelined :
    ∃ s, Run (step counting) (Fine counting) (make counting 0)
        [.io eventIn (answers 0 "GET /api HTTP/1.1\r\n\r\nGET /api/"),
          .io (eventIn ||| eventOut) (answers 50 "sess HTTP/1.1\r\n\r\n"), .io eventOut (answers 100 "")] s ∧
      s.handled.map Prod.fst = [0, 1] ∧ s.sent.length = 150 ∧
      s.sent ++ s.buf.data = (s.handled.map (response counting)).flatten := by
  have made : ∃ s ∈ Run.exec (step counting) (Fine counting) (make counting 0)
      [.io eventIn (answers 0 "GET /api HTTP/1.1\r\n\r\nGET /api/"),
        .io (eventIn ||| eventOut) (answers 50 "sess HTTP/1.1\r\n\r\n"), .io eventOut (answers 100 "")],
      s.handled.map Prod.fst = [0, 1] ∧ s.sent.length = 150 := by decide +kernel
  obtain ⟨s, done, handled, sent⟩ := made
  have run := Run.of_exec (Option.mem_def.mp done)
  exact ⟨s, run, handled, sent, (responses_delivered counting 0 run).1⟩

end Session

end Swirly
