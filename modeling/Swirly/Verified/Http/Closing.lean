import Swirly.Lib.Run
import Swirly.Swirlyd.Session

/-!
# Closing a session

A session that has not been closed is left open by an event or closed as the last thing the event does.  There is one way
round it: both bits are set, the write empties the buffer, and the connection is not kept.
-/

universe u v

namespace Swirly

namespace Session

variable {σ : Type v} {π : Type u} {host : Host σ π} {s t : Session σ π} {a : Answers} {ctl : Ctl} {going : Bool}

/-- Nothing is done after `close`, which is done at most once. -/
def ClosedLast (deeds : List Deed) : Prop := ∀ before after, deeds = before ++ .close :: after → .close ∉ before ∧ after = []

/-- The session goes on after `close`: it is closed when its buffer is empty, and it is readable as well. -/
def GoesOn (host : Host σ π) (s : Session σ π) : Event σ → Prop
  | .io ready a =>
    ready &&& s.events &&& eventOut ≠ 0 ∧ ready &&& s.events &&& eventIn ≠ 0 ∧ (∃ count ∈ a.written, s.buf.size ≤ count) ∧
      host.parser.shouldKeepAlive s.parser = false
  | .timer | .elsewhere _ => False

def Open (s : Session σ π) : Prop := .close ∉ s.deeds

/-- The session has been closed, and the reactor has neither its subscription nor its timer. -/
structure Shut (s : Session σ π) : Prop where
  last : ∃ before, s.deeds = before ++ [.close] ∧ .close ∉ before
  unsubscribed : s.subscribed = false
  disarmed : s.armed = false

theorem Open.same (isOpen : s.Open) (deeds : t.deeds = s.deeds) : t.Open := by
  rw [Open, deeds]
  exact isOpen

theorem Open.did (isOpen : s.Open) {deed : Deed} (other : deed ≠ .close) : (s.did deed).Open := by
  intro member
  cases List.mem_append.mp member with
  | inl member => exact isOpen member
  | inr member => exact other (List.mem_singleton.mp member).symm

theorem Open.close (isOpen : s.Open) : s.close.Shut where
  last := ⟨s.deeds, rfl, isOpen⟩
  unsubscribed := rfl
  disarmed := rfl

theorem Open.closedLast (isOpen : s.Open) : ClosedLast s.deeds := by
  intro before after split
  exact absurd (by rw [split]; simp) isOpen

theorem Shut.closedLast (shut : s.Shut) : ClosedLast s.deeds := by
  obtain ⟨deeds, last, isOpen⟩ := shut.last
  intro before after split
  rw [last] at split
  obtain rfl | ⟨init, final, rfl⟩ := after.eq_nil_or_concat
  · obtain ⟨rfl, -⟩ := List.append_inj' split rfl
    exact ⟨isOpen, rfl⟩
  · -- The first of two would be in front of the last.
    have same : deeds = before ++ .close :: init := by
      rw [List.concat_eq_append, ← List.cons_append, ← List.append_assoc] at split
      exact (List.append_inj' split rfl).1
    exact absurd (by rw [same]; simp) isOpen

theorem Open.setEvents (isOpen : s.Open) (fails : Bool) (events : UInt32) : (s.setEvents fails events).2.Open := by
  have next : (s.did .setEvents).Open := isOpen.did (by decide)
  rw [Session.setEvents]
  split
  next =>
    split
    next => exact next
    next => exact next
  next => exact next

theorem Open.onMessageEnd (isOpen : s.Open) {fails : Bool} (done : Session.onMessageEnd host s fails = some (going, t)) :
    t.Open := by
  rw [Session.onMessageEnd] at done
  split at done
  next =>
    cases done
    exact isOpen
  next sess flushed =>
    obtain ⟨os, composed, ends⟩ := Option.map_eq_some_iff.mp done
    have same := congrArg Prod.snd ends
    dsimp only at same
    rw [← same]
    split
    next =>
      apply Open.setEvents
      exact isOpen.same rfl
    next => exact isOpen.same rfl

theorem Open.on (isOpen : s.Open) {fails : Bool} {c : HttpCallback} (done : Session.on host s fails c = some (going, t)) :
    t.Open := by
  cases c with
  | messageEnd => exact isOpen.onMessageEnd done
  | messageBegin | url _ | headerField _ | headerValue _ | headersEnd _ | body _ =>
    cases done
    exact isOpen

theorem Open.onAll (isOpen : s.Open) {fails : Bool} {cs : List HttpCallback}
    (done : Session.onAll host fails cs s = some (going, t)) : t.Open := by
  induction cs generalizing s with
  | nil =>
    cases done
    exact isOpen
  | cons c cs inductionHypothesis =>
    rw [Session.onAll] at done
    obtain ⟨⟨first, next⟩, one, rest⟩ := Option.bind_eq_some_iff.mp done
    have opened := isOpen.on one
    cases first with
    | true => exact inductionHypothesis opened rest
    | false =>
      cases rest
      exact opened

theorem Open.parse (isOpen : s.Open) {fails : Bool} {data : Bytes} (done : Session.parse host s fails data = some (ctl, t)) :
    t.Open := by
  rw [Session.parse] at done
  obtain ⟨⟨going, next⟩, ran, ends⟩ := Option.map_eq_some_iff.mp done
  cases ends
  have opened : (s.did .parse).Open := isOpen.did (by decide)
  apply Open.onAll _ ran
  exact opened.same rfl

/-- A session that is closed here has nothing more to do. -/
theorem Open.onReadable (isOpen : s.Open) (done : Session.onReadable host s a = some (ctl, t)) :
    t.Open ∨ t.Shut ∧ ctl = .done := by
  have opened : (s.did .read).Open := isOpen.did (by decide)
  rw [Session.onReadable] at done
  split at done
  next =>
    cases done
    exact .inl opened
  next =>
    cases done
    exact .inr ⟨opened.close, rfl⟩
  next data _ _ =>
    left
    obtain ⟨⟨ends, next⟩, parsed, result⟩ := Option.map_eq_some_iff.mp done
    have opened := opened.parse parsed
    cases ends with
    | threw =>
      cases result
      exact opened
    | done =>
      have opened : (next.did .timer).Open := opened.did (by decide)
      dsimp only at result
      split at result
      · cases result
        exact opened
      · cases result
        exact opened

theorem size_consume (b : Buffer) (count : Nat) : (b.consume count).size = b.size - count := by
  rw [Buffer.consume]
  split
  next zero => rw [zero, Nat.sub_zero]
  next =>
    dsimp only
    split
    next =>
      simp only [Buffer.size]
      omega
    next =>
      simp only [Buffer.size]
      omega

/-- A write closes a session when it empties the buffer and the connection is not kept. -/
theorem Open.onWritable (isOpen : s.Open) (done : Session.onWritable host s a = (ctl, t)) :
    t.Open ∨ t.Shut ∧ ctl = .done ∧ (∃ count ∈ a.written, s.buf.size ≤ count) ∧
      host.parser.shouldKeepAlive s.parser = false := by
  have opened : (s.did .write).Open := isOpen.did (by decide)
  rw [Session.onWritable] at done
  split at done
  next =>
    cases done
    exact .inl opened
  next count taken =>
    have opened : ((s.did .write).take count).Open := opened.same rfl
    have size : ((s.did .write).take count).buf.size = s.buf.size - count := size_consume s.buf count
    dsimp only at done
    split at done
    next drained =>
      split at done
      next =>
        left
        have opened := opened.setEvents a.drainedFails eventIn
        rw [done] at opened
        exact opened
      next closes =>
        cases done
        have closes : host.parser.shouldKeepAlive s.parser = false := Bool.eq_false_of_not_eq_true closes
        exact .inr ⟨opened.close, rfl, ⟨count, taken, by omega⟩, closes⟩
    next =>
      cases done
      exact .inl opened

/-- One event leaves a session open, or closes it last of all. -/
theorem Open.onIoEvent (isOpen : s.Open) {events : UInt32}
    (kept : ¬ (events &&& eventOut ≠ 0 ∧ events &&& eventIn ≠ 0 ∧ (∃ count ∈ a.written, s.buf.size ≤ count) ∧
      host.parser.shouldKeepAlive s.parser = false))
    (done : Session.onIoEvent host s events a = some t) : t.Open ∨ t.Shut := by
  -- A session that closed itself while writing has drained everything, so by `kept` nothing is read after it.
  have written : ∀ ctl next, (if events &&& eventOut ≠ 0 then Session.onWritable host s a else (.done, s)) = (ctl, next) →
      next.Open ∨ next.Shut ∧ ctl = .done ∧ events &&& eventIn = 0 := by
    intro ctl next wrote
    split at wrote
    next writable =>
      obtain opened | ⟨shut, ended, drained, closes⟩ := isOpen.onWritable wrote
      · exact .inl opened
      · right
        refine ⟨shut, ended, ?_⟩
        by_contra readable
        exact kept ⟨writable, readable, drained, closes⟩
    next =>
      cases wrote
      exact .inl isOpen
  rw [Session.onIoEvent] at done
  obtain ⟨⟨ctl, next⟩, wrote⟩ : ∃ both, both = if events &&& eventOut ≠ 0 then Session.onWritable host s a else (.done, s) :=
    ⟨_, rfl⟩
  have written := written ctl next wrote.symm
  rw [← wrote] at done
  cases ctl with
  -- What is thrown closes the session in the caller's handler, and a session is never closed and thrown at once.
  | threw =>
    cases done
    obtain opened | ⟨-, ended, -⟩ := written
    · exact .inr opened.close
    · cases ended
  | done =>
    dsimp only at done
    obtain ⟨⟨ctl, last⟩, read, ends⟩ := Option.map_eq_some_iff.mp done
    obtain opened | ⟨shut, -, unread⟩ := written
    · have result : last.Open ∨ last.Shut ∧ ctl = .done := by
        split at read
        next => exact opened.onReadable read
        next =>
          cases read
          exact .inl opened
      cases ctl with
      | threw =>
        cases ends
        obtain opened | ⟨-, ended⟩ := result
        · exact .inr opened.close
        · cases ended
      | done =>
        cases ends
        exact result.imp_right And.left
    · rw [if_neg (not_not.mpr unread)] at read
      cases read
      cases ends
      exact .inr shut

/-- A session that is closed is not called any more. -/
theorem Shut.step (shut : s.Shut) {e : Event σ} (done : Session.step host s e = some t) : t.Shut := by
  cases e with
  | io ready a =>
    rw [Session.step, if_neg (by simp [shut.unsubscribed])] at done
    cases done
    exact shut
  | timer =>
    rw [Session.step, if_neg (by simp [shut.disarmed])] at done
    cases done
    exact shut
  | elsewhere server =>
    cases done
    exact ⟨shut.last, shut.unsubscribed, shut.disarmed⟩

theorem Open.step (isOpen : s.Open) {e : Event σ} (kept : ¬ GoesOn host s e) (done : Session.step host s e = some t) :
    t.Open ∨ t.Shut := by
  cases e with
  | io ready a =>
    rw [Session.step] at done
    split at done
    next => exact isOpen.onIoEvent kept done
    next =>
      cases done
      exact .inl isOpen
  | timer =>
    cases done
    split
    next => exact .inr isOpen.close
    next => exact .inl isOpen
  | elsewhere server =>
    cases done
    exact .inl (isOpen.same rfl)

/-- Whatever happens, a session is closed once, and nothing is done with it afterwards. -/
theorem closed_last (host : Host σ π) (server : σ) {events : List (Event σ)}
    (run : Run (step host) (fun s e => ¬ GoesOn host s e) (make host server) events s) : ClosedLast s.deeds := by
  have kept : s.Open ∨ s.Shut := by
    apply Run.invariant _ _ run
    · rintro s e t (opened | shut) allowed stepped
      · exact opened.step allowed stepped
      · exact .inr (shut.step stepped)
    · exact .inl (List.not_mem_nil)
  cases kept with
  | inl opened => exact opened.closedLast
  | inr shut => exact shut.closedLast

instance (host : Host σ π) (s : Session σ π) (e : Event σ) : Decidable (GoesOn host s e) := by
  cases e <;> unfold GoesOn <;> infer_instance

/-- What a parser of HTTP finds in two requests, of which the second one does not ask for the connection to be kept. -/
def twoRequests : HttpParser Bool where
  init := false
  execute keeps data :=
    let callbacks := [.messageBegin, .url (bytes "/api"), .headersEnd .get, .messageEnd]
    if data = bytes "GET /api HTTP/1.1\r\n\r\n" then (callbacks, true, true)
    else if data = bytes "GET /api HTTP/1.0\r\n\r\n" then (callbacks, true, false)
    else ([], false, keeps)
  shouldKeepAlive := id

/-- A server without resources. -/
def bare : Host Unit Bool where
  parser := twoRequests
  validUrl _ := true
  handleRequest _ _ :=
    ({ abandoned := [], last := { status := .notFound, reason := HttpStatus.notFound.reason, cache := false, writes := [] } }, ())

/-- Nothing fails. -/
def answers (written : Nat) (read : String) : Answers :=
  { written := some written, drainedFails := false, read := some (bytes read), messageFails := false, timerFails := false }

theorem closed_last_served :
    ∃ s, Run (step bare) (fun s e => ¬ GoesOn bare s e) (make bare ())
        [.io eventIn (answers 0 "GET /api HTTP/1.1\r\n\r\n"), .io (eventIn ||| eventOut) (answers 111 "GET /api HTTP/1.0\r\n\r\n"),
          .io eventOut (answers 100 ""), .io eventOut (answers 11 ""), .timer] s ∧
      s.deeds.getLast? = some .close ∧ ClosedLast s.deeds := by
  have made : ∃ s ∈ Run.exec (step bare) (fun s e => ¬ GoesOn bare s e) (make bare ())
      [.io eventIn (answers 0 "GET /api HTTP/1.1\r\n\r\n"), .io (eventIn ||| eventOut) (answers 111 "GET /api HTTP/1.0\r\n\r\n"),
        .io eventOut (answers 100 ""), .io eventOut (answers 11 ""), .timer], s.deeds.getLast? = some .close := by
    decide +kernel
  obtain ⟨s, done, closed⟩ := made
  have run := Run.of_exec (Option.mem_def.mp done)
  exact ⟨s, run, closed, closed_last bare () run⟩

/-- The client has ended its side, so that the session is readable when the response is written. -/
theorem closed_twice :
    ∃ s, Run (step bare) (fun _ _ => True) (make bare ())
        [.io eventIn (answers 0 "GET /api HTTP/1.0\r\n\r\n"), .io (eventIn ||| eventOut) (answers 111 "")] s ∧
      s.deeds = [.read, .parse, .setEvents, .timer, .write, .close, .read, .close] ∧ ¬ ClosedLast s.deeds := by
  have made : ∃ s ∈ Run.exec (step bare) (fun _ _ => True) (make bare ())
      [.io eventIn (answers 0 "GET /api HTTP/1.0\r\n\r\n"), .io (eventIn ||| eventOut) (answers 111 "")],
      s.deeds = [.read, .parse, .setEvents, .timer, .write, .close, .read, .close] := by
    decide +kernel
  obtain ⟨s, done, deeds⟩ := made
  refine ⟨s, Run.of_exec (Option.mem_def.mp done), deeds, ?_⟩
  intro last
  have none_ := (last [.read, .parse, .setEvents, .timer, .write] [.read, .close] deeds).2
  cases none_

end Session

end Swirly
