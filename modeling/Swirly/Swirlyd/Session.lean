import Swirly.Swirlyd.HttpSess
import Swirly.Sys.EpollReactor
import Swirly.Web.Stream

/-!
# The input and output of a session

`swirlyd/HttpSess.cpp`: bytes that are read go through the parser of HTTP to `RestServ`, whose responses are composed in a
buffer and written as the socket takes them.  The parser, the server and what the kernel answers are left open.  An object that
`close` has deleted keeps its last state here, so that what is done to it afterwards can be seen.
-/

universe u v

namespace Swirly

/-- The parser of HTTP: the callbacks for some bytes and whether it gets through them, and whether the connection is kept after
the last message. -/
structure HttpParser (π : Type u) where
  init : π
  execute : π → Bytes → List HttpCallback × Bool × π
  shouldKeepAlive : π → Bool

/-- The responses that are begun for a request, the last of which is committed. -/
structure HttpReply where
  abandoned : List HttpStream.Attempt
  last : HttpStream.Attempt

/-- What a session runs on: the parser, the parser of URLs, and the server, which other sessions use, too. -/
structure Host (σ : Type v) (π : Type u) where
  parser : HttpParser π
  validUrl : Bytes → Bool
  handleRequest : σ → HttpRequest → HttpReply × σ

/-- What a session does. -/
inductive Deed where
  | write
  | setEvents
  | read
  | parse
  | timer
  | close
  deriving DecidableEq

structure Session (σ : Type v) (π : Type u) where
  server : σ
  parser : π
  sess : HttpSess
  os : HttpStream
  /-- The interest of the subscription. -/
  events : UInt32
  subscribed : Bool
  /-- The timer is pending. -/
  armed : Bool
  /-- The bytes that the socket has taken. -/
  sent : Bytes
  /-- The requests that have been handled, each with the server as it was. -/
  handled : List (σ × HttpRequest)
  deeds : List Deed

namespace Session

/-- How the calls of one event end: the number of bytes that are written, the bytes that are read, of which there are none at
the end, or an exception. -/
structure Answers where
  written : Option Nat
  /-- The interest cannot be changed once the buffer is empty. -/
  drainedFails : Bool
  read : Option Bytes
  /-- The interest cannot be changed after a message. -/
  messageFails : Bool
  timerFails : Bool
  deriving DecidableEq

inductive Event (σ : Type v) where
  | io (ready : UInt32) (a : Answers)
  | timer
  /-- The server changes for other reasons. -/
  | elsewhere (server : σ)

variable {σ : Type v} {π : Type u} (host : Host σ π)

/-- The constructor. -/
def make (server : σ) : Session σ π :=
  { server, parser := host.parser.init, sess := .make, os := .make .empty, events := eventIn, subscribed := true, armed := true,
    sent := [], handled := [], deeds := [] }

variable (s : Session σ π)

def buf : Buffer := s.os.buf.buf

def did (deed : Deed) : Session σ π := { s with deeds := s.deeds ++ [deed] }

/-- `close`, which deletes the session. -/
def close : Session σ π := { s.did .close with subscribed := false, armed := false }

/-- `set_events` of the subscription. -/
def setEvents (fails : Bool) (events : UInt32) : Ctl × Session σ π :=
  let s := s.did .setEvents
  if s.events ≠ events then if fails then (.threw, s) else (.done, { s with events }) else (.done, s)

/-- `on_message_end`.  No result stands for a response that cannot be committed. -/
def onMessageEnd (fails : Bool) : Option (Bool × Session σ π) :=
  match s.sess.onMessageEnd host.validUrl with
  | (false, sess) => some (false, { s with sess })
  | (true, sess) =>
    let handled := host.handleRequest s.server s.sess.req
    (s.os.compose (handled.1.abandoned ++ [handled.1.last])).map fun os =>
      let next := { s with server := handled.2, sess, os, handled := s.handled ++ [(s.server, s.sess.req)] }
      -- The buffer may have been empty before.
      let ended := if s.buf.size = 0 then next.setEvents fails (eventIn ||| eventOut) else (.done, next)
      (ended.1 = .done, ended.2)

def on (fails : Bool) : HttpCallback → Option (Bool × Session σ π)
  | .messageEnd => onMessageEnd host s fails
  | c =>
    let (going, sess) := s.sess.on host.validUrl c
    some (going, { s with sess })

/-- The callbacks, until one of them returns false. -/
def onAll (fails : Bool) : List HttpCallback → Session σ π → Option (Bool × Session σ π)
  | [], s => some (true, s)
  | c :: cs, s => (on host s fails c).bind fun (going, s) => if going then onAll fails cs s else some (false, s)

/-- `parse`, which throws unless it gets through the bytes. -/
def parse (fails : Bool) (data : Bytes) : Option (Ctl × Session σ π) :=
  let (callbacks, through, parser) := host.parser.execute s.parser data
  (onAll host fails callbacks { s.did .parse with parser }).map fun (going, s) =>
    (if going && through then .done else .threw, s)

/-- The socket takes bytes. -/
def take (count : Nat) : Session σ π :=
  { s with os := { s.os with buf := { s.os.buf with buf := s.buf.consume count } }, sent := s.sent ++ s.buf.data.take count }

def onWritable (a : Answers) : Ctl × Session σ π :=
  let s := s.did .write
  match a.written with
  | none => (.threw, s)
  | some count =>
    let s := s.take count
    if s.buf.size = 0 then
      if host.parser.shouldKeepAlive s.parser then s.setEvents a.drainedFails eventIn else (.done, s.close)
    else (.done, s)

def onReadable (a : Answers) : Option (Ctl × Session σ π) :=
  let s := s.did .read
  match a.read with
  | none => some (.threw, s)
  | some [] => some (.done, s.close)
  | some data =>
    (parse host s a.messageFails data).map fun
      | (.threw, s) => (.threw, s)
      | (.done, s) =>
        -- The timer is cancelled before another one is made.
        let s := { s.did .timer with armed := false }
        if a.timerFails then (.threw, s) else (.done, { s with armed := true })

def onIoEvent (events : UInt32) (a : Answers) : Option (Session σ π) :=
  match if events &&& eventOut ≠ 0 then onWritable host s a else (.done, s) with
  | (.threw, s) => some s.close
  | (.done, s) =>
    (if events &&& eventIn ≠ 0 then onReadable host s a else some (.done, s)).map fun
      | (.threw, s) => s.close
      | (.done, s) => s

def onTimer : Session σ π := s.close

/-- The reactor calls a session that is subscribed with those of its events that are ready, and a timer that is pending. -/
def step : Event σ → Option (Session σ π)
  | .io ready a =>
    let events := ready &&& s.events
    if s.subscribed ∧ events ≠ 0 then onIoEvent host s events a else some s
  | .timer => some (if s.armed then s.onTimer else s)
  | .elsewhere server => some { s with server }

end Session

end Swirly
