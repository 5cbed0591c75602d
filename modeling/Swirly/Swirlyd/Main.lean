import Swirly.App.MemQueue
import Swirly.Fin.MsgQueue

/-!
# The threads of the daemon

`main` of `swirlyd/Main.cpp` with the threads of `app/Thread.hpp` and `app/Thread.cpp`: the reactor thread posts to the
queue, the journal thread pops from it and writes to the journal, and the main thread waits for a signal and then stops
the two in the reverse order of their construction.
-/

namespace Swirly

/-- Where the reactor thread has got to. -/
inductive Reactor where
  /-- Before the load of the stop flag. -/
  | check
  /-- In `poll`, between two posts. -/
  | polling
  | posting
  | ended
  deriving DecidableEq

/-- Where the journal thread has got to in `AgentThread::run`. -/
inductive Agent where
  /-- Before the load of the stop flag by the outer loop. -/
  | check
  /-- In a call of `journ_agent` that has written `n` messages, popping the next one. -/
  | popping (n : Nat)
  | writing (msg : Msg) (n : Nat)
  /-- In `backoff.idle()`. -/
  | idle
  /-- Before the load of the stop flag by the inner loop. -/
  | recheck
  | ended
  deriving DecidableEq

/-- Where the main thread has got to. -/
inductive Main where
  /-- In the signal loop. -/
  | signal
  | joinJourn
  | joinReactor
  | ended
  deriving DecidableEq

structure Daemon where
  mem : Exchange Unit Unit Msg
  reactor : Reactor
  agent : Agent
  main : Main
  journStop : Bool
  reactorStop : Bool
  /-- The messages that have been written to the journal. -/
  journ : List Msg

namespace Daemon

inductive Event where
  /-- The handling of a request posts a message. -/
  | post (msg : Msg)
  /-- The next atomic step of the reactor thread. -/
  | reactor (spurious : Bool)
  /-- The next atomic step of the journal thread. -/
  | agent (spurious : Bool)
  /-- The next atomic step of the main thread. -/
  | main
  deriving DecidableEq

/-- The threads have been started. -/
def make (zero : Msg) : Daemon :=
  { mem := .make (1 <<< 10) zero, reactor := .check, agent := .check, main := .signal, journStop := false,
    reactorStop := false, journ := [] }

/-- The agent calls `mq.pop`. -/
def pop (s : Daemon) (n : Nat) : Option Daemon :=
  (s.mem.step (.fetch ())).map fun mem => { s with mem, agent := .popping n }

def step (s : Daemon) : Event → Option Daemon
  | .post msg =>
    match s.reactor with
    | .polling => (s.mem.step (.post () msg)).map fun mem => { s with mem, reactor := .posting }
    | _ => none
  | .reactor spurious =>
    match s.reactor with
    | .check => some { s with reactor := if s.reactorStop then .ended else .polling }
    | .polling => some { s with reactor := .check }
    | .posting =>
      (s.mem.step (.produce () spurious)).map fun mem =>
        { s with mem, reactor := if (mem.producers ()).Resting then .polling else .posting }
    | .ended => none
  | .agent spurious =>
    match s.agent with
    | .check => if s.journStop then some { s with agent := .ended } else s.pop 0
    | .popping n =>
      (s.mem.step (.consume () spurious)).map fun mem =>
        match mem.consumers () with
        | .done (some (_, msg)) => { s with mem, agent := .writing msg n }
        -- The loop is left, and `agent()` returns `n`.
        | .done none => { s with mem, agent := if n = 0 then .idle else .check }
        | _ => { s with mem }
    | .writing msg n => { s with journ := s.journ ++ [msg] }.pop (n + 1)
    | .idle => some { s with agent := .recheck }
    | .recheck => if s.journStop then some { s with agent := .check } else s.pop 0
    | .ended => none
  | .main =>
    match s.main with
    | .signal => some { s with journStop := true, main := .joinJourn }
    | .joinJourn => if s.agent = .ended then some { s with reactorStop := true, main := .joinReactor } else none
    | .joinReactor => if s.reactor = .ended then some { s with main := .ended } else none
    | .ended => none

end Daemon

end Swirly
