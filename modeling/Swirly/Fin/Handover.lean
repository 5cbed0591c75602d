import Swirly.App.MemQueue
import Swirly.Fin.MsgQueue

/-!
# The journal queue between two threads

`MsgQueue::create_exec` of `fin/MsgQueue.cpp` on the thread that posts, one atomic step of the memory queue at a time,
with the thread that pops on the other side.
-/

namespace Swirly

/-- Where a call of `create_exec` has got to. -/
inductive CreateExecs where
  | idle
  /-- Before the check of the unused elements. -/
  | reserve (es : List Exec)
  /-- An exec is being posted, and `rest` are to follow. -/
  | posting (rest : List Exec)
  | returned
  | threw
  deriving DecidableEq

/-- The queue with one producer and one consumer. -/
structure Handover where
  mem : Exchange Unit Unit Msg
  call : CreateExecs

namespace Handover

inductive Event where
  | createExec (es : List Exec)
  /-- The next atomic step of the producer. -/
  | produce (spurious : Bool)
  | pop
  /-- The next atomic step of the consumer. -/
  | consume (spurious : Bool)
  deriving DecidableEq

def make (capacity : Nat) (zero : Msg) : Handover := { mem := .make capacity zero, call := .idle }

/-- The message that `do_create_exec` posts. -/
def msg (e : Exec) : Msg := .createExec (MsgQueue.execBody e)

/-- The head of the loop over the execs. -/
def next (mem : Exchange Unit Unit Msg) : List Exec → Option Handover
  | [] => some { mem, call := .returned }
  | e :: rest => (mem.step (.post () (msg e))).map fun mem => { mem, call := .posting rest }

def step (s : Handover) : Event → Option Handover
  | .createExec es =>
    match s.call with
    | .idle | .returned | .threw => some { s with call := .reserve es }
    | _ => none
  | .produce spurious =>
    match s.call with
    | .reserve es => if s.mem.queue.reserve < es.length then some { s with call := .threw } else next s.mem es
    | .posting rest =>
      (s.mem.step (.produce () spurious)).bind fun mem =>
        match mem.producers () with
        | .done _ (some _) => next mem rest
        | .done _ none => some { mem, call := .threw }
        | _ => some { mem, call := .posting rest }
    | _ => none
  | .pop => (s.mem.step (.fetch ())).map fun mem => { s with mem }
  | .consume spurious => (s.mem.step (.consume () spurious)).map fun mem => { s with mem }

end Handover

end Swirly
