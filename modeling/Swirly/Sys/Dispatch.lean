import Swirly.Sys.Timer

/-!
# The calls of a timer queue

The queue, the timers that its users hold, and the calls of `dispatch` whose callbacks are running, the innermost first.
A callback may do all that a user may, `dispatch` included, and it may copy and cancel the timer that it is given.  A move
of a timer does not change which timers there are.
-/

namespace Swirly

namespace Timers

/-- A call of `dispatch` in a callback. -/
structure Frame where
  /-- The timer that `expire` holds. -/
  tmr : ImplPtr
  now : Int
  n : Int
  deriving DecidableEq

inductive Note where
  /-- The slot of a timer is invoked. -/
  | invoked (info : Timer.Info)
  | cancelled (id : Int)
  /-- A call of `dispatch` returns. -/
  | returned (n : Int)
  deriving DecidableEq

/-- A timer that a user can name: one of its own, or one that a callback was given. -/
inductive Ref where
  | handle (i : Nat)
  | fired (i : Nat)
  deriving DecidableEq

inductive Op where
  | insert (expiry interval : Int) (slot : TimerSlot)
  | copy (ref : Ref)
  | drop (i : Nat)
  | cancel (ref : Ref)
  | dispatch (now : Int)
  /-- The running callback returns, or throws an exception that `expire` catches. -/
  | finish
  deriving DecidableEq

end Timers

structure Timers where
  tq : TimerQueue := {}
  handles : List ImplPtr := []
  frames : List Timers.Frame := []
  trace : List Timers.Note := []

namespace Timers

variable (t : Timers)

/-- The timers that are being fired. -/
def fired : List ImplPtr := t.frames.map Frame.tmr

def deref : Ref → Option ImplPtr
  | .handle i => t.handles[i]?
  | .fired i => t.fired[i]?

/-- After a call that may have cancelled a timer. -/
def settle (p : ImplPtr) (tq : TimerQueue) : Timers :=
  { t with
    tq, trace := if t.tq.pending p && !tq.pending p then t.trace ++ [.cancelled (t.tq.info p).id] else t.trace }

/-- Carry on with the loop of `dispatch`. -/
def proceed (now n : Int) : Option Timers :=
  (t.tq.next now (t.tq.heap.length + 1)).map fun (fired, tq) =>
    match fired with
    | some p => { t with tq, frames := ⟨p, now, n⟩ :: t.frames, trace := t.trace ++ [.invoked (tq.info p)] }
    | none => { t with tq, trace := t.trace ++ [.returned n] }

def step : Op → Option Timers
  | .insert expiry interval slot =>
    (t.tq.insert expiry interval slot).map fun (p, tq) => { t with tq, handles := p :: t.handles }
  | .copy ref => (t.deref ref).map fun p => { t with tq := t.tq.addRef p, handles := p :: t.handles }
  | .drop i =>
    t.handles[i]?.bind fun p => (t.tq.release p).map fun tq => { t with handles := t.handles.eraseIdx i }.settle p tq
  | .cancel ref => (t.deref ref).bind fun p => (t.tq.cancelTimer p).map fun tq => t.settle p tq
  | .dispatch now => t.proceed now 0
  | .finish =>
    match t.frames with
    | [] => none
    | frame :: frames =>
      let t := { t with tq := t.tq.expired frame.tmr frame.now, frames }
      (t.tq.release frame.tmr).bind fun tq => (t.settle frame.tmr tq).proceed frame.now (frame.n + 1)

end Timers

end Swirly
