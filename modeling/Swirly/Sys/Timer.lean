import Mathlib
import Swirly.Lib.BinaryHeap

/-!
# The timer queue

`sys/Timer.hpp` and `sys/Timer.cpp`.  A `Timer` is a pointer to a `Timer::Impl` that counts itself among the references;
the queue's own timers are the entries of its heap.  A result of `none` stands for a member of the union read while the
other one is stored, or for the front of an empty heap.
-/

namespace Swirly

/-- The place of a `Timer::Impl` among the elements of the slabs. -/
abbrev ImplPtr := Nat

structure TimerSlot where
  obj : Nat
  fn : Nat
  deriving DecidableEq

namespace Timer

/-- The union: the next timer of the free list, or the queue. -/
inductive Link where
  | next (impl : Option ImplPtr)
  | tq
  deriving DecidableEq

structure Impl where
  link : Link := .next none
  refCount : Int := 0
  id : Int := 0
  expiry : Int := 0
  interval : Int := 0
  slot : Option TimerSlot := none
  deriving DecidableEq

/-- What a timer is, apart from who refers to it. -/
structure Info where
  id : Int
  expiry : Int
  interval : Int
  slot : Option TimerSlot
  deriving DecidableEq

def Impl.info (impl : Impl) : Info := ⟨impl.id, impl.expiry, impl.interval, impl.slot⟩

end Timer

structure TimerQueue where
  maxId : Int := 0
  cancelled : Int := 0
  /-- The elements of the slabs, of which there are `allocated`. -/
  impls : ImplPtr → Timer.Impl := fun _ => {}
  allocated : Nat := 0
  free : Option ImplPtr := none
  heap : List ImplPtr := []

namespace TimerQueue

def slabSize : Nat := (4096 - 16) / 8

variable (tq : TimerQueue)

def info (p : ImplPtr) : Timer.Info := (tq.impls p).info

def pending (p : ImplPtr) : Bool := (tq.impls p).slot.isSome

def expiry (p : ImplPtr) : Int := (tq.impls p).expiry

def size : Int := tq.heap.length - tq.cancelled

def empty : Bool := tq.size = 0

def modify (p : ImplPtr) (f : Timer.Impl → Timer.Impl) : TimerQueue :=
  { tq with impls := Function.update tq.impls p (f (tq.impls p)) }

/-- `intrusive_ptr_add_ref`. -/
def addRef (p : ImplPtr) : TimerQueue := tq.modify p fun impl => { impl with refCount := impl.refCount + 1 }

def decRef (p : ImplPtr) : TimerQueue := tq.modify p fun impl => { impl with refCount := impl.refCount - 1 }

def resetSlot (p : ImplPtr) : TimerQueue := tq.modify p fun impl => { impl with slot := none }

def setExpiry (p : ImplPtr) (expiry : Int) : TimerQueue := tq.modify p fun impl => { impl with expiry }

/-- Put a timer on the free list. -/
def pushFree (p : ImplPtr) : TimerQueue :=
  { tq.modify p fun impl => { impl with link := .next tq.free } with free := some p }

/-- Add a slab, all of whose elements but the first go on the free list. -/
def addSlab : TimerQueue :=
  (List.range' (tq.allocated + 1) (slabSize - 1)).foldl pushFree { tq with allocated := tq.allocated + slabSize }

/-- Make an element of a slab into a new timer. -/
def assign (p : ImplPtr) (expiry interval : Int) (slot : TimerSlot) : TimerQueue :=
  { tq with maxId := tq.maxId + 1 }.modify p fun _ =>
    { link := .tq, refCount := 1, id := tq.maxId + 1, expiry, interval, slot := some slot }

def alloc (expiry interval : Int) (slot : TimerSlot) : Option (ImplPtr × TimerQueue) :=
  match tq.free with
  | some p =>
    match (tq.impls p).link with
    | .next rest => some (p, { tq with free := rest }.assign p expiry interval slot)
    | .tq => none
  | none => some (tq.allocated, tq.addSlab.assign tq.allocated expiry interval slot)

/-- Push an entry for a timer onto the heap. -/
def pushHeap (p : ImplPtr) : TimerQueue :=
  let tq := tq.addRef p
  { tq with heap := BinaryHeap.push tq.expiry tq.heap p }

/-- The slot is not empty, as `insert` asserts. -/
def insert (expiry interval : Int) (slot : TimerSlot) : Option (ImplPtr × TimerQueue) :=
  (tq.alloc expiry interval slot).map fun (p, tq) => (p, tq.pushHeap p)

/-- Cancel a timer if it is pending, given the queue's `cancel`. -/
def cancelWith (cancel : TimerQueue → Option TimerQueue) (p : ImplPtr) : Option TimerQueue :=
  if tq.pending p then
    match (tq.impls p).link with
    | .tq => cancel (tq.resetSlot p)
    | .next _ => none
  else some tq

/-- `intrusive_ptr_release`, given the queue's `cancel`. -/
def releaseWith (cancel : TimerQueue → Option TimerQueue) (p : ImplPtr) : Option TimerQueue :=
  let tq := tq.decRef p
  if (tq.impls p).refCount = 1 then tq.cancelWith cancel p
  else if (tq.impls p).refCount = 0 then
    match (tq.impls p).link with
    | .tq => some (tq.pushFree p)
    | .next _ => none
  else some tq

/-- The release of a timer that is not pending, which does not go on to cancel it. -/
def releaseIdle (p : ImplPtr) : Option TimerQueue := tq.releaseWith (fun _ => none) p

/-- `pop`, given the release of the heap's entry. -/
def popWith (release : TimerQueue → ImplPtr → Option TimerQueue) : Option (ImplPtr × TimerQueue) :=
  match tq.heap with
  | [] => none
  | p :: _ =>
    let tq := tq.addRef p
    (release { tq with heap := BinaryHeap.pop tq.expiry tq.heap } p).map fun tq => (p, tq)

/-- Pop the front of the heap, a cancelled timer. -/
def popCancelled : Option TimerQueue := do
  let (p, tq) ← tq.popWith releaseIdle
  let tq ← tq.releaseIdle p
  some { tq with cancelled := tq.cancelled - 1 }

/-- The loop of `cancel`. -/
def sweep : Nat → TimerQueue → Option TimerQueue
  | 0, _ => none
  | fuel + 1, tq =>
    match tq.heap with
    | [] => some tq
    | p :: _ => if tq.pending p then some tq else tq.popCancelled.bind (sweep fuel)

def gc : Option TimerQueue :=
  if (tq.heap.length / 2 : Nat) < tq.cancelled then do
    let kept := tq.heap.filter tq.pending
    -- The algorithm releases the entries that it removes in their order.
    let tq ← (tq.heap.filter fun p => !tq.pending p).foldlM releaseIdle tq
    some { tq with heap := BinaryHeap.make tq.expiry kept, cancelled := 0 }
  else some tq

def cancel : Option TimerQueue := do
  let tq ← sweep (tq.heap.length + 1) { tq with cancelled := tq.cancelled + 1 }
  tq.gc

/-- `Timer::cancel`. -/
def cancelTimer (p : ImplPtr) : Option TimerQueue := tq.cancelWith cancel p

def release (p : ImplPtr) : Option TimerQueue := tq.releaseWith cancel p

def pop : Option (ImplPtr × TimerQueue) := tq.popWith release

/-- The loop of `dispatch` until `expire` has popped a timer to be fired, or the end of the call. -/
def next (now : Int) : Nat → TimerQueue → Option (Option ImplPtr × TimerQueue)
  | 0, _ => none
  | fuel + 1, tq =>
    match tq.heap with
    | [] => tq.gc.map fun tq => (none, tq)
    | p :: _ =>
      if tq.pending p then
        if tq.expiry p ≤ now then tq.pop.map fun (p, tq) => (some p, tq)
        else tq.gc.map fun tq => (none, tq)
      else tq.popCancelled.bind (next now fuel)

/-- What `expire` does to a timer after its callback. -/
def expired (p : ImplPtr) (now : Int) : TimerQueue :=
  if tq.pending p then
    if 0 < (tq.impls p).interval then
      (tq.setExpiry p (max (tq.expiry p + (tq.impls p).interval) (now + 1))).pushHeap p
    else tq.resetSlot p
  else tq

end TimerQueue

end Swirly
