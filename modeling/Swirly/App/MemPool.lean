import Mathlib
import Swirly.Lib.Run

/-!
# The free lists of the memory pool

`app/MemPool.hpp`.  A free list is a stack of blocks, linked through the first word of each block.  A link is the offset
of a block under a tag, and the tag of a stack counts the calls of `push` on it.  Memory is seen as the first words of
blocks: offsets are multiples of a cache line, so the words of different blocks do not overlap.

A thread that calls `push` or `pop` takes atomic steps, and a run interleaves the steps of all threads in any order.
-/

universe u

namespace Swirly

abbrev MemSize := UInt32
abbrev MemTag := UInt32
abbrev MemLink := UInt64

def linkToOffset (link : MemLink) : MemSize := (link &&& 0xffffffff).toUInt32

def makeLink (tag : MemTag) (offset : MemSize) : MemLink := (tag.toUInt64 <<< 32) ||| offset.toUInt64

structure MemStack where
  head : MemLink
  tag : MemTag
  deriving DecidableEq

namespace MemStack

/-- A call of `push` that nobody interrupts. -/
def push (next : MemSize → MemLink) (stack : MemStack) (node : MemSize) : (MemSize → MemLink) × MemStack :=
  let tag := stack.tag + 1
  let newHead := makeLink tag node
  (Function.update next node stack.head, { head := newHead, tag })

/-- A call of `pop` that nobody interrupts. -/
def pop (next : MemSize → MemLink) (stack : MemStack) : MemStack × Option MemSize :=
  if stack.head = 0 then (stack, none)
  else
    let node := linkToOffset stack.head
    ({ stack with head := next node }, some node)

end MemStack

/-- Where a call of `push` or `pop` has got to. -/
inductive MemCall where
  | idle
  /-- In `push`, before the load of the head. -/
  | load (node : MemSize) (newHead : MemLink)
  /-- Before the store of the old head in the node. -/
  | store (node : MemSize) (newHead oldHead : MemLink)
  /-- Before the exchange of the head for the node. -/
  | push (node : MemSize) (newHead oldHead : MemLink)
  /-- In `pop`, before the load of the next link from the node. -/
  | read (oldHead : MemLink)
  /-- Before the exchange of the head for the next link. -/
  | pop (oldHead next : MemLink)
  deriving DecidableEq

/-- The top of the loop in `pop`, with the head as last loaded. -/
def MemCall.top (oldHead : MemLink) : MemCall :=
  if oldHead = 0 then .idle else .read oldHead

/-- A block goes on a free list or comes off it. -/
inductive MemEvent (ι : Type u) where
  | pushed (i : ι) (node : MemSize)
  | popped (i : ι) (node : MemSize)
  deriving DecidableEq

/-- A free list, the threads that use it and the blocks that each of them owns. -/
structure MemThreads (ι : Type u) where
  next : MemSize → MemLink
  stack : MemStack
  calls : ι → MemCall
  held : ι → List MemSize
  /-- What has happened, the latest first. -/
  history : List (MemEvent ι)

namespace MemThreads

variable {ι : Type u}

inductive Action (ι : Type u) where
  /-- A thread calls `push` with a block that it owns. -/
  | push (i : ι) (node : MemSize)
  /-- A thread calls `pop`. -/
  | pop (i : ι)
  /-- The next atomic step of a call. -/
  | step (i : ι) (spurious : Bool)
  /-- An owner uses the first word of its block. -/
  | write (i : ι) (node : MemSize) (word : MemLink)
  /-- An owner gives its block to another thread. -/
  | hand (i j : ι) (node : MemSize)
  deriving DecidableEq

def Action.isPush : Action ι → Bool
  | push _ _ => true
  | _ => false

variable [DecidableEq ι] (s : MemThreads ι)

def setCall (i : ι) (call : MemCall) : MemThreads ι := { s with calls := Function.update s.calls i call }

def setNext (node : MemSize) (word : MemLink) : MemThreads ι := { s with next := Function.update s.next node word }

def setHeld (i : ι) (nodes : List MemSize) : MemThreads ι := { s with held := Function.update s.held i nodes }

/-- A call of `push` begins with the next tag. -/
def callPush (i : ι) (node : MemSize) : MemThreads ι :=
  let tag := s.stack.tag + 1
  { s with stack := { s.stack with tag } }.setCall i (.load node (makeLink tag node))

/-- The exchange of `push` succeeds. -/
def pushed (i : ι) (node : MemSize) (newHead : MemLink) : MemThreads ι :=
  { s with stack := { s.stack with head := newHead }, history := .pushed i node :: s.history }
    |>.setHeld i ((s.held i).erase node) |>.setCall i .idle

/-- The exchange of `pop` succeeds. -/
def popped (i : ι) (node : MemSize) (next : MemLink) : MemThreads ι :=
  { s with stack := { s.stack with head := next }, history := .popped i node :: s.history }
    |>.setHeld i (node :: s.held i) |>.setCall i .idle

/-- The next atomic step of a call.  The exchanges are weak: they may fail for no reason, and load the head again. -/
def stepCall (i : ι) (spurious : Bool) : MemCall → Option (MemThreads ι)
  | .idle => none
  | .load node newHead => some (s.setCall i (.store node newHead s.stack.head))
  | .store node newHead oldHead => some ((s.setNext node oldHead).setCall i (.push node newHead oldHead))
  | .push node newHead oldHead =>
    if s.stack.head = oldHead ∧ spurious = false then some (s.pushed i node newHead)
    else some (s.setCall i (.store node newHead s.stack.head))
  | .read oldHead => some (s.setCall i (.pop oldHead (s.next (linkToOffset oldHead))))
  | .pop oldHead next =>
    if s.stack.head = oldHead ∧ spurious = false then some (s.popped i (linkToOffset oldHead) next)
    else some (s.setCall i (.top s.stack.head))

def step : Action ι → Option (MemThreads ι)
  | .push i node => if s.calls i = .idle ∧ node ∈ s.held i then some (s.callPush i node) else none
  | .pop i => if s.calls i = .idle then some (s.setCall i (.top s.stack.head)) else none
  | .step i spurious => s.stepCall i spurious (s.calls i)
  | .write i node word => if s.calls i = .idle ∧ node ∈ s.held i then some (s.setNext node word) else none
  | .hand i j node =>
    if s.calls i = .idle ∧ node ∈ s.held i then
      let given := s.setHeld i ((s.held i).erase node)
      some (given.setHeld j (node :: given.held j))
    else none

/-- The list is new, no thread is in a call, and no block has two owners. -/
structure Fresh (s : MemThreads ι) : Prop where
  stack : s.stack = { head := 0, tag := 0 }
  calls : ∀ i, s.calls i = .idle
  nodup : ∀ i, (s.held i).Nodup
  apart : ∀ i j, i ≠ j → (s.held i).Disjoint (s.held j)
  history : s.history = []

end MemThreads

end Swirly
