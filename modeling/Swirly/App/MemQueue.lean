import Mathlib
import Swirly.Lib.Run
import Swirly.Util.RingBuffer

/-!
# The memory queue

`app/MemQueue.hpp`: a ring of elements, each with a sequence number, for any number of producers and consumers.  A call
of `post` or `fetch` is a thread of atomic steps on the shared queue; a run interleaves the steps of all threads in any
order.  Positions are not bounded.  The history says which call claimed each position and what became of its value.
-/

universe u v w

namespace Swirly

structure Elem (α : Type u) where
  seq : Nat
  val : α
  deriving DecidableEq

structure MemQueue (α : Type u) where
  capacity : Nat
  rpos : Nat
  wpos : Nat
  elems : Nat → Elem α

namespace MemQueue

variable {α : Type u} (queue : MemQueue α)

/-- An empty queue whose first elements are numbered.  The memory is zero, and `zero` is the value that this stands for. -/
def ofSize (capacity numbered : Nat) (zero : α) : MemQueue α :=
  { capacity, rpos := 0, wpos := 0, elems := fun i => { seq := if i < numbered then i else 0, val := zero } }

/-- The constructor.  It rounds the capacity up, and numbers as many elements as it was asked for.  No result stands for
undefined behaviour. -/
def make (capacity : UInt64) (zero : α) : Option (MemQueue α) :=
  (ring capacity).map fun ring => ofSize ring.capacity.toNat capacity.toNat zero

def mask : Nat := queue.capacity - 1

/-- The element for a position. -/
def elem (pos : Nat) : Elem α := queue.elems (pos &&& queue.mask)

def size : Int := queue.wpos - queue.rpos

/-- The number of unused elements. -/
def reserve : Int := queue.capacity - queue.size

def setVal (pos : Nat) (val : α) : MemQueue α :=
  { queue with elems := Function.update queue.elems (pos &&& queue.mask) { queue.elem pos with val } }

def setSeq (pos : Nat) (seq : Nat) : MemQueue α :=
  { queue with elems := Function.update queue.elems (pos &&& queue.mask) { queue.elem pos with seq } }

end MemQueue

/-- Where a call of `post` has got to. -/
inductive Post (α : Type u) where
  | idle
  /-- Before the load of the write position. -/
  | load (val : α)
  /-- Before the load of the sequence number. -/
  | seq (val : α) (wpos : Nat)
  /-- Before the exchange of the write position. -/
  | claim (val : α) (wpos : Nat)
  | write (val : α) (wpos : Nat)
  | commit (val : α) (wpos : Nat)
  /-- The call has posted its value at the position, or has returned false. -/
  | done (val : α) (wpos : Option Nat)
  deriving DecidableEq

namespace Post

variable {α : Type u}

/-- The next atomic step of the call.  The exchange is weak: it may fail for no reason. -/
def step (queue : MemQueue α) (spurious : Bool) : Post α → Option (MemQueue α × Post α)
  | idle => none
  | load val => some (queue, seq val queue.wpos)
  | seq val wpos =>
    let diff : Int := (queue.elem wpos).seq - wpos
    if diff = 0 then some (queue, claim val wpos)
    else if diff < 0 then some (queue, done val none)
    else some (queue, load val)
  | claim val wpos =>
    if queue.wpos = wpos ∧ spurious = false then some ({ queue with wpos := wpos + 1 }, write val wpos)
    -- The exchange re-reads the position when it fails.
    else some (queue, seq val queue.wpos)
  | write val wpos => some (queue.setVal wpos val, commit val wpos)
  | commit val wpos => some (queue.setSeq wpos (wpos + 1), done val (some wpos))
  | done _ _ => none

/-- No call is on its way. -/
def Resting : Post α → Prop
  | idle | done _ _ => True
  | _ => False

instance : DecidablePred (@Resting α) := fun post => by cases post <;> unfold Resting <;> infer_instance

end Post

/-- Where a call of `fetch` has got to. -/
inductive Fetch (α : Type u) where
  | idle
  /-- Before the load of the read position. -/
  | load
  /-- Before the load of the sequence number. -/
  | seq (rpos : Nat)
  /-- Before the exchange of the read position. -/
  | claim (rpos : Nat)
  | read (rpos : Nat)
  | commit (val : α) (rpos : Nat)
  /-- The call has fetched a value at the position, or has returned false. -/
  | done (result : Option (Nat × α))
  deriving DecidableEq

namespace Fetch

variable {α : Type u}

/-- The next atomic step of the call. -/
def step (queue : MemQueue α) (spurious : Bool) : Fetch α → Option (MemQueue α × Fetch α)
  | idle => none
  | load => some (queue, seq queue.rpos)
  | seq rpos =>
    let diff : Int := (queue.elem rpos).seq - (rpos + 1)
    if diff = 0 then some (queue, claim rpos)
    else if diff < 0 then some (queue, done none)
    else some (queue, load)
  | claim rpos =>
    if queue.rpos = rpos ∧ spurious = false then some ({ queue with rpos := rpos + 1 }, read rpos)
    else some (queue, seq queue.rpos)
  | read rpos => some (queue, commit (queue.elem rpos).val rpos)
  | commit val rpos => some (queue.setSeq rpos (rpos + queue.capacity), done (some (rpos, val)))
  | done _ => none

/-- No call is on its way. -/
def Resting : Fetch α → Prop
  | idle | done _ => True
  | _ => False

instance : DecidablePred (@Resting α) := fun fetch => by cases fetch <;> unfold Resting <;> infer_instance

end Fetch

/-- What has happened at each position: who claimed it for a value, the value written there, who claimed it for reading
and the values read there. -/
structure History (ι : Type v) (κ : Type w) (α : Type u) where
  claimed : List (ι × α)
  written : Nat → Option α
  taken : List κ
  delivered : Nat → List (κ × α)

/-- A queue with its producers and consumers. -/
structure Exchange (ι : Type v) (κ : Type w) (α : Type u) where
  queue : MemQueue α
  producers : ι → Post α
  consumers : κ → Fetch α
  history : History ι κ α

namespace Exchange

variable {ι : Type v} {κ : Type w} {α : Type u}

inductive Event (ι : Type v) (κ : Type w) (α : Type u) where
  /-- A producer calls `post`. -/
  | post (i : ι) (val : α)
  | produce (i : ι) (spurious : Bool)
  /-- A consumer calls `fetch`. -/
  | fetch (c : κ)
  | consume (c : κ) (spurious : Bool)

/-- A queue that has numbered all its elements, as the constructor does for a power of two. -/
def make (capacity : Nat) (zero : α) : Exchange ι κ α :=
  { queue := .ofSize capacity capacity zero, producers := fun _ => .idle, consumers := fun _ => .idle,
    history := { claimed := [], written := fun _ => none, taken := [], delivered := fun _ => [] } }

variable [DecidableEq ι] [DecidableEq κ]

/-- What a step of a producer adds to the history. -/
def producedBy (i : ι) (history : History ι κ α) : Post α → Post α → History ι κ α
  | .claim _ _, .write val _ => { history with claimed := history.claimed ++ [(i, val)] }
  | .write val wpos, _ => { history with written := Function.update history.written wpos (some val) }
  | _, _ => history

/-- What a step of a consumer adds to the history. -/
def consumedBy (c : κ) (history : History ι κ α) : Fetch α → Fetch α → History ι κ α
  | .claim _, .read _ => { history with taken := history.taken ++ [c] }
  | .read _, .commit val rpos =>
    { history with delivered := Function.update history.delivered rpos (history.delivered rpos ++ [(c, val)]) }
  | _, _ => history

def step (s : Exchange ι κ α) : Event ι κ α → Option (Exchange ι κ α)
  | .post i val =>
    if (s.producers i).Resting then some { s with producers := Function.update s.producers i (.load val) } else none
  | .produce i spurious =>
    ((s.producers i).step s.queue spurious).map fun (queue, post) =>
      { s with queue, producers := Function.update s.producers i post,
               history := producedBy i s.history (s.producers i) post }
  | .fetch c =>
    if (s.consumers c).Resting then some { s with consumers := Function.update s.consumers c .load } else none
  | .consume c spurious =>
    ((s.consumers c).step s.queue spurious).map fun (queue, fetch) =>
      { s with queue, consumers := Function.update s.consumers c fetch,
               history := consumedBy c s.history (s.consumers c) fetch }

end Exchange

end Swirly
