import Mathlib

/-!
# The reactor

`sys/EpollReactor.cpp` with the encoding of events in `sys/Muxer.hpp`.  The table has an element for every descriptor, and
the kernel has its own list of descriptors.  Time and the timers are left out.
-/

universe u

namespace Swirly

def eventIn : UInt32 := (1 : UInt32) <<< 0
def eventPri : UInt32 := (1 : UInt32) <<< 1
def eventOut : UInt32 := (1 : UInt32) <<< 2
def eventErr : UInt32 := (1 : UInt32) <<< 3
def eventHup : UInt32 := (1 : UInt32) <<< 4
def eventEt : UInt32 := (1 : UInt32) <<< 31

def epollIn : UInt32 := 0x001
def epollPri : UInt32 := 0x002
def epollOut : UInt32 := 0x004
def epollErr : UInt32 := 0x008
def epollHup : UInt32 := 0x010
def epollEt : UInt32 := 0x80000000

/-- `epoll_event`. -/
structure EpollEvent where
  events : UInt32
  data : Nat
  deriving DecidableEq

namespace EpollMuxer

def fd (ev : EpollEvent) : Nat := ev.data &&& 0xffffffff

def sid (ev : EpollEvent) : Nat := ev.data >>> 32

/-- Every bit of `all` that stands for one of the other kind. -/
def translate (all : List (UInt32 × UInt32)) (bits : UInt32) : UInt32 :=
  all.foldl (fun n bit => if bits &&& bit.1 ≠ 0 then n ||| bit.2 else n) 0

def bits : List (UInt32 × UInt32) :=
  [(epollIn, eventIn), (epollPri, eventPri), (epollOut, eventOut), (epollErr, eventErr), (epollHup, eventHup),
   (epollEt, eventEt)]

def events (ev : EpollEvent) : UInt32 := translate bits ev.events

/-- `set_events` of an event. -/
def event (fd sid : Nat) (events : UInt32) : EpollEvent :=
  { events := translate (bits.map Prod.swap) events, data := sid <<< 32 ||| fd }

end EpollMuxer

/-- An element of the table. -/
structure FdData (σ : Type u) where
  sid : Nat
  events : UInt32
  slot : Option σ

structure EpollReactor (σ : Type u) where
  efd : Nat
  /-- The descriptors of the kernel's list. -/
  mux : Nat → Option EpollEvent
  data : Nat → FdData σ

/-- How a call ends. -/
inductive Ctl where
  | done
  | threw
  deriving DecidableEq

namespace EpollReactor

variable {σ : Type u}

/-- The largest `int`. -/
def intMax : Nat := 2 ^ 31 - 1

def make (efd : Nat) : EpollReactor σ :=
  { efd := efd,
    mux := Function.update (fun _ => none) efd (some (EpollMuxer.event efd 0 eventIn)),
    data := Function.update (fun _ => { sid := 0, events := 0, slot := none }) efd { sid := 0, events := eventIn, slot := none } }

variable (r : EpollReactor σ)

def setData (fd : Nat) (ref : FdData σ) : EpollReactor σ := { r with data := Function.update r.data fd ref }

def setMux (fd : Nat) (ev : Option EpollEvent) : EpollReactor σ := { r with mux := Function.update r.mux fd ev }

/-- `do_subscribe`.  The kernel refuses a descriptor that it has, and may refuse others (`fails`).  The id is counted up in
any case. -/
def subscribe (fails : Bool) (fd : Nat) (events : UInt32) (slot : σ) : Ctl × EpollReactor σ :=
  let ref := { r.data fd with sid := (r.data fd).sid + 1 }
  if fails ∨ r.mux fd ≠ none then (.threw, r.setData fd ref)
  else (.done, (r.setMux fd (EpollMuxer.event fd ref.sid events)).setData fd { ref with events := events, slot := some slot })

/-- `do_unsubscribe`. -/
def unsubscribe (fd sid : Nat) : EpollReactor σ :=
  if (r.data fd).sid = sid then (r.setMux fd none).setData fd { r.data fd with events := 0, slot := none } else r

/-- The kernel changes a descriptor that it has, or refuses. -/
def modify (fails : Bool) (fd sid : Nat) (events : UInt32) : Ctl × EpollReactor σ :=
  if (r.data fd).events ≠ events then
    if fails ∨ r.mux fd = none then (.threw, r)
    else
      (.done, (r.setMux fd (EpollMuxer.event fd sid events)).setData fd { r.data fd with events := events })
  else (.done, r)

/-- `do_set_events` with a slot. -/
def setEventsSlot (fails : Bool) (fd sid : Nat) (events : UInt32) (slot : σ) : Ctl × EpollReactor σ :=
  if (r.data fd).sid = sid then
    match r.modify fails fd sid events with
    | (.threw, r) => (.threw, r)
    | (.done, r) => (.done, r.setData fd { r.data fd with slot := some slot })
  else (.done, r)

/-- `do_set_events`. -/
def setEvents (fails : Bool) (fd sid : Nat) (events : UInt32) : Ctl × EpollReactor σ :=
  if (r.data fd).sid = sid then r.modify fails fd sid events else (.done, r)

/-- What `dispatch` does with one event. -/
inductive Delivery (σ : Type u) where
  | skipped
  | invoked (slot : σ) (fd : Nat) (events : UInt32)
  /-- An empty slot is called. -/
  | fault

def deliver (ev : EpollEvent) : Delivery σ :=
  let fd := EpollMuxer.fd ev
  if fd = r.efd then .skipped
  else
    let ref := r.data fd
    if ref.sid > EpollMuxer.sid ev then .skipped
    else
      let events := EpollMuxer.events ev &&& ref.events
      if events = 0 then .skipped
      else
        match ref.slot with
        | some slot => .invoked slot fd events
        | none => .fault

end EpollReactor

end Swirly
