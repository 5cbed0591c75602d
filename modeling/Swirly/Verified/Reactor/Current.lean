import Swirly.Lib.Run
import Swirly.Sys.EpollReactor

/-!
# Stale events

A registry beside the reactor says which subscription a descriptor has.  Calls may come at any time: from the handler of an
event, between two of them, from a timer.  Every event that is delivered goes to the subscription that the registry has.
-/

universe u

namespace Swirly

/-- A call of the reactor, through the handle of a subscription where it needs one. -/
inductive ReactorCall (σ : Type u) where
  | subscribe (fails : Bool) (fd : Nat) (events : UInt32) (slot : σ)
  | unsubscribe (fd sid : Nat)
  | setEventsSlot (fails : Bool) (fd sid : Nat) (events : UInt32) (slot : σ)
  | setEvents (fails : Bool) (fd sid : Nat) (events : UInt32)

/-- What a descriptor is subscribed for. -/
structure Subscription (σ : Type u) where
  sid : Nat
  events : UInt32
  slot : σ

/-- A call of a handler, with the subscription that its descriptor has then. -/
structure Invocation (σ : Type u) where
  fd : Nat
  /-- The subscription that the event was for. -/
  sid : Nat
  slot : σ
  events : UInt32
  current : Option (Subscription σ)

namespace EpollReactor

variable {σ : Type u}

def call (r : EpollReactor σ) : ReactorCall σ → Ctl × EpollReactor σ
  | .subscribe fails fd events slot => r.subscribe fails fd events slot
  | .unsubscribe fd sid => (.done, r.unsubscribe fd sid)
  | .setEventsSlot fails fd sid events slot => r.setEventsSlot fails fd sid events slot
  | .setEvents fails fd sid events => r.setEvents fails fd sid events

end EpollReactor

/-- The subscriptions and the handles that there have been. -/
structure Registry (σ : Type u) where
  current : Nat → Option (Subscription σ)
  issued : List (Nat × Nat)

namespace Registry

variable {σ : Type u} (g : Registry σ)

def empty : Registry σ := { current := fun _ => none, issued := [] }

/-- Change the subscription that a handle is for. -/
def change (fd sid : Nat) (f : Subscription σ → Option (Subscription σ)) : Registry σ :=
  match g.current fd with
  | some s => if s.sid = sid then { g with current := Function.update g.current fd (f s) } else g
  | none => g

/-- A call that has been made.  One that subscribes a descriptor takes it from its subscription, even when it throws. -/
def call (sid : Nat) : ReactorCall σ → Ctl → Registry σ
  | .subscribe _ fd events slot, .done =>
    { current := Function.update g.current fd (some { sid, events, slot }), issued := (fd, sid) :: g.issued }
  | .subscribe _ fd _ _, .threw => { g with current := Function.update g.current fd none }
  | .unsubscribe fd sid, _ => g.change fd sid fun _ => none
  | .setEventsSlot _ fd sid events slot, .done => g.change fd sid fun s => some { s with events := events, slot := slot }
  | .setEvents _ fd sid events, .done => g.change fd sid fun s => some { s with events := events }
  | .setEventsSlot _ _ _ _ _, .threw | .setEvents _ _ _ _, .threw => g

end Registry

/-- The reactor while it dispatches the events of a batch. -/
structure Dispatching (σ : Type u) where
  reactor : EpollReactor σ
  batch : List EpollEvent
  /-- A handler is running. -/
  running : Bool
  registry : Registry σ
  log : List (Invocation σ)

namespace Dispatching

variable {σ : Type u}

inductive Event (σ : Type u) where
  | call (c : ReactorCall σ)
  /-- A descriptor is closed, and leaves the kernel's list. -/
  | close (fd : Nat)
  /-- `wait` returns events. -/
  | wait (batch : List EpollEvent)
  /-- The next event of the batch. -/
  | next
  /-- The handler returns, or throws. -/
  | returned

def make (efd : Nat) : Dispatching σ :=
  { reactor := .make efd, batch := [], running := false, registry := .empty, log := [] }

/-- The id that the subscription of a call gets. -/
def nextSid (r : EpollReactor σ) : ReactorCall σ → Nat
  | .subscribe _ fd _ _ => (r.data fd).sid + 1
  | _ => 0

def step (s : Dispatching σ) : Event σ → Option (Dispatching σ)
  | .call c =>
    match c with
    | .subscribe _ fd _ _ =>
      -- Neither a descriptor nor an id is beyond `int`.
      if fd ≤ EpollReactor.intMax ∧ (s.reactor.data fd).sid < EpollReactor.intMax then
        some { s with
          reactor := (s.reactor.call c).2
          registry := s.registry.call (nextSid s.reactor c) c (s.reactor.call c).1 }
      else none
    | _ => some { s with
        reactor := (s.reactor.call c).2
        registry := s.registry.call (nextSid s.reactor c) c (s.reactor.call c).1 }
  | .close fd => some { s with reactor := s.reactor.setMux fd none }
  | .wait batch => if s.running = false ∧ s.batch = [] then some { s with batch } else none
  | .next =>
    if s.running then none
    else
      match s.batch with
      | [] => none
      | ev :: batch =>
        match s.reactor.deliver ev with
        | .skipped => some { s with batch }
        | .invoked slot fd events =>
          some { s with
            batch, running := true
            log := s.log ++ [{ fd, sid := EpollMuxer.sid ev, slot, events, current := s.registry.current fd }] }
        | .fault => none
  | .returned => if s.running then some { s with running := false } else none

/-- A call goes through a handle that was issued, and never to the reactor's own descriptor.  The kernel returns what it
was given for the descriptors on its list. -/
def Allowed (s : Dispatching σ) : Event σ → Prop
  | .call (.subscribe _ fd _ _) => fd ≠ s.reactor.efd
  | .call (.unsubscribe fd sid) | .call (.setEventsSlot _ fd sid _ _) | .call (.setEvents _ fd sid _) =>
    (fd, sid) ∈ s.registry.issued
  | .close fd => fd ≠ s.reactor.efd
  | .wait batch => ∀ ev ∈ batch, ∃ fd registered, s.reactor.mux fd = some registered ∧ ev.data = registered.data
  | .next | .returned => True

end Dispatching

end Swirly
