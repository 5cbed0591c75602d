import Swirly.Verified.Reactor.Stale

/-!
# Events go to the current subscription

Every step keeps the invariant, and with it an event is delivered only to the subscription that it was for.  A subscription
that has ended does not come back: the ids of its descriptor have gone past it.
-/

universe u

namespace Swirly

/-- The handle that a call goes through. -/
def ReactorCall.handle {σ : Type u} : ReactorCall σ → Option (Nat × Nat)
  | subscribe _ _ _ _ => none
  | unsubscribe fd sid | setEventsSlot _ fd sid _ _ | setEvents _ fd sid _ => some (fd, sid)

namespace Dispatching

variable {σ : Type u} {s s' t : Dispatching σ} {fd sid : Nat}

/-- The state after a call. -/
def called (s : Dispatching σ) (c : ReactorCall σ) : Dispatching σ :=
  { s with
    reactor := (s.reactor.call c).2
    registry := s.registry.call (nextSid s.reactor c) c (s.reactor.call c).1 }

theorem called_of_step {c : ReactorCall σ} (stepped : s.step (.call c) = some t) :
    t = s.called c ∧ ∀ fails fd events slot, c = .subscribe fails fd events slot →
      fd ≤ EpollReactor.intMax ∧ (s.reactor.data fd).sid < EpollReactor.intMax := by
  cases c with
  | subscribe fails fd events slot =>
    simp only [step] at stepped
    split at stepped
    next small =>
      refine ⟨(Option.some.inj stepped).symm, ?_⟩
      rintro _ _ _ _ same
      cases same
      exact small
    next => cases stepped
  | unsubscribe | setEventsSlot | setEvents =>
    exact ⟨(Option.some.inj stepped).symm, fun _ _ _ _ same => by cases same⟩

theorem called_eq {c : ReactorCall σ} {result : Ctl} {r : EpollReactor σ} (made : s.reactor.call c = (result, r)) :
    s.called c = { s with reactor := r, registry := s.registry.call (nextSid s.reactor c) c result } := by
  rw [called, made]

/-- A call through a handle of an earlier subscription does nothing. -/
theorem called_old {c : ReactorCall σ} (handle : c.handle = some (fd, sid)) (young : (s.reactor.data fd).sid ≠ sid)
    (old : ∀ sub, s.registry.current fd = some sub → sub.sid ≠ sid) : s.called c = s := by
  cases c with
  | subscribe => cases handle
  | unsubscribe fd' sid' =>
    cases handle
    simp only [called, EpollReactor.call, EpollReactor.unsubscribe, young, if_false, Registry.call,
      s.registry.change_old (fun _ => none) old]
  | setEventsSlot fails fd' sid' events slot =>
    cases handle
    simp only [called, EpollReactor.call, EpollReactor.setEventsSlot, young, if_false, Registry.call,
      s.registry.change_old (fun s => some { s with events := events, slot := slot }) old]
  | setEvents fails fd' sid' events =>
    cases handle
    simp only [called, EpollReactor.call, EpollReactor.setEvents, young, if_false, Registry.call,
      s.registry.change_old (fun s => some { s with events := events }) old]

/-- The subscription that a handle is for, if the id of the descriptor has not gone past it. -/
theorem handle_cases (sound : s.Sound fd) (issued : (fd, sid) ∈ s.registry.issued) :
    ((s.reactor.data fd).sid ≠ sid ∧ ∀ sub, s.registry.current fd = some sub → sub.sid ≠ sid) ∨
    (s.registry.current fd = none ∧ (s.reactor.data fd).sid = sid ∧ (s.reactor.data fd).events = 0 ∧
      s.reactor.mux fd = none) ∨
    ∃ sub, s.registry.current fd = some sub ∧ sub.sid = sid ∧ s.Holds fd sub := by
  cases current : s.registry.current fd with
  | none =>
    obtain ⟨events, mux⟩ | fresh := sound.gone (sound.issued sid issued).1 current
    · by_cases same : (s.reactor.data fd).sid = sid
      · exact .inr (.inl ⟨rfl, same, events, mux⟩)
      · exact .inl ⟨same, fun sub some_ => by cases some_⟩
    · exact .inl ⟨(fresh.issued sid issued).ne', fun sub some_ => by cases some_⟩
  | some sub =>
    have holds := sound.current sub current
    by_cases same : sub.sid = sid
    · exact .inr (.inr ⟨sub, rfl, same, holds⟩)
    · left
      refine ⟨by rw [holds.data]; exact same, ?_⟩
      intro other some_
      cases some_
      exact same

theorem change_absent (none_ : s.registry.current fd = none) (f : Subscription σ → Option (Subscription σ)) :
    s.registry.change fd sid f = s.registry :=
  s.registry.change_old f fun sub some_ => by rw [none_] at some_; cases some_

theorem change_present {sub : Subscription σ} (current : s.registry.current fd = some sub) (same : sub.sid = sid)
    (f : Subscription σ → Option (Subscription σ)) :
    (s.registry.change fd sid f).current fd = f sub ∧ (s.registry.change fd sid f).issued = s.registry.issued :=
  ⟨s.registry.change_current current same, (s.registry.change_aside fd sid f (Nat.succ_ne_self fd)).2⟩

theorem unsubscribe_sound (sound : s.Sound fd) (issued : (fd, sid) ∈ s.registry.issued) :
    (s.called (.unsubscribe fd sid)).Sound fd := by
  obtain ⟨young, old⟩ | ⟨none_, same, -, -⟩ | ⟨sub, current, same, holds⟩ := handle_cases sound issued
  · rw [called_old rfl young old]
    exact sound
  · apply sound_idle sound
    all_goals
      simp [called, EpollReactor.call, EpollReactor.unsubscribe, same, Registry.call, change_absent none_, none_]
  · have here : (s.reactor.data fd).sid = sid := by rw [holds.data]; exact same
    obtain ⟨changed, kept⟩ := change_present current same fun _ => none
    apply sound_idle sound
    case current => exact changed
    case issued => exact kept
    all_goals simp [called, EpollReactor.call, EpollReactor.unsubscribe, here]

theorem setEvents_sound (sound : s.Sound fd) (issued : (fd, sid) ∈ s.registry.issued) (fails : Bool) (events : UInt32) :
    (s.called (.setEvents fails fd sid events)).Sound fd := by
  have made : (s.reactor.data fd).sid = sid → s.reactor.call (.setEvents fails fd sid events) =
      s.reactor.modify fails fd sid events := fun here => by simp [EpollReactor.call, EpollReactor.setEvents, here]
  obtain ⟨f, change⟩ : ∃ f : Subscription σ → Option (Subscription σ), f = fun s => some { s with events := events } := ⟨_, rfl⟩
  obtain ⟨young, old⟩ | ⟨none_, here, quiet, absent⟩ | ⟨sub, current, same, holds⟩ := handle_cases sound issued
  · rw [called_old rfl young old]
    exact sound
  · have kept : s.registry.change fd sid f = s.registry := change_absent none_ f
    obtain ⟨result, -⟩ | ⟨result, -⟩ | ⟨-, present⟩ := s.reactor.modify_cases fails fd sid events
    · rw [called_eq ((made here).trans result)]
      exact sound
    · rw [called_eq ((made here).trans result), Registry.call, ← change, kept]
      exact sound
    · exact absurd absent present
  · have here : (s.reactor.data fd).sid = sid := by rw [holds.data]; exact same
    obtain ⟨changed, kept⟩ := change_present current same f
    have value : f sub = some { sub with events := events } := by rw [change]
    rw [value] at changed
    obtain ⟨result, -⟩ | ⟨result, unchanged⟩ | ⟨result, -⟩ := s.reactor.modify_cases fails fd sid events
    · rw [called_eq ((made here).trans result)]
      exact sound
    · rw [called_eq ((made here).trans result), Registry.call, ← change]
      rw [holds.data] at unchanged
      refine sound_modified sound holds changed rfl rfl (fun ev some_ => .inl some_) ?_ rfl kept
      rw [← unchanged]
      exact holds.data
    · rw [called_eq ((made here).trans result), Registry.call, ← change]
      refine sound_modified sound holds changed rfl rfl ?_ ?_ rfl kept
      · intro ev some_
        rw [EpollReactor.mux_setData, EpollReactor.mux_setMux, Option.some.injEq] at some_
        exact .inr ⟨events, by rw [same, some_]⟩
      · rw [EpollReactor.data_setData, holds.data]

theorem setEventsSlot_sound (sound : s.Sound fd) (issued : (fd, sid) ∈ s.registry.issued) (fails : Bool) (events : UInt32)
    (slot : σ) : (s.called (.setEventsSlot fails fd sid events slot)).Sound fd := by
  have made : ∀ {result : Ctl} {r : EpollReactor σ}, (s.reactor.data fd).sid = sid →
      s.reactor.modify fails fd sid events = (result, r) →
      s.reactor.call (.setEventsSlot fails fd sid events slot) =
        match result with
        | .threw => (.threw, r)
        | .done => (.done, r.setData fd { r.data fd with slot := some slot }) := by
    intro result r here modified
    simp only [EpollReactor.call, EpollReactor.setEventsSlot, here, if_true, modified]
    cases result with
    | done => rfl
    | threw => rfl
  obtain ⟨f, change⟩ : ∃ f : Subscription σ → Option (Subscription σ),
      f = fun s => some { s with events := events, slot := slot } := ⟨_, rfl⟩
  obtain ⟨young, old⟩ | ⟨none_, here, quiet, absent⟩ | ⟨sub, current, same, holds⟩ := handle_cases sound issued
  · rw [called_old rfl young old]
    exact sound
  · have kept : s.registry.change fd sid f = s.registry := change_absent none_ f
    obtain ⟨result, -⟩ | ⟨result, -⟩ | ⟨-, present⟩ := s.reactor.modify_cases fails fd sid events
    · rw [called_eq (made here result)]
      exact sound
    · rw [called_eq (made here result), Registry.call, ← change, kept]
      refine sound_idle sound rfl absent ?_ ?_ rfl none_ rfl
      · rw [EpollReactor.data_setData]
      · rw [EpollReactor.data_setData]
        exact quiet
    · exact absurd absent present
  · have here : (s.reactor.data fd).sid = sid := by rw [holds.data]; exact same
    obtain ⟨changed, kept⟩ := change_present current same f
    have value : f sub = some { sub with events := events, slot := slot } := by rw [change]
    rw [value] at changed
    obtain ⟨result, -⟩ | ⟨result, unchanged⟩ | ⟨result, -⟩ := s.reactor.modify_cases fails fd sid events
    · rw [called_eq (made here result)]
      exact sound
    · rw [called_eq (made here result), Registry.call, ← change]
      rw [holds.data] at unchanged
      refine sound_modified sound holds changed rfl rfl (fun ev some_ => .inl some_) ?_ rfl kept
      rw [EpollReactor.data_setData, holds.data, ← unchanged]
    · rw [called_eq (made here result), Registry.call, ← change]
      refine sound_modified sound holds changed rfl rfl ?_ ?_ rfl kept
      · intro ev some_
        rw [EpollReactor.mux_setData, EpollReactor.mux_setData, EpollReactor.mux_setMux, Option.some.injEq] at some_
        exact .inr ⟨events, by rw [same, some_]⟩
      · rw [EpollReactor.data_setData, EpollReactor.data_setData, holds.data]

theorem subscribe_sound (sound : s.Sound fd) (own : fd ≠ s.reactor.efd) (small : fd ≤ EpollReactor.intMax)
    (room : (s.reactor.data fd).sid < EpollReactor.intMax) (fails : Bool) (events : UInt32) (slot : σ) :
    (s.called (.subscribe fails fd events slot)).Sound fd := by
  by_cases refused : fails ∨ s.reactor.mux fd ≠ none
  · have made : s.reactor.call (.subscribe fails fd events slot) =
        (.threw, s.reactor.setData fd { s.reactor.data fd with sid := (s.reactor.data fd).sid + 1 }) := by
      simp only [EpollReactor.call, EpollReactor.subscribe]
      rw [if_pos refused]
    rw [called_eq made]
    refine sound_refused sound own room rfl rfl ?_ rfl ?_ rfl
    · rw [EpollReactor.data_setData]
    · exact Function.update_self ..
  · have made : s.reactor.call (.subscribe fails fd events slot) =
        (.done, (s.reactor.setMux fd (EpollMuxer.event fd ((s.reactor.data fd).sid + 1) events)).setData fd
          { sid := (s.reactor.data fd).sid + 1, events := events, slot := some slot }) := by
      simp only [EpollReactor.call, EpollReactor.subscribe]
      rw [if_neg refused]
    rw [called_eq made]
    refine sound_subscribed sound own small room events slot rfl ?_ ?_ rfl ?_ rfl
    · rw [EpollReactor.mux_setData, EpollReactor.mux_setMux]
    · rw [EpollReactor.data_setData]
    · exact Function.update_self ..

/-! ## Steps -/

theorem called_inv (inv : s.Inv) {c : ReactorCall σ} (allowed : s.Allowed (.call c)) (stepped : s.step (.call c) = some t) :
    t.Inv := by
  obtain ⟨rfl, small⟩ := called_of_step stepped
  intro fd
  by_cases here : fd = c.fd
  · subst here
    cases c with
    | subscribe fails fd events slot =>
      obtain ⟨inside, room⟩ := small fails fd events slot rfl
      exact subscribe_sound (inv fd) allowed inside room fails events slot
    | unsubscribe fd sid => exact unsubscribe_sound (inv fd) allowed
    | setEventsSlot fails fd sid events slot => exact setEventsSlot_sound (inv fd) allowed fails events slot
    | setEvents fails fd sid events => exact setEvents_sound (inv fd) allowed fails events
  · obtain ⟨efd, data, mux⟩ := s.reactor.call_aside c here
    obtain ⟨current, issued⟩ := s.registry.call_aside (nextSid s.reactor c) c (s.reactor.call c).1 here
    exact (inv fd).aside ⟨efd, data, mux, rfl, current, issued⟩

/-- A descriptor that is closed leaves the kernel's list. -/
theorem close_sound (sound : s.Sound fd) : ({ s with reactor := s.reactor.setMux fd none } : Dispatching σ).Sound fd := by
  have absent : (s.reactor.setMux fd none).mux fd = none := s.reactor.mux_setMux fd none
  constructor
  case bound => exact sound.bound
  case kernel =>
    intro ev registered
    rw [absent] at registered
    cases registered
  case batch => exact sound.batch
  case issued => exact sound.issued
  case current => exact fun sub some_ => ⟨(sound.current sub some_).data, (sound.current sub some_).issued⟩
  case gone =>
    intro own none_
    obtain ⟨events, -⟩ | fresh := sound.gone own none_
    · exact .inl ⟨events, absent⟩
    · right
      constructor
      · intro ev registered
        rw [absent] at registered
        cases registered
      · exact fresh.batch
      · exact fresh.issued

/-- Events that are known to the reactor may come, or go. -/
theorem sound_batch (sound : s.Sound fd) (efd : s'.reactor = s.reactor) (registry : s'.registry = s.registry)
    (known : ∀ ev ∈ s'.batch, EpollMuxer.fd ev = fd → ev ∈ s.batch ∨
      ∃ registered, s.reactor.mux fd = some registered ∧ EpollMuxer.sid ev = EpollMuxer.sid registered) : s'.Sound fd := by
  constructor
  case bound => rw [efd]; exact sound.bound
  case kernel => rw [efd]; exact sound.kernel
  case batch =>
    intro ev member same
    rw [efd]
    obtain old | ⟨registered, some_, equal⟩ := known ev member same
    · exact sound.batch ev old same
    · rw [equal]
      exact (sound.kernel registered some_).2
  case issued => rw [efd, registry]; exact sound.issued
  case current =>
    intro sub some_
    rw [registry] at some_
    exact ⟨by rw [efd]; exact (sound.current sub some_).data, by rw [registry]; exact (sound.current sub some_).issued⟩
  case gone =>
    intro own none_
    rw [efd] at own
    rw [registry] at none_
    obtain quiet | fresh := sound.gone own none_
    · exact .inl (by rw [efd]; exact quiet)
    · right
      constructor
      · rw [efd]; exact fresh.kernel
      · intro ev member same
        rw [efd]
        obtain old | ⟨registered, some_, equal⟩ := known ev member same
        · exact fresh.batch ev old same
        · rw [equal]
          exact fresh.kernel registered some_
      · rw [efd, registry]; exact fresh.issued

theorem Inv.step (inv : s.Inv) {e : Event σ} (allowed : s.Allowed e) (stepped : s.step e = some t) : t.Inv := by
  cases e with
  | call c => exact called_inv inv allowed stepped
  | close fd =>
    obtain rfl := Option.some.inj stepped
    intro g
    by_cases here : g = fd
    · subst here
      exact close_sound (inv g)
    · exact (inv g).aside ⟨rfl, rfl, s.reactor.mux_setMux_of_ne here none, rfl, rfl, fun _ => Iff.rfl⟩
  | wait batch =>
    simp only [Dispatching.step] at stepped
    split at stepped
    next =>
      obtain rfl := Option.some.inj stepped
      intro fd
      refine sound_batch (inv fd) rfl rfl ?_
      intro ev member same
      obtain ⟨g, registered, some_, data⟩ := allowed ev member
      have other : EpollMuxer.fd ev = EpollMuxer.fd registered := by rw [EpollMuxer.fd, EpollMuxer.fd, data]
      have back := ((inv g).kernel registered some_).1
      obtain rfl : g = fd := by rw [← back, ← other, same]
      exact .inr ⟨registered, some_, by rw [EpollMuxer.sid, EpollMuxer.sid, data]⟩
    next => cases stepped
  | next =>
    have rest : t.reactor = s.reactor ∧ t.registry = s.registry ∧ ∀ ev ∈ t.batch, ev ∈ s.batch := by
      simp only [Dispatching.step] at stepped
      split at stepped
      next => cases stepped
      next =>
        split at stepped
        next => cases stepped
        next ev batch split_ =>
          rw [split_]
          split at stepped
          next =>
            obtain rfl := Option.some.inj stepped
            exact ⟨rfl, rfl, fun ev member => List.mem_cons_of_mem _ member⟩
          next =>
            obtain rfl := Option.some.inj stepped
            exact ⟨rfl, rfl, fun ev member => List.mem_cons_of_mem _ member⟩
          next => cases stepped
    exact fun fd => sound_batch (inv fd) rest.1 rest.2.1 fun ev member _ => .inl (rest.2.2 ev member)
  | returned =>
    simp only [Dispatching.step] at stepped
    split at stepped
    next =>
      obtain rfl := Option.some.inj stepped
      exact fun fd => sound_batch (inv fd) rfl rfl fun ev member _ => .inl member
    next => cases stepped

/-! ## Deliveries -/

end Dispatching

/-- The handler is the one of the subscription that the descriptor has, which is the one that the event was for, and the
events are some that it is interested in. -/
def Invocation.Current {σ : Type u} (i : Invocation σ) : Prop :=
  ∃ sub, i.current = some sub ∧ sub.sid = i.sid ∧ sub.slot = i.slot ∧ i.events ≠ 0 ∧ i.events &&& sub.events = i.events

namespace Dispatching

variable {σ : Type u} {s s' t : Dispatching σ} {fd sid : Nat}

/-- An event that is not skipped is for the current subscription. -/
theorem deliver_cases (inv : s.Inv) {ev : EpollEvent} (member : ev ∈ s.batch) :
    s.reactor.deliver ev = .skipped ∨
    ∃ sub, s.registry.current (EpollMuxer.fd ev) = some sub ∧ sub.sid = EpollMuxer.sid ev ∧
      EpollMuxer.events ev &&& sub.events ≠ 0 ∧
      s.reactor.deliver ev = .invoked sub.slot (EpollMuxer.fd ev) (EpollMuxer.events ev &&& sub.events) := by
  have sound := inv (EpollMuxer.fd ev)
  simp only [EpollReactor.deliver]
  by_cases own : EpollMuxer.fd ev = s.reactor.efd
  · exact .inl (if_pos own)
  rw [if_neg own]
  by_cases young : (s.reactor.data (EpollMuxer.fd ev)).sid > EpollMuxer.sid ev
  · exact .inl (if_pos young)
  rw [if_neg young]
  by_cases quiet : EpollMuxer.events ev &&& (s.reactor.data (EpollMuxer.fd ev)).events = 0
  · exact .inl (if_pos quiet)
  rw [if_neg quiet]
  right
  cases current : s.registry.current (EpollMuxer.fd ev) with
  | none =>
    -- Without a subscription there is no interest, or the id is too young.
    obtain ⟨events, -⟩ | fresh := sound.gone own current
    · rw [events] at quiet
      exact absurd (by simp) quiet
    · exact absurd (fresh.batch ev member rfl) young
  | some sub =>
    have holds := sound.current sub current
    have same : sub.sid = EpollMuxer.sid ev := by
      have known := sound.batch ev member rfl
      rw [holds.data] at young known
      exact Nat.le_antisymm (not_lt.mp young) known
    rw [holds.data] at quiet ⊢
    exact ⟨sub, rfl, same, quiet, rfl⟩

/-- The log grows by invocations for the current subscription only. -/
theorem log_step (inv : s.Inv) {e : Event σ} (stepped : s.step e = some t) :
    t.log = s.log ∨ ∃ i, t.log = s.log ++ [i] ∧ i.Current ∧ i.current = s.registry.current i.fd := by
  cases e with
  | call c =>
    obtain ⟨rfl, -⟩ := called_of_step stepped
    exact .inl rfl
  | close fd =>
    obtain rfl := Option.some.inj stepped
    exact .inl rfl
  | wait batch =>
    simp only [Dispatching.step] at stepped
    split at stepped
    next =>
      obtain rfl := Option.some.inj stepped
      exact .inl rfl
    next => cases stepped
  | returned =>
    simp only [Dispatching.step] at stepped
    split at stepped
    next =>
      obtain rfl := Option.some.inj stepped
      exact .inl rfl
    next => cases stepped
  | next =>
    simp only [Dispatching.step] at stepped
    split at stepped
    next => cases stepped
    next =>
      cases split_ : s.batch with
      | nil =>
        rw [split_] at stepped
        cases stepped
      | cons ev batch =>
        have member : ev ∈ s.batch := by
          rw [split_]
          exact List.mem_cons_self ..
        rw [split_] at stepped
        obtain skipped | ⟨sub, current, same, some_, invoked⟩ := deliver_cases inv member
        · simp only [skipped] at stepped
          obtain rfl := Option.some.inj stepped
          exact .inl rfl
        · simp only [invoked] at stepped
          obtain rfl := Option.some.inj stepped
          right
          refine ⟨_, rfl, ⟨sub, current, same, rfl, some_, ?_⟩, rfl⟩
          show EpollMuxer.events ev &&& sub.events &&& sub.events = EpollMuxer.events ev &&& sub.events
          rw [UInt32.and_assoc, UInt32.and_self]

/-- A subscription that there was, and is no more. -/
def Ended (s : Dispatching σ) (fd sid : Nat) : Prop :=
  (fd, sid) ∈ s.registry.issued ∧ ∀ sub, s.registry.current fd = some sub → sub.sid ≠ sid

end Dispatching

theorem Registry.change_sid {σ : Type u} (g : Registry σ) (fd sid : Nat) {f : Subscription σ → Option (Subscription σ)}
    (keeps : ∀ sub sub', f sub = some sub' → sub'.sid = sub.sid) {h : Nat} {sub' : Subscription σ}
    (current : (g.change fd sid f).current h = some sub') : ∃ sub, g.current h = some sub ∧ sub'.sid = sub.sid := by
  rw [Registry.change] at current
  split at current
  next sub some_ =>
    split at current
    next =>
      have current : Function.update g.current fd (f sub) h = some sub' := current
      by_cases here : h = fd
      · subst here
        rw [Function.update_self] at current
        exact ⟨sub, some_, keeps sub sub' current⟩
      · rw [Function.update_of_ne here] at current
        exact ⟨sub', current, rfl⟩
    next => exact ⟨sub', current, rfl⟩
  next => exact ⟨sub', current, rfl⟩

/-- A call leaves a subscription with its id, or makes one with the next id. -/
theorem Registry.call_sid {σ : Type u} (g : Registry σ) (sid : Nat) (c : ReactorCall σ) (result : Ctl) {h : Nat}
    {sub' : Subscription σ} (current : (g.call sid c result).current h = some sub') :
    (∃ sub, g.current h = some sub ∧ sub'.sid = sub.sid) ∨
      sub'.sid = sid ∧ ∃ fails events slot, c = .subscribe fails h events slot := by
  cases c with
  | subscribe fails fd events slot =>
    cases result with
    | done =>
      have current : Function.update g.current fd (some { sid, events, slot }) h = some sub' := current
      by_cases here : h = fd
      · subst here
        rw [Function.update_self, Option.some.injEq] at current
        subst current
        exact .inr ⟨rfl, fails, events, slot, rfl⟩
      · rw [Function.update_of_ne here] at current
        exact .inl ⟨sub', current, rfl⟩
    | threw =>
      have current : Function.update g.current fd none h = some sub' := current
      by_cases here : h = fd
      · subst here
        rw [Function.update_self] at current
        cases current
      · rw [Function.update_of_ne here] at current
        exact .inl ⟨sub', current, rfl⟩
  | unsubscribe fd n => exact .inl (g.change_sid fd n (fun _ _ none_ => by cases none_) current)
  | setEventsSlot fails fd n events slot =>
    cases result with
    | done => exact .inl (g.change_sid fd n (fun _ _ some_ => by cases some_; rfl) current)
    | threw => exact .inl ⟨sub', current, rfl⟩
  | setEvents fails fd n events =>
    cases result with
    | done => exact .inl (g.change_sid fd n (fun _ _ some_ => by cases some_; rfl) current)
    | threw => exact .inl ⟨sub', current, rfl⟩

theorem Registry.issued_call {σ : Type u} (g : Registry σ) (sid : Nat) (c : ReactorCall σ) (result : Ctl) {x : Nat × Nat}
    (issued : x ∈ g.issued) : x ∈ (g.call sid c result).issued := by
  cases c with
  | subscribe fails fd events slot =>
    cases result with
    | done => exact List.mem_cons_of_mem _ issued
    | threw => exact issued
  | unsubscribe fd n =>
    rw [call, (g.change_aside fd n _ (Nat.succ_ne_self fd)).2]
    exact issued
  | setEventsSlot fails fd n events slot =>
    cases result with
    | done =>
      rw [call, (g.change_aside fd n _ (Nat.succ_ne_self fd)).2]
      exact issued
    | threw => exact issued
  | setEvents fails fd n events =>
    cases result with
    | done =>
      rw [call, (g.change_aside fd n _ (Nat.succ_ne_self fd)).2]
      exact issued
    | threw => exact issued

namespace Dispatching

variable {σ : Type u} {s s' t : Dispatching σ} {fd sid : Nat}

theorem registry_step {e : Event σ} (stepped : s.step e = some t) :
    t.registry = s.registry ∨ ∃ c, e = .call c ∧ t = s.called c := by
  cases e with
  | call c => exact .inr ⟨c, rfl, (called_of_step stepped).1⟩
  | close fd =>
    obtain rfl := Option.some.inj stepped
    exact .inl rfl
  | wait batch =>
    simp only [Dispatching.step] at stepped
    split at stepped
    next =>
      obtain rfl := Option.some.inj stepped
      exact .inl rfl
    next => cases stepped
  | returned =>
    simp only [Dispatching.step] at stepped
    split at stepped
    next =>
      obtain rfl := Option.some.inj stepped
      exact .inl rfl
    next => cases stepped
  | next =>
    simp only [Dispatching.step] at stepped
    split at stepped
    next => cases stepped
    next =>
      split at stepped
      next => cases stepped
      next =>
        split at stepped
        next =>
          obtain rfl := Option.some.inj stepped
          exact .inl rfl
        next =>
          obtain rfl := Option.some.inj stepped
          exact .inl rfl
        next => cases stepped

/-- A subscription that has ended does not come back, for the next id of its descriptor is younger. -/
theorem Ended.step (ended : s.Ended fd sid) (inv : s.Inv) {e : Event σ} (stepped : s.step e = some t) : t.Ended fd sid := by
  obtain same | ⟨c, -, rfl⟩ := registry_step stepped
  · rw [Ended, same]
    exact ended
  · refine ⟨s.registry.issued_call _ c _ ended.1, ?_⟩
    intro sub' current
    obtain ⟨sub, before, kept⟩ | ⟨next, fails, events, slot, rfl⟩ := s.registry.call_sid _ c _ current
    · rw [kept]
      exact ended.2 sub before
    · have below := ((inv fd).issued sid ended.1).2.2
      rw [next, nextSid]
      omega

theorem ended_of_unsubscribe (issued : (fd, sid) ∈ s.registry.issued)
    (stepped : s.step (.call (.unsubscribe fd sid)) = some t) : t.Ended fd sid := by
  obtain ⟨rfl, -⟩ := called_of_step stepped
  refine ⟨s.registry.issued_call 0 (.unsubscribe fd sid) .done issued, ?_⟩
  intro sub' current
  cases before : s.registry.current fd with
  | none =>
    obtain ⟨sub, some_, -⟩ := s.registry.change_sid fd sid (fun _ _ none_ => by cases none_) current
    rw [before] at some_
    cases some_
  | some sub =>
    have current : (s.registry.change fd sid fun _ => none).current fd = some sub' := current
    by_cases same : sub.sid = sid
    · rw [s.registry.change_current before same] at current
      cases current
    · rw [s.registry.change_old _ fun other some_ => by rw [before] at some_; cases some_; exact same, before] at current
      cases current
      exact same

/-- After the end of a subscription the log has no more invocations for it. -/
theorem Ended.run (ended : s.Ended fd sid) (inv : s.Inv) {more : List (Event σ)}
    (run : Run Dispatching.step Allowed s more t) :
    t.Ended fd sid ∧ t.Inv ∧ ∃ later, t.log = s.log ++ later ∧ ∀ i ∈ later, ¬ (i.fd = fd ∧ i.sid = sid) := by
  induction run with
  | nil => exact ⟨ended, inv, [], (List.append_nil _).symm, List.forall_mem_nil _⟩
  | snoc _ allowed stepped inductionHypothesis =>
    obtain ⟨ended, inv, later, log, apart⟩ := inductionHypothesis
    refine ⟨ended.step inv stepped, inv.step allowed stepped, ?_⟩
    obtain same | ⟨i, added, ⟨sub, some_, id, -⟩, current⟩ := log_step inv stepped
    · exact ⟨later, by rw [same, log], apart⟩
    · refine ⟨later ++ [i], by rw [added, log, List.append_assoc], ?_⟩
      intro j member
      rw [List.mem_append, List.mem_singleton] at member
      obtain old | rfl := member
      · exact apart j old
      · rintro ⟨rfl, rfl⟩
        exact ended.2 sub (by rw [← current, some_]) id

/-- In every run, events go to current subscriptions only; an empty slot is never called; what has ended is not called
again; and a call through the handle of an earlier subscription changes nothing. -/
theorem stale_never_delivered {efd : Nat} (small : efd ≤ EpollReactor.intMax) {ops : List (Event σ)}
    (run : Run step Allowed (make efd : Dispatching σ) ops s) :
    (∀ i ∈ s.log, i.Current) ∧
    (s.running = false → s.batch ≠ [] → ∃ t, s.step .next = some t) ∧
    (∀ fd sid t, (fd, sid) ∈ s.registry.issued → s.step (.call (.unsubscribe fd sid)) = some t → t.Ended fd sid) ∧
    (∀ fd sid more t, s.Ended fd sid → Run step Allowed s more t →
      ∃ later, t.log = s.log ++ later ∧ ∀ i ∈ later, ¬ (i.fd = fd ∧ i.sid = sid)) ∧
    (∀ fd sid sub c, (fd, sid) ∈ s.registry.issued → s.registry.current fd = some sub → sub.sid ≠ sid →
      c.handle = some (fd, sid) → s.step (.call c) = some s) := by
  have inv : s.Inv := run.invariant (fun _ _ _ inv allowed stepped => inv.step allowed stepped) (inv_make small)
  refine ⟨?_, ?_, ?_, ?_, ?_⟩
  · have both : s.Inv ∧ ∀ i ∈ s.log, i.Current := by
      apply run.invariant _ ⟨inv_make small, List.forall_mem_nil _⟩
      rintro s e t ⟨inv, log⟩ allowed stepped
      refine ⟨inv.step allowed stepped, ?_⟩
      obtain same | ⟨i, added, current, -⟩ := log_step inv stepped
      · rw [same]
        exact log
      · rw [added]
        intro j member
        rw [List.mem_append, List.mem_singleton] at member
        obtain old | rfl := member
        · exact log j old
        · exact current
    exact both.2
  · intro idle some_
    cases split_ : s.batch with
    | nil => exact absurd split_ some_
    | cons ev batch =>
      have member : ev ∈ s.batch := by
        rw [split_]
        exact List.mem_cons_self ..
      simp only [step, idle, split_]
      obtain skipped | ⟨sub, -, -, -, invoked⟩ := deliver_cases inv member
      · simp [skipped]
      · simp [invoked]
  · exact fun fd sid t issued stepped => ended_of_unsubscribe issued stepped
  · exact fun fd sid more t ended run => (ended.run inv run).2.2
  · intro fd sid sub c issued current other handle
    have young : (s.reactor.data fd).sid ≠ sid := by
      rw [((inv fd).current sub current).data]
      exact other
    have same := called_old handle young fun sub' some_ => by rw [current] at some_; cases some_; exact other
    cases c with
    | subscribe => cases handle
    | unsubscribe | setEventsSlot | setEvents => exact congrArg some same

/-- What is allowed, with the entries of the kernel's list looked up by the descriptors in the events. -/
def Foreseen (s : Dispatching σ) : Event σ → Prop
  | .call (.subscribe _ fd _ _) => fd ≠ s.reactor.efd
  | .call (.unsubscribe fd sid) | .call (.setEventsSlot _ fd sid _ _) | .call (.setEvents _ fd sid _) =>
    (fd, sid) ∈ s.registry.issued
  | .close fd => fd ≠ s.reactor.efd
  | .wait batch => ∀ ev ∈ batch, (s.reactor.mux (EpollMuxer.fd ev)).map EpollEvent.data = some ev.data
  | .next | .returned => True

instance (s : Dispatching σ) : (e : Event σ) → Decidable (s.Foreseen e)
  | .call (.subscribe _ fd _ _) => inferInstanceAs (Decidable (fd ≠ s.reactor.efd))
  | .call (.unsubscribe fd sid) | .call (.setEventsSlot _ fd sid _ _) | .call (.setEvents _ fd sid _) =>
    inferInstanceAs (Decidable ((fd, sid) ∈ s.registry.issued))
  | .close fd => inferInstanceAs (Decidable (fd ≠ s.reactor.efd))
  | .wait batch => inferInstanceAs (Decidable (∀ ev ∈ batch, _ = some ev.data))
  | .next | .returned => inferInstanceAs (Decidable True)

theorem Foreseen.allowed {e : Event σ} (foreseen : s.Foreseen e) : s.Allowed e := by
  cases e with
  | call c => cases c <;> exact foreseen
  | close fd => exact foreseen
  | wait batch =>
    intro ev member
    obtain ⟨registered, some_, same⟩ := Option.map_eq_some_iff.mp (foreseen ev member)
    exact ⟨_, registered, some_, same.symm⟩
  | next | returned => trivial

/-- The first handler drops both descriptors and subscribes them anew, while the batch has more events for them. -/
def renewed : List (Event Nat) :=
  [.call (.subscribe false 5 eventIn 0), .call (.subscribe false 6 (eventIn ||| eventOut) 1),
   .wait [EpollMuxer.event 5 1 (eventIn ||| eventOut), EpollMuxer.event 6 1 eventIn, EpollMuxer.event 5 1 eventIn],
   .next, .call (.unsubscribe 6 1), .close 6, .call (.subscribe false 6 eventIn 2), .call (.unsubscribe 5 1),
   .call (.subscribe false 5 eventIn 3), .returned, .next, .next, .wait [EpollMuxer.event 6 2 eventIn], .next]

/-- The other events of the batch are skipped, and so is a change through an old handle. -/
theorem stale_delivered_once :
    ∃ s : Dispatching Nat, s.log.map (fun i => (i.fd, i.sid, i.slot)) = [(5, 1, 0), (6, 2, 2)] ∧ (∀ i ∈ s.log, i.Current) ∧
      s.step (.call (.setEvents false 6 1 eventOut)) = some s := by
  have executed : (Run.exec step Foreseen (make 3) renewed).map (fun s =>
      (s.log.map fun i => (i.fd, i.sid, i.slot), s.registry.issued, (s.registry.current 6).map Subscription.sid)) =
      some ([(5, 1, 0), (6, 2, 2)], [(5, 2), (6, 2), (6, 1), (5, 1)], some 2) := by decide +kernel
  obtain ⟨s, done, results⟩ := Option.map_eq_some_iff.mp executed
  simp only [Prod.mk.injEq] at results
  obtain ⟨log, issued, current⟩ := results
  obtain ⟨sub, some_, sid⟩ := Option.map_eq_some_iff.mp current
  have run : Run step Allowed (make 3) renewed s := (Run.of_exec done).mono fun _ _ foreseen => foreseen.allowed
  have old : (6, 1) ∈ s.registry.issued := by
    rw [issued]
    decide
  have younger : sub.sid ≠ 1 := by
    rw [sid]
    decide
  obtain ⟨delivered, -, -, -, unchanged⟩ := stale_never_delivered (by decide) run
  exact ⟨s, log, delivered, unchanged 6 1 sub (.setEvents false 6 1 eventOut) old some_ younger rfl⟩

end Dispatching

end Swirly
