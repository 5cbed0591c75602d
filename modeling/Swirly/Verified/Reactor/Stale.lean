import Swirly.Verified.Reactor.Current

/-!
# No stale event is delivered

The id of a descriptor only grows, and what the kernel and the batch hold for it is no younger.  A descriptor without a
subscription either has no interest and is not with the kernel, or its id is younger than everything that is known of it.
-/

universe u

namespace Swirly

namespace EpollMuxer

theorem fd_event {fd : Nat} (small : fd ≤ EpollReactor.intMax) (sid : Nat) (events : UInt32) :
    EpollMuxer.fd (event fd sid events) = fd := by
  have below : fd < 2 ^ 32 := by
    rw [EpollReactor.intMax] at small
    omega
  show (sid <<< 32 ||| fd) &&& (2 ^ 32 - 1) = fd
  rw [← Nat.shiftLeft_add_eq_or_of_lt below, Nat.and_two_pow_sub_one_eq_mod, Nat.shiftLeft_eq]
  omega

theorem sid_event {fd : Nat} (small : fd ≤ EpollReactor.intMax) (sid : Nat) (events : UInt32) :
    EpollMuxer.sid (event fd sid events) = sid := by
  have below : fd < 2 ^ 32 := by
    rw [EpollReactor.intMax] at small
    omega
  show (sid <<< 32 ||| fd) >>> 32 = sid
  rw [← Nat.shiftLeft_add_eq_or_of_lt below, Nat.shiftRight_eq_div_pow, Nat.shiftLeft_eq]
  omega

end EpollMuxer

namespace Dispatching

variable {σ : Type u} {s s' t : Dispatching σ} {fd sid : Nat}

/-- The id of the descriptor is younger than everything that is known of it. -/
structure Fresh (s : Dispatching σ) (fd : Nat) : Prop where
  kernel : ∀ ev, s.reactor.mux fd = some ev → EpollMuxer.sid ev < (s.reactor.data fd).sid
  batch : ∀ ev ∈ s.batch, EpollMuxer.fd ev = fd → EpollMuxer.sid ev < (s.reactor.data fd).sid
  issued : ∀ sid, (fd, sid) ∈ s.registry.issued → sid < (s.reactor.data fd).sid

/-- Nothing can be delivered to the descriptor. -/
def Idle (s : Dispatching σ) (fd : Nat) : Prop :=
  (s.reactor.data fd).events = 0 ∧ s.reactor.mux fd = none ∨ s.Fresh fd

/-- The table has the subscription. -/
structure Holds (s : Dispatching σ) (fd : Nat) (sub : Subscription σ) : Prop where
  data : s.reactor.data fd = { sid := sub.sid, events := sub.events, slot := some sub.slot }
  issued : (fd, sub.sid) ∈ s.registry.issued

/-- What holds of one descriptor. -/
structure Sound (s : Dispatching σ) (fd : Nat) : Prop where
  bound : (s.reactor.data fd).sid ≤ EpollReactor.intMax
  kernel : ∀ ev, s.reactor.mux fd = some ev → EpollMuxer.fd ev = fd ∧ EpollMuxer.sid ev ≤ (s.reactor.data fd).sid
  batch : ∀ ev ∈ s.batch, EpollMuxer.fd ev = fd → EpollMuxer.sid ev ≤ (s.reactor.data fd).sid
  issued : ∀ sid, (fd, sid) ∈ s.registry.issued → fd ≠ s.reactor.efd ∧ fd ≤ EpollReactor.intMax ∧ sid ≤ (s.reactor.data fd).sid
  current : ∀ sub, s.registry.current fd = some sub → s.Holds fd sub
  gone : fd ≠ s.reactor.efd → s.registry.current fd = none → s.Idle fd

def Inv (s : Dispatching σ) : Prop := ∀ fd, s.Sound fd

theorem inv_make {efd : Nat} (small : efd ≤ EpollReactor.intMax) : (make efd : Dispatching σ).Inv := by
  intro fd
  by_cases own : fd = efd
  · subst own
    have data : (make fd : Dispatching σ).reactor.data fd = { sid := 0, events := eventIn, slot := none } := by
      simp [make, EpollReactor.make]
    have mux : (make fd : Dispatching σ).reactor.mux fd = some (EpollMuxer.event fd 0 eventIn) := by
      simp [make, EpollReactor.make]
    constructor
    case bound => rw [data]; exact Nat.zero_le _
    case kernel =>
      intro ev registered
      rw [mux, Option.some.injEq] at registered
      subst registered
      rw [EpollMuxer.fd_event small, EpollMuxer.sid_event small]
      exact ⟨rfl, Nat.zero_le _⟩
    case batch => exact fun ev member => absurd member List.not_mem_nil
    case issued => exact fun sid member => absurd member List.not_mem_nil
    case current => exact fun sub some_ => by cases some_
    case gone => exact fun other => absurd rfl other
  · have data : (make efd : Dispatching σ).reactor.data fd = { sid := 0, events := 0, slot := none } := by
      simp [make, EpollReactor.make, own]
    have mux : (make efd : Dispatching σ).reactor.mux fd = none := by
      simp [make, EpollReactor.make, own]
    constructor
    case bound => rw [data]; exact Nat.zero_le _
    case kernel =>
      intro ev registered
      rw [mux] at registered
      cases registered
    case batch => exact fun ev member => absurd member List.not_mem_nil
    case issued => exact fun sid member => absurd member List.not_mem_nil
    case current => exact fun sub some_ => by cases some_
    case gone => exact fun _ _ => .inl ⟨by rw [data], mux⟩

/-- Another descriptor is as it was. -/
structure Aside (s s' : Dispatching σ) (fd : Nat) : Prop where
  efd : s'.reactor.efd = s.reactor.efd
  data : s'.reactor.data fd = s.reactor.data fd
  mux : s'.reactor.mux fd = s.reactor.mux fd
  batch : s'.batch = s.batch
  current : s'.registry.current fd = s.registry.current fd
  issued : ∀ sid, (fd, sid) ∈ s'.registry.issued ↔ (fd, sid) ∈ s.registry.issued

theorem Sound.aside (sound : s.Sound fd) (aside : Aside s s' fd) : s'.Sound fd := by
  constructor
  case bound => rw [aside.data]; exact sound.bound
  case kernel => rw [aside.data, aside.mux]; exact sound.kernel
  case batch => rw [aside.data, aside.batch]; exact sound.batch
  case issued =>
    intro sid member
    rw [aside.efd, aside.data]
    exact sound.issued sid ((aside.issued sid).mp member)
  case current =>
    intro sub some_
    rw [aside.current] at some_
    have holds := sound.current sub some_
    exact ⟨by rw [aside.data, holds.data], (aside.issued _).mpr holds.issued⟩
  case gone =>
    intro own none_
    rw [aside.efd] at own
    rw [aside.current] at none_
    obtain quiet | fresh := sound.gone own none_
    · left
      rw [aside.data, aside.mux]
      exact quiet
    · right
      constructor
      · rw [aside.data, aside.mux]; exact fresh.kernel
      · rw [aside.data, aside.batch]; exact fresh.batch
      · intro sid member
        rw [aside.data]
        exact fresh.issued sid ((aside.issued sid).mp member)

/-! ## Calls -/

/-- A subscription that the kernel accepts. -/
theorem sound_subscribed (sound : s.Sound fd) (own : fd ≠ s.reactor.efd) (small : fd ≤ EpollReactor.intMax)
    (room : (s.reactor.data fd).sid < EpollReactor.intMax) (events : UInt32) (slot : σ) (efd : s'.reactor.efd = s.reactor.efd)
    (mux : s'.reactor.mux fd = some (EpollMuxer.event fd ((s.reactor.data fd).sid + 1) events))
    (data : s'.reactor.data fd = { sid := (s.reactor.data fd).sid + 1, events := events, slot := some slot })
    (batch : s'.batch = s.batch)
    (current : s'.registry.current fd = some { sid := (s.reactor.data fd).sid + 1, events := events, slot := slot })
    (issued : s'.registry.issued = (fd, (s.reactor.data fd).sid + 1) :: s.registry.issued) : s'.Sound fd := by
  constructor
  case bound => rw [data]; exact room
  case kernel =>
    intro ev registered
    rw [mux, Option.some.injEq] at registered
    subst registered
    rw [data, EpollMuxer.fd_event small, EpollMuxer.sid_event small]
    exact ⟨rfl, Nat.le_refl _⟩
  case batch =>
    intro ev member same
    rw [batch] at member
    rw [data]
    exact (sound.batch ev member same).trans (Nat.le_succ _)
  case issued =>
    intro sid member
    rw [issued, List.mem_cons] at member
    rw [efd, data]
    obtain same | old := member
    · cases same
      exact ⟨own, small, Nat.le_refl _⟩
    · exact ⟨own, small, (sound.issued sid old).2.2.trans (Nat.le_succ _)⟩
  case current =>
    intro sub some_
    rw [current, Option.some.injEq] at some_
    subst some_
    exact ⟨data, by rw [issued]; exact List.mem_cons_self ..⟩
  case gone =>
    intro _ none_
    rw [current] at none_
    cases none_

/-- A subscription that throws leaves an id that nothing has. -/
theorem sound_refused (sound : s.Sound fd) (own : fd ≠ s.reactor.efd) (room : (s.reactor.data fd).sid < EpollReactor.intMax)
    (efd : s'.reactor.efd = s.reactor.efd) (mux : s'.reactor.mux fd = s.reactor.mux fd)
    (data : s'.reactor.data fd = { s.reactor.data fd with sid := (s.reactor.data fd).sid + 1 }) (batch : s'.batch = s.batch)
    (current : s'.registry.current fd = none) (issued : s'.registry.issued = s.registry.issued) : s'.Sound fd := by
  have fresh : s'.Fresh fd := by
    constructor
    case kernel =>
      intro ev registered
      rw [mux] at registered
      rw [data]
      exact Nat.lt_succ_of_le (sound.kernel ev registered).2
    case batch =>
      intro ev member same
      rw [batch] at member
      rw [data]
      exact Nat.lt_succ_of_le (sound.batch ev member same)
    case issued =>
      intro sid member
      rw [issued] at member
      rw [data]
      exact Nat.lt_succ_of_le (sound.issued sid member).2.2
  constructor
  case bound => rw [data]; exact room
  case kernel =>
    intro ev registered
    exact ⟨(sound.kernel ev (by rw [← mux]; exact registered)).1, (fresh.kernel ev registered).le⟩
  case batch => exact fun ev member same => (fresh.batch ev member same).le
  case issued =>
    intro sid member
    have old := sound.issued sid (by rw [← issued]; exact member)
    exact ⟨by rw [efd]; exact own, old.2.1, (fresh.issued sid member).le⟩
  case current =>
    intro sub some_
    rw [current] at some_
    cases some_
  case gone => exact fun _ _ => .inr fresh

/-- There is no subscription, no interest and no event to come. -/
theorem sound_idle (sound : s.Sound fd) (efd : s'.reactor.efd = s.reactor.efd) (mux : s'.reactor.mux fd = none)
    (sid : (s'.reactor.data fd).sid = (s.reactor.data fd).sid) (events : (s'.reactor.data fd).events = 0)
    (batch : s'.batch = s.batch) (current : s'.registry.current fd = none)
    (issued : s'.registry.issued = s.registry.issued) : s'.Sound fd := by
  constructor
  case bound => rw [sid]; exact sound.bound
  case kernel =>
    intro ev registered
    rw [mux] at registered
    cases registered
  case batch => rw [batch, sid]; exact sound.batch
  case issued => rw [issued, efd, sid]; exact sound.issued
  case current =>
    intro sub some_
    rw [current] at some_
    cases some_
  case gone => exact fun _ _ => .inl ⟨events, mux⟩

/-- The subscription goes on with another interest or another slot. -/
theorem sound_modified (sound : s.Sound fd) {sub sub' : Subscription σ} (holds : s.Holds fd sub)
    (current : s'.registry.current fd = some sub') (same : sub'.sid = sub.sid) (efd : s'.reactor.efd = s.reactor.efd)
    (mux : ∀ ev, s'.reactor.mux fd = some ev → s.reactor.mux fd = some ev ∨ ∃ events, ev = EpollMuxer.event fd sub.sid events)
    (data : s'.reactor.data fd = { sid := sub.sid, events := sub'.events, slot := some sub'.slot })
    (batch : s'.batch = s.batch) (issued : s'.registry.issued = s.registry.issued) : s'.Sound fd := by
  have kept : (s'.reactor.data fd).sid = (s.reactor.data fd).sid := by rw [data, holds.data]
  have small : fd ≤ EpollReactor.intMax := (sound.issued _ holds.issued).2.1
  constructor
  case bound => rw [kept]; exact sound.bound
  case kernel =>
    intro ev registered
    obtain old | ⟨events, rfl⟩ := mux ev registered
    · rw [kept]
      exact sound.kernel ev old
    · rw [kept, holds.data, EpollMuxer.fd_event small, EpollMuxer.sid_event small]
      exact ⟨rfl, Nat.le_refl _⟩
  case batch => rw [batch, kept]; exact sound.batch
  case issued => rw [issued, efd, kept]; exact sound.issued
  case current =>
    intro other some_
    rw [current, Option.some.injEq] at some_
    subst some_
    exact ⟨by rw [data, same], by rw [issued, same]; exact holds.issued⟩
  case gone =>
    intro _ none_
    rw [current] at none_
    cases none_

end Dispatching

/-- The descriptor of a call. -/
def ReactorCall.fd {σ : Type u} : ReactorCall σ → Nat
  | subscribe _ fd _ _ | unsubscribe fd _ | setEventsSlot _ fd _ _ _ | setEvents _ fd _ _ => fd

namespace EpollReactor

variable {σ : Type u} (r : EpollReactor σ)

@[simp] theorem efd_setData (fd : Nat) (ref : FdData σ) : (r.setData fd ref).efd = r.efd := rfl
@[simp] theorem efd_setMux (fd : Nat) (ev : Option EpollEvent) : (r.setMux fd ev).efd = r.efd := rfl
@[simp] theorem mux_setData (fd : Nat) (ref : FdData σ) : (r.setData fd ref).mux = r.mux := rfl
@[simp] theorem data_setMux (fd : Nat) (ev : Option EpollEvent) : (r.setMux fd ev).data = r.data := rfl
@[simp] theorem data_setData (fd : Nat) (ref : FdData σ) : (r.setData fd ref).data fd = ref := Function.update_self ..
@[simp] theorem mux_setMux (fd : Nat) (ev : Option EpollEvent) : (r.setMux fd ev).mux fd = ev := Function.update_self ..

theorem data_setData_of_ne {fd g : Nat} (other : g ≠ fd) (ref : FdData σ) : (r.setData fd ref).data g = r.data g :=
  Function.update_of_ne other ..

theorem mux_setMux_of_ne {fd g : Nat} (other : g ≠ fd) (ev : Option EpollEvent) : (r.setMux fd ev).mux g = r.mux g :=
  Function.update_of_ne other ..

/-- How a change of the interest ends. -/
theorem modify_cases (fails : Bool) (fd sid : Nat) (events : UInt32) :
    (r.modify fails fd sid events = (.threw, r) ∧ (r.data fd).events ≠ events) ∨
    (r.modify fails fd sid events = (.done, r) ∧ (r.data fd).events = events) ∨
    (r.modify fails fd sid events =
      (.done, (r.setMux fd (EpollMuxer.event fd sid events)).setData fd { r.data fd with events := events }) ∧
      r.mux fd ≠ none) := by
  rw [modify]
  by_cases change : (r.data fd).events ≠ events
  · rw [if_pos change]
    by_cases refused : fails ∨ r.mux fd = none
    · rw [if_pos refused]
      exact .inl ⟨rfl, change⟩
    · rw [if_neg refused]
      exact .inr (.inr ⟨rfl, fun absent => refused (.inr absent)⟩)
  · rw [if_neg change]
    exact .inr (.inl ⟨rfl, not_not.mp change⟩)

/-- A call has to do with its own descriptor only. -/
theorem call_aside (c : ReactorCall σ) {g : Nat} (other : g ≠ c.fd) :
    (r.call c).2.efd = r.efd ∧ (r.call c).2.data g = r.data g ∧ (r.call c).2.mux g = r.mux g := by
  cases c with
  | subscribe fails fd events slot =>
    have apart : g ≠ fd := other
    simp only [call, subscribe]
    split
    · exact ⟨rfl, data_setData_of_ne _ apart _, rfl⟩
    · exact ⟨rfl, data_setData_of_ne _ apart _, mux_setMux_of_ne _ apart _⟩
  | unsubscribe fd sid =>
    have apart : g ≠ fd := other
    simp only [call, unsubscribe]
    split
    · exact ⟨rfl, data_setData_of_ne _ apart _, mux_setMux_of_ne _ apart _⟩
    · exact ⟨rfl, rfl, rfl⟩
  | setEventsSlot fails fd sid events slot =>
    have apart : g ≠ fd := other
    simp only [call, setEventsSlot]
    split
    · obtain ⟨same, -⟩ | ⟨same, -⟩ | ⟨same, -⟩ := r.modify_cases fails fd sid events
      · rw [same]
        exact ⟨rfl, rfl, rfl⟩
      · rw [same]
        exact ⟨rfl, data_setData_of_ne _ apart _, rfl⟩
      · rw [same]
        refine ⟨rfl, ?_, mux_setMux_of_ne _ apart _⟩
        rw [data_setData_of_ne _ apart, data_setData_of_ne _ apart, data_setMux]
    · exact ⟨rfl, rfl, rfl⟩
  | setEvents fails fd sid events =>
    have apart : g ≠ fd := other
    simp only [call, setEvents]
    split
    · obtain ⟨same, -⟩ | ⟨same, -⟩ | ⟨same, -⟩ := r.modify_cases fails fd sid events
      · rw [same]
        exact ⟨rfl, rfl, rfl⟩
      · rw [same]
        exact ⟨rfl, rfl, rfl⟩
      · rw [same]
        exact ⟨rfl, data_setData_of_ne _ apart _, mux_setMux_of_ne _ apart _⟩
    · exact ⟨rfl, rfl, rfl⟩

end EpollReactor

namespace Registry

variable {σ : Type u} (g : Registry σ)

theorem change_aside (fd sid : Nat) (f : Subscription σ → Option (Subscription σ)) {other : Nat} (apart : other ≠ fd) :
    (g.change fd sid f).current other = g.current other ∧ (g.change fd sid f).issued = g.issued := by
  rw [change]
  split
  · split
    · exact ⟨Function.update_of_ne apart .., rfl⟩
    · exact ⟨rfl, rfl⟩
  · exact ⟨rfl, rfl⟩

theorem change_current {fd sid : Nat} {f : Subscription σ → Option (Subscription σ)} {sub : Subscription σ}
    (current : g.current fd = some sub) (same : sub.sid = sid) : (g.change fd sid f).current fd = f sub := by
  rw [change, current]
  simp [same]

theorem change_old {fd sid : Nat} (f : Subscription σ → Option (Subscription σ))
    (old : ∀ sub, g.current fd = some sub → sub.sid ≠ sid) : g.change fd sid f = g := by
  rw [change]
  split
  next sub current => rw [if_neg (old sub current)]
  next => rfl

theorem call_aside (sid : Nat) (c : ReactorCall σ) (result : Ctl) {other : Nat} (apart : other ≠ c.fd) :
    (g.call sid c result).current other = g.current other ∧
      ∀ n, (other, n) ∈ (g.call sid c result).issued ↔ (other, n) ∈ g.issued := by
  cases c with
  | subscribe fails fd events slot =>
    have apart : other ≠ fd := apart
    cases result with
    | done =>
      refine ⟨Function.update_of_ne apart .., ?_⟩
      intro n
      simp [call, apart]
    | threw => exact ⟨Function.update_of_ne apart .., fun n => Iff.rfl⟩
  | unsubscribe fd n =>
    obtain ⟨current, issued⟩ := g.change_aside fd n (fun _ => none) apart
    exact ⟨current, fun n => by rw [call, issued]⟩
  | setEventsSlot fails fd n events slot =>
    cases result with
    | done =>
      obtain ⟨current, issued⟩ := g.change_aside fd n (fun s => some { s with events := events, slot := slot }) apart
      exact ⟨current, fun n => by rw [call, issued]⟩
    | threw => exact ⟨rfl, fun n => Iff.rfl⟩
  | setEvents fails fd n events =>
    cases result with
    | done =>
      obtain ⟨current, issued⟩ := g.change_aside fd n (fun s => some { s with events := events }) apart
      exact ⟨current, fun n => by rw [call, issued]⟩
    | threw => exact ⟨rfl, fun n => Iff.rfl⟩

end Registry

end Swirly
