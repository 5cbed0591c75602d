import Swirly.Fin.Handover
import Swirly.Verified.MemQueue.Solo

/-!
# Posting a batch of execs while they are popped

The check of the unused elements counts an element as unused as soon as the consumer has claimed it, but a post can take
it only when the consumer has given it up.  A batch that needs all unused elements can therefore fail at its last exec.
-/

namespace Swirly

namespace Handover

/-- The messages at the positions up to the write position. -/
def posted (s : Handover) : List (Option Msg) := (List.range s.mem.queue.wpos).map s.mem.history.written

/-- No other call of `create_exec` begins. -/
def Within (_ : Handover) (event : Event) : Prop := ∀ es, event ≠ .createExec es

instance : ∀ s event, Decidable (Within s event)
  | _, .createExec es => isFalse fun other => other es rfl
  | _, .produce _ | _, .pop | _, .consume _ => isTrue fun _ same => Event.noConfusion same

/-- The consumer is between the claim of a position and the commit that gives its element up. -/
def Claimed (s : Handover) : Prop := ∃ r, (s.mem.consumers ()).Holds r

/-- What is promised of a call for `es` that checks the queue in `s`, after the steps `events` have led to `t`: it goes on
by itself, it posts all the execs and returns, or it posts none and throws. -/
structure AllOrNothing (s : Handover) (es : List Exec) (events : List Event) (t : Handover) : Prop where
  bounded : events.count (.produce false) ≤ 5 * es.length + 1 + events.count (.produce true)
  live : t.call ≠ .returned → t.call ≠ .threw → ∀ spurious, (t.step (.produce spurious)).isSome
  returned : t.call = .returned → t.posted = s.posted ++ es.map (some ∘ msg)
  threw : t.call = .threw → t.posted = s.posted

/-- The batch of several execs needs all unused elements, and the consumer still has one of these. -/
def Tight (s : Handover) (es : List Exec) : Prop :=
  2 ≤ es.length ∧ s.mem.queue.reserve = es.length ∧ s.Claimed

variable {s t u : Handover} {es rest : List Exec}

theorem next_fits {mem : Exchange Unit Unit Msg} (fits : mem.Fits) (stepped : next mem rest = some t) : t.mem.Fits := by
  cases rest with
  | nil =>
    cases stepped
    exact fits
  | cons e rest =>
    obtain ⟨mem', begun, rfl⟩ := Option.map_eq_some_iff.mp stepped
    exact fits.step begun

theorem fits_step {event : Event} (fits : s.mem.Fits) (stepped : s.step event = some t) : t.mem.Fits := by
  cases event with
  | createExec es =>
    simp only [step] at stepped
    split at stepped
    all_goals cases stepped <;> exact fits
  | produce spurious =>
    simp only [step] at stepped
    split at stepped
    next es _ =>
      split at stepped
      next =>
        cases stepped
        exact fits
      next => exact next_fits fits stepped
    next rest _ =>
      obtain ⟨mem, moved, stepped⟩ := Option.bind_eq_some_iff.mp stepped
      have fits' := fits.step moved
      split at stepped
      next => exact next_fits fits' stepped
      next =>
        cases stepped
        exact fits'
      next =>
        cases stepped
        exact fits'
    next => cases stepped
  | pop =>
    obtain ⟨mem, moved, rfl⟩ := Option.map_eq_some_iff.mp stepped
    exact fits.step moved
  | consume spurious =>
    obtain ⟨mem, moved, rfl⟩ := Option.map_eq_some_iff.mp stepped
    exact fits.step moved

theorem fits_of_run {k : Nat} {zero : Msg} {events : List Event}
    (run : Run step (fun _ _ => True) (make (2 ^ k) zero) events s) : s.mem.Fits :=
  run.invariant (I := fun s => s.mem.Fits) (fun _ _ _ fits _ stepped => fits_step fits stepped) (Exchange.fits_make k zero)

/-- The producer posts `e` after the messages `before`. -/
def Posting (mem : Exchange Unit Unit Msg) (before : List (Option Msg)) (e : Exec) : Prop :=
  match mem.producers () with
  | .load val | .seq val _ | .claim val _ =>
    val = msg e ∧ (List.range mem.queue.wpos).map mem.history.written = before
  | .write val wpos => val = msg e ∧ (List.range wpos).map mem.history.written = before
  | .commit val wpos =>
    val = msg e ∧ (List.range wpos).map mem.history.written = before ∧ mem.history.written wpos = some val
  | _ => False

theorem Posting.aside {x y : Exchange Unit Unit Msg} {before : List (Option Msg)} {e : Exec} (aside : Exchange.Aside x y)
    (posting : Posting x before e) : Posting y before e := by
  unfold Posting at posting ⊢
  rwa [aside.producers, aside.wpos, aside.written]

/-- Where the call for `es` that checked the queue in `s` has got to. -/
inductive Progress (s : Handover) (es : List Exec) (t : Handover) : Prop
  | posting (done : List Exec) (e : Exec) (rest : List Exec) (call : t.call = .posting rest)
      (split : es = done ++ e :: rest) (posting : Posting t.mem (s.posted ++ done.map (some ∘ msg)) e)
      (room : s.mem.queue.wpos + es.length ≤ s.mem.queue.rpos + s.mem.queue.capacity) (ahead : Exchange.Ahead s.mem t.mem)
  | returned (call : t.call = .returned) (posted : t.posted = s.posted ++ es.map (some ∘ msg))
  | threw (call : t.call = .threw) (done rest : List Exec) (split : es = done ++ rest)
      (posted : t.posted = s.posted ++ done.map (some ∘ msg)) (cause : done ≠ [] → Tight s es)

/-- The loop goes on to the next exec or is through. -/
theorem Progress.next {mem : Exchange Unit Unit Msg} (done rest : List Exec) (split : es = done ++ rest)
    (posted : (List.range mem.queue.wpos).map mem.history.written = s.posted ++ done.map (some ∘ msg))
    (room : s.mem.queue.wpos + es.length ≤ s.mem.queue.rpos + s.mem.queue.capacity) (ahead : Exchange.Ahead s.mem mem)
    (stepped : Handover.next mem rest = some t) : Progress s es t := by
  cases rest with
  | nil =>
    cases stepped
    rw [List.append_nil] at split
    exact .returned rfl (by rw [split]; exact posted)
  | cons e rest =>
    obtain ⟨mem', begun, rfl⟩ := Option.map_eq_some_iff.mp stepped
    simp only [Exchange.step] at begun
    split at begun
    next =>
      cases begun
      refine .posting done e rest rfl split ?_ room ⟨ahead.capacity, ahead.rpos, ahead.older⟩
      show Posting { mem with producers := _ } _ _
      simpa [Posting] using posted
    next => cases begun

/-- A post that finds no room is the last one of a batch that is tight, or the only one. -/
theorem tight_of_full (fits : s.mem.Fits) (fits' : t.mem.Fits) {done : List Exec} {e : Exec}
    (split : es = done ++ e :: rest) (wpos : t.mem.queue.wpos = s.mem.queue.wpos + done.length)
    (room : s.mem.queue.wpos + es.length ≤ s.mem.queue.rpos + s.mem.queue.capacity) (ahead : Exchange.Ahead s.mem t.mem)
    (seen : (t.mem.queue.elem t.mem.queue.wpos).seq < t.mem.queue.wpos) (later : done ≠ []) : Tight s es := by
  have several : 2 ≤ es.length := by
    have positive := List.length_pos_of_ne_nil later
    rw [split, List.length_append, List.length_cons]
    omega
  have length : es.length = done.length + (rest.length + 1) := by rw [split, List.length_append, List.length_cons]
  have capacity := ahead.capacity
  have rpos := ahead.rpos
  cases fits'.2 with
  | inl inv =>
    rcases inv.ring.free _ (Nat.le_refl _) (by omega) with ⟨c, r, held, wrapped⟩ | free
    next =>
      have held := ahead.older r held (by omega)
      have position := fits.1.fetching r held
      refine ⟨several, ?_, r, held⟩
      unfold MemQueue.reserve MemQueue.size
      omega
    next => omega
  | inr tiny =>
    have one := tiny.capacity
    have ordered := fits.ordered
    omega

theorem range_succ_map (written : Nat → Option Msg) (n : Nat) :
    (List.range (n + 1)).map written = (List.range n).map written ++ [written n] := by
  rw [List.range_succ, List.map_append, List.map_singleton]

theorem range_map_update (written : Nat → Option Msg) (n : Nat) (val : Option Msg) :
    (List.range n).map (Function.update written n val) = (List.range n).map written := by
  apply List.map_congr_left
  intro p inside
  rw [Function.update_of_ne (Nat.ne_of_lt (List.mem_range.mp inside))]

/-- One step of the call. -/
theorem Progress.produce (fits : s.mem.Fits) (fits' : t.mem.Fits) (progress : Progress s es t) {spurious : Bool}
    (stepped : t.step (.produce spurious) = some u) : Progress s es u := by
  cases progress with
  | returned call => simp [step, call] at stepped
  | threw call => simp [step, call] at stepped
  | posting done e rest call split posting room ahead =>
    simp only [step, call] at stepped
    obtain ⟨mem, moved, stepped⟩ := Option.bind_eq_some_iff.mp stepped
    obtain ⟨⟨queue', post'⟩, made, rfl⟩ := Option.map_eq_some_iff.mp moved
    have steps := Post.step_cases made
    have solo := fits'.1
    generalize now : t.mem.producers () = post at steps
    unfold Posting at posting
    rw [now] at posting stepped
    cases steps with
    | loaded =>
      simp only [Function.update_self, Exchange.producedBy] at stepped
      cases stepped
      exact .posting done e rest rfl split (by simpa [Posting] using posting) room ⟨ahead.capacity, ahead.rpos, ahead.older⟩
    | room seen =>
      simp only [Function.update_self, Exchange.producedBy] at stepped
      cases stepped
      exact .posting done e rest rfl split (by simpa [Posting] using posting) room ⟨ahead.capacity, ahead.rpos, ahead.older⟩
    | @full val wpos seen =>
      simp only [Function.update_self, Exchange.producedBy] at stepped
      cases stepped
      obtain ⟨_, posted⟩ := posting
      obtain rfl : wpos = t.mem.queue.wpos := solo.postSeq val wpos now
      refine .threw rfl done (e :: rest) split posted ?_
      apply tight_of_full fits fits' split ?_ room ahead seen
      simpa [Handover.posted] using congrArg List.length posted
    | @stale val wpos seen =>
      obtain rfl : wpos = t.mem.queue.wpos := solo.postSeq val wpos now
      exact absurd fits'.seq_le (Nat.not_le.mpr seen)
    | @claimed val =>
      simp only [Function.update_self, Exchange.producedBy] at stepped
      cases stepped
      exact .posting done e rest rfl split (by simpa [Posting] using posting) room
        ⟨ahead.capacity, ahead.rpos, ahead.older⟩
    | failed =>
      simp only [Function.update_self, Exchange.producedBy] at stepped
      cases stepped
      exact .posting done e rest rfl split (by simpa [Posting] using posting) room ⟨ahead.capacity, ahead.rpos, ahead.older⟩
    | @wrote val wpos =>
      simp only [Function.update_self, Exchange.producedBy] at stepped
      cases stepped
      refine .posting done e rest rfl split ?_ room ⟨ahead.capacity, ahead.rpos, ahead.older⟩
      simpa [Posting, range_map_update] using posting
    | @committed val wpos =>
      simp only [Function.update_self, Exchange.producedBy] at stepped
      obtain ⟨rfl, before, written⟩ := posting
      have position := solo.posting wpos (by simp [now, Post.Holds])
      refine Progress.next (done ++ [e]) rest (by simpa using split) ?_ room ?_ stepped
      next =>
        show (List.range t.mem.queue.wpos).map t.mem.history.written = _
        rw [← position, range_succ_map, before, written, List.map_append, List.append_assoc]
        rfl
      next => exact ⟨ahead.capacity, ahead.rpos, ahead.older⟩

theorem Progress.step (fits : s.mem.Fits) (fits' : t.mem.Fits) (progress : Progress s es t) {event : Event}
    (within : Within t event) (stepped : t.step event = some u) : Progress s es u := by
  have asideStep (aside : Exchange.Aside t.mem u.mem) (call : u.call = t.call) : Progress s es u := by
    have posted : u.posted = t.posted := by rw [Handover.posted, aside.wpos, aside.written, Handover.posted]
    cases progress with
    | posting done e rest call' split posting room ahead =>
      exact .posting done e rest (call.trans call') split (posting.aside aside) room (ahead.trans aside.ahead)
    | returned call' posted' => exact .returned (call.trans call') (posted.trans posted')
    | threw call' done rest split posted' cause =>
      exact .threw (call.trans call') done rest split (posted.trans posted') cause
  cases event with
  | createExec es' => exact absurd rfl (within es')
  | produce spurious => exact progress.produce fits fits' stepped
  | pop =>
    obtain ⟨mem, moved, rfl⟩ := Option.map_eq_some_iff.mp stepped
    exact asideStep (Exchange.aside_fetch moved) rfl
  | consume spurious =>
    obtain ⟨mem, moved, rfl⟩ := Option.map_eq_some_iff.mp stepped
    exact asideStep (Exchange.aside_consume moved) rfl

/-- The check of the queue. -/
theorem Progress.check {spurious : Bool} (called : s.call = .reserve es)
    (stepped : s.step (.produce spurious) = some t) : Progress s es t := by
  simp only [Handover.step, called] at stepped
  split at stepped
  next =>
    cases stepped
    exact .threw rfl [] es rfl (by simp [Handover.posted]) (fun later => absurd rfl later)
  next room =>
    refine Progress.next [] es rfl (by simp [Handover.posted]) ?_ (Exchange.Ahead.refl s.mem) stepped
    unfold MemQueue.reserve MemQueue.size at room
    omega

/-- The number of steps that the call still needs, if none of them fails. -/
def weight (t : Handover) : Nat :=
  match t.call with
  | .reserve es => 5 * es.length + 1
  | .posting rest =>
    5 * rest.length +
      match t.mem.producers () with
      | .load _ => 5
      | .seq _ _ => 4
      | .claim _ _ => 3
      | .write _ _ => 2
      | .commit _ _ => 1
      | _ => 0
  | _ => 0

theorem weight_next {mem : Exchange Unit Unit Msg} (stepped : next mem rest = some t) : weight t = 5 * rest.length := by
  cases rest with
  | nil =>
    cases stepped
    rfl
  | cons e rest =>
    obtain ⟨mem', begun, rfl⟩ := Option.map_eq_some_iff.mp stepped
    simp only [Exchange.step] at begun
    split at begun
    next =>
      cases begun
      simp [weight]
      omega
    next => cases begun

theorem weight_produce (fits : t.mem.Fits) {spurious : Bool} (stepped : t.step (.produce spurious) = some u) :
    weight u + (if spurious then 0 else 1) ≤ weight t + (if spurious then 1 else 0) := by
  simp only [step] at stepped
  split at stepped
  next es call =>
    have before : weight t = 5 * es.length + 1 := by simp [weight, call]
    split at stepped
    next =>
      cases stepped
      simp only [weight, call]
      split <;> omega
    next =>
      rw [weight_next stepped, before]
      split <;> omega
  next rest call =>
    obtain ⟨mem, moved, stepped⟩ := Option.bind_eq_some_iff.mp stepped
    obtain ⟨⟨queue', post'⟩, made, rfl⟩ := Option.map_eq_some_iff.mp moved
    have solo := fits.1
    -- Only an exchange that fails puts the call back, by one step.
    generalize now : t.mem.producers () = post at made
    cases post with
    | claim val wpos =>
      obtain rfl : wpos = t.mem.queue.wpos := solo.postClaim val wpos now
      cases spurious with
      | false =>
        obtain ⟨rfl, rfl⟩ : _ ∧ _ := by simpa [Post.step] using made
        simp only [Function.update_self] at stepped
        cases stepped
        simp [weight, call, now]
      | true =>
        obtain ⟨rfl, rfl⟩ : _ ∧ _ := by simpa [Post.step] using made
        simp only [Function.update_self] at stepped
        cases stepped
        simp [weight, call, now]
    | idle => cases made
    | done val wpos => cases made
    | load val =>
      cases made
      simp only [Function.update_self] at stepped
      cases stepped
      simp only [weight, call, now, Function.update_self]
      split <;> omega
    | write val wpos =>
      cases made
      simp only [Function.update_self] at stepped
      cases stepped
      simp only [weight, call, now, Function.update_self]
      split <;> omega
    | commit val wpos =>
      cases made
      simp only [Function.update_self] at stepped
      rw [weight_next stepped]
      simp only [weight, call, now]
      split <;> omega
    | seq val wpos =>
      obtain rfl : wpos = t.mem.queue.wpos := solo.postSeq val wpos now
      cases Post.step_cases made with
      | room seen =>
        simp only [Function.update_self] at stepped
        cases stepped
        simp only [weight, call, now, Function.update_self]
        split <;> omega
      | full seen =>
        simp only [Function.update_self] at stepped
        cases stepped
        simp only [weight, call, now]
        split <;> omega
      | stale seen => exact absurd fits.seq_le (Nat.not_le.mpr seen)
  next => cases stepped

theorem weight_step (fits : t.mem.Fits) {event : Event} (within : Within t event) (stepped : t.step event = some u) :
    weight u + [event].count (.produce false) ≤ weight t + [event].count (.produce true) := by
  have asideStep (aside : Exchange.Aside t.mem u.mem) (call : u.call = t.call) : weight u = weight t := by
    unfold weight
    rw [call, aside.producers]
  cases event with
  | createExec es' => exact absurd rfl (within es')
  | produce spurious =>
    have lighter := weight_produce fits stepped
    cases spurious <;> simpa using lighter
  | pop =>
    obtain ⟨mem, moved, rfl⟩ := Option.map_eq_some_iff.mp stepped
    simp [asideStep (Exchange.aside_fetch moved) rfl]
  | consume spurious =>
    obtain ⟨mem, moved, rfl⟩ := Option.map_eq_some_iff.mp stepped
    simp [asideStep (Exchange.aside_consume moved) rfl]

theorem weight_run (fits : s.mem.Fits) {events : List Event} (run : Run step Within s events t) :
    weight t + events.count (.produce false) ≤ weight s + events.count (.produce true) := by
  suffices both : t.mem.Fits ∧ weight t + events.count (.produce false) ≤ weight s + events.count (.produce true) from
    both.2
  refine run.invariant_history (I := fun events t => t.mem.Fits ∧
    weight t + events.count (.produce false) ≤ weight s + events.count (.produce true)) ?_ ⟨fits, by simp⟩
  intro events t event u ⟨fits, sofar⟩ within stepped
  have lighter := weight_step fits within stepped
  refine ⟨fits_step fits stepped, ?_⟩
  rw [List.count_append, List.count_append]
  omega

/-- The whole call. -/
theorem Progress.of_run (fits : s.mem.Fits) (called : s.call = .reserve es) {spurious : Bool} {events : List Event}
    (run : Run Handover.step Within s (.produce spurious :: events) t) : t.mem.Fits ∧ Progress s es t := by
  obtain ⟨first, _, checked, rest⟩ := run.of_cons
  refine rest.invariant (I := fun t => t.mem.Fits ∧ Progress s es t) ?_ ⟨fits_step fits checked, .check called checked⟩
  intro t event u ⟨fits', progress⟩ within stepped
  exact ⟨fits_step fits' stepped, progress.step fits fits' within stepped⟩

theorem next_isSome {mem : Exchange Unit Unit Msg} (resting : (mem.producers ()).Resting) (rest : List Exec) :
    (next mem rest).isSome := by
  cases rest with
  | nil => rfl
  | cons e rest => simp [next, Exchange.step, resting]

/-- The producer is never stuck in the call. -/
theorem Progress.live (progress : Progress s es t) (returned : t.call ≠ .returned) (threw : t.call ≠ .threw)
    (spurious : Bool) : (t.step (.produce spurious)).isSome := by
  cases progress with
  | returned call => exact absurd call returned
  | threw call => exact absurd call threw
  | posting done e rest call split posting room ahead =>
    simp only [Handover.step, call]
    obtain ⟨⟨queue', post'⟩, moved⟩ : ∃ moved, (t.mem.producers ()).step t.mem.queue spurious = some moved := by
      unfold Posting at posting
      cases now : t.mem.producers () with
      | idle => simp [now] at posting
      | done val wpos => simp [now] at posting
      | seq val wpos =>
        simp only [Post.step]
        split
        next => exact ⟨_, rfl⟩
        next => split <;> exact ⟨_, rfl⟩
      | claim val wpos =>
        simp only [Post.step]
        split <;> exact ⟨_, rfl⟩
      | _ => exact ⟨_, rfl⟩
    simp only [Exchange.step, moved, Option.map_some, Option.bind_some, Function.update_self]
    split
    next => exact next_isSome (by simp [Post.Resting]) rest
    next => rfl
    next => rfl

/-- A call that is not tight keeps its promise. -/
theorem allOrNothing (fits : s.mem.Fits) (called : s.call = .reserve es) (loose : ¬ Tight s es) {spurious : Bool}
    {events : List Event} (run : Run step Within s (.produce spurious :: events) t) :
    AllOrNothing s es (.produce spurious :: events) t := by
  obtain ⟨_, progress⟩ := Progress.of_run fits called run
  constructor
  case bounded =>
    have lighter := weight_run fits run
    have start : weight s = 5 * es.length + 1 := by simp [weight, called]
    omega
  case live => exact progress.live
  case returned =>
    intro call
    cases progress with
    | posting done e rest call' => simp [call] at call'
    | returned _ posted => exact posted
    | threw call' => simp [call] at call'
  case threw =>
    intro call
    cases progress with
    | posting done e rest call' => simp [call] at call'
    | returned call' => simp [call] at call'
    | threw _ done rest split posted cause =>
      cases done with
      | nil => simpa using posted
      | cons e done => exact absurd (cause (List.cons_ne_nil e done)) loose

/-- A step of the producer within a post. -/
theorem advance {post' : Post Msg} {queue' : MemQueue Msg} (call : t.call = .posting rest)
    (moved : (t.mem.producers ()).step t.mem.queue false = some (queue', post')) (going : ¬ post'.Resting) :
    ∃ u, t.step (.produce false) = some u ∧ u.call = .posting rest ∧ u.mem.producers () = post' ∧
      u.mem.queue = queue' ∧ u.mem.consumers = t.mem.consumers := by
  simp only [step, call, Exchange.step, moved, Option.map_some, Option.bind_some, Function.update_self]
  cases post' with
  | idle => exact absurd trivial going
  | done val wpos => exact absurd trivial going
  | _ => exact ⟨_, rfl, rfl, by simp, rfl, rfl⟩

/-- The last step of a post that is not the last of its batch. -/
theorem advance_next {val : Msg} {wpos : Nat} {e : Exec} (call : t.call = .posting (e :: rest))
    (at_ : t.mem.producers () = .commit val wpos) :
    ∃ u, t.step (.produce false) = some u ∧ u.call = .posting rest ∧ u.mem.producers () = .load (msg e) ∧
      u.mem.queue = t.mem.queue.setSeq wpos (wpos + 1) ∧ u.mem.consumers = t.mem.consumers := by
  simp [step, call, Exchange.step, at_, Post.step, next, Post.Resting]

theorem within_produce (t : Handover) (spurious : Bool) : Within t (.produce spurious) := nofun

/-- A post into a free element succeeds without any move of the consumer. -/
theorem post_alone {val : Msg} {e : Exec} (call : t.call = .posting (e :: rest)) (at_ : t.mem.producers () = .load val)
    (free : (t.mem.queue.elem t.mem.queue.wpos).seq = t.mem.queue.wpos) :
    ∃ events u, Run step Within t events u ∧ u.call = .posting rest ∧ u.mem.producers () = .load (msg e) ∧
      u.mem.queue.wpos = t.mem.queue.wpos + 1 ∧ u.mem.queue.rpos = t.mem.queue.rpos ∧
      u.mem.queue.capacity = t.mem.queue.capacity ∧ u.mem.consumers = t.mem.consumers := by
  obtain ⟨t₁, step₁, call₁, at₁, queue₁, same₁⟩ := advance call
    (show _ = some (t.mem.queue, Post.seq val t.mem.queue.wpos) by rw [at_]; rfl) id
  obtain ⟨t₂, step₂, call₂, at₂, queue₂, same₂⟩ := advance call₁
    (show _ = some (t.mem.queue, Post.claim val t.mem.queue.wpos) by simp [at₁, queue₁, Post.step, free]) id
  obtain ⟨t₃, step₃, call₃, at₃, queue₃, same₃⟩ := advance call₂
    (show _ = some ({ t.mem.queue with wpos := t.mem.queue.wpos + 1 }, Post.write val t.mem.queue.wpos) by
      simp [at₂, queue₂, Post.step]) id
  obtain ⟨t₄, step₄, call₄, at₄, queue₄, same₄⟩ := advance call₃
    (show _ = some (t₃.mem.queue.setVal t.mem.queue.wpos val, Post.commit val t.mem.queue.wpos) by rw [at₃]; rfl) id
  obtain ⟨t₅, step₅, call₅, at₅, queue₅, same₅⟩ := advance_next call₄ at₄
  refine ⟨_, t₅, .cons (within_produce _ false) step₁ (.cons (within_produce _ false) step₂
    (.cons (within_produce _ false) step₃ (.cons (within_produce _ false) step₄
      (.single (within_produce _ false) step₅)))), call₅, at₅, ?_, ?_, ?_, ?_⟩
  next => rw [queue₅, MemQueue.setSeq_wpos, queue₄, MemQueue.setVal_wpos, queue₃]
  next => rw [queue₅, MemQueue.setSeq_rpos, queue₄, MemQueue.setVal_rpos, queue₃]
  next => rw [queue₅, MemQueue.setSeq_capacity, queue₄, MemQueue.setVal_capacity, queue₃]
  next => rw [same₅, same₄, same₃, same₂, same₁]

theorem fits_run (fits : s.mem.Fits) {events : List Event} (run : Run step Within s events t) : t.mem.Fits :=
  run.invariant (I := fun s => s.mem.Fits) (fun _ _ _ fits _ stepped => fits_step fits stepped) fits

/-- While the consumer keeps the element for the last exec, the execs before it are posted and the call throws. -/
theorem posts_alone (rest : List Exec) {val : Msg} {r : Nat} (fits : t.mem.Fits) (large : 2 ≤ t.mem.queue.capacity)
    (call : t.call = .posting rest) (at_ : t.mem.producers () = .load val) (held : (t.mem.consumers ()).Holds r)
    (last : t.mem.queue.wpos + rest.length = r + t.mem.queue.capacity) :
    ∃ events u, Run step Within t events u ∧ u.call = .threw ∧
      u.mem.queue.wpos = t.mem.queue.wpos + rest.length := by
  induction rest generalizing t val with
  | nil =>
    have ring := (fits.inv large).ring
    have own := (ring.reading () r held).2.2
    obtain ⟨t₁, step₁, call₁, at₁, queue₁, _⟩ := advance call
      (show _ = some (t.mem.queue, Post.seq val t.mem.queue.wpos) by rw [at_]; rfl) id
    have wrapped : t.mem.queue.wpos = r + t.mem.queue.capacity := last
    have taken : (t.mem.queue.elem t.mem.queue.wpos).seq = r + 1 := by rw [wrapped, ring.elem_add, own]
    have thrown : ∃ u, t₁.step (.produce false) = some u ∧ u.call = .threw ∧ u.mem.queue = t.mem.queue := by
      have full : Post.step t₁.mem.queue false (t₁.mem.producers ()) = some (t.mem.queue, Post.done val none) := by
        rw [at₁, queue₁]
        simp only [Post.step, taken]
        rw [if_neg (by omega), if_pos (by omega)]
      simp [step, call₁, Exchange.step, full]
    obtain ⟨t₂, step₂, call₂, queue₂⟩ := thrown
    exact ⟨_, t₂, .cons (within_produce _ false) step₁ (.single (within_produce _ false) step₂), call₂, by rw [queue₂]; rfl⟩
  | cons e rest inductionHypothesis =>
    rw [List.length_cons] at last
    have ring := (fits.inv large).ring
    have position := fits.1.fetching r held
    have free : (t.mem.queue.elem t.mem.queue.wpos).seq = t.mem.queue.wpos := by
      rcases ring.free _ (Nat.le_refl _) (by omega) with ⟨c, r', held', wrapped⟩ | free
      next =>
        -- The consumer holds one position only, and that is the one for the last exec.
        have position' := fits.1.fetching r' held'
        omega
      next => exact free
    obtain ⟨events, u, run, callu, atu, wpos, rpos, capacity, same⟩ := post_alone call at_ free
    have fitsu := fits_run fits run
    obtain ⟨more, v, run', callv, wposv⟩ :=
      inductionHypothesis fitsu (by omega) callu atu (by rwa [same]) (by omega)
    exact ⟨_, v, run.trans run', callv, by rw [wposv, wpos, List.length_cons]; omega⟩

/-- Between calls and before the check no post is on its way. -/
def Quiet (s : Handover) : Prop := (∀ rest, s.call ≠ .posting rest) → (s.mem.producers ()).Resting

theorem quiet_next {mem : Exchange Unit Unit Msg} (resting : (mem.producers ()).Resting)
    (stepped : next mem rest = some t) : t.Quiet := by
  cases rest with
  | nil =>
    cases stepped
    exact fun _ => resting
  | cons e rest =>
    obtain ⟨mem', begun, rfl⟩ := Option.map_eq_some_iff.mp stepped
    exact fun other => absurd rfl (other rest)

theorem quiet_step {event : Event} (quiet : s.Quiet) (stepped : s.step event = some t) : t.Quiet := by
  have asideStep (aside : Exchange.Aside s.mem t.mem) (call : t.call = s.call) : t.Quiet := by
    unfold Quiet
    rwa [call, aside.producers]
  cases event with
  | createExec es =>
    simp only [step] at stepped
    split at stepped
    all_goals cases stepped
    all_goals exact fun _ => quiet (by simp [*])
  | produce spurious =>
    simp only [step] at stepped
    split at stepped
    next es call =>
      have resting := quiet (by simp [call])
      split at stepped
      next =>
        cases stepped
        exact fun _ => resting
      next => exact quiet_next resting stepped
    next rest call =>
      obtain ⟨mem, moved, stepped⟩ := Option.bind_eq_some_iff.mp stepped
      split at stepped
      next done => exact quiet_next (by simp [done, Post.Resting]) stepped
      next done =>
        cases stepped
        exact fun _ => by simp [done, Post.Resting]
      next =>
        cases stepped
        exact fun other => absurd rfl (other rest)
    next => cases stepped
  | pop =>
    obtain ⟨mem, moved, rfl⟩ := Option.map_eq_some_iff.mp stepped
    exact asideStep (Exchange.aside_fetch moved) rfl
  | consume spurious =>
    obtain ⟨mem, moved, rfl⟩ := Option.map_eq_some_iff.mp stepped
    exact asideStep (Exchange.aside_consume moved) rfl

/-- A call whose batch is tight can post all the execs but the last, and throw. -/
theorem Tight.thrown (fits : s.mem.Fits) (quiet : s.Quiet) (called : s.call = .reserve es) (tight : Tight s es) :
    ∃ events t, Run step Within s (.produce false :: events) t ∧ t.call = .threw ∧ t.posted ≠ s.posted := by
  obtain ⟨several, room, r, held⟩ := tight
  have position := fits.1.fetching r held
  have ordered := fits.ordered
  cases es with
  | nil => simp at several
  | cons e rest =>
    unfold MemQueue.reserve MemQueue.size at room
    rw [List.length_cons] at several room
    have begun : ∃ u, s.step (.produce false) = some u ∧ u.call = .posting rest ∧
        u.mem.producers () = .load (msg e) ∧ u.mem.queue = s.mem.queue ∧ u.mem.consumers = s.mem.consumers := by
      have resting := quiet (by simp [called])
      have passes : ¬ s.mem.queue.reserve < (e :: rest).length := by
        unfold MemQueue.reserve MemQueue.size
        rw [List.length_cons]
        omega
      simp only [step, called]
      rw [if_neg passes]
      simp [next, Exchange.step, resting]
    obtain ⟨u, checked, callu, atu, queueu, sameu⟩ := begun
    obtain ⟨events, t, run, callt, wpos⟩ := posts_alone rest (fits_step fits checked) (by rw [queueu]; omega) callu atu
      (by rwa [sameu]) (by rw [queueu]; omega)
    refine ⟨events, t, .cons (within_produce s false) checked run, callt, ?_⟩
    intro same
    have length : t.mem.queue.wpos = s.mem.queue.wpos := by simpa [posted] using congrArg List.length same
    rw [queueu] at wpos
    omega

/-- Whatever the consumer does during a call, the call posts all its execs or none, exactly when its batch is not tight
at the check. -/
theorem createExec_all_or_nothing_iff (k : Nat) (zero : Msg) (before : List Event) (s : Handover)
    (reached : Run step (fun _ _ => True) (make (2 ^ k) zero) before s) (es : List Exec) (called : s.call = .reserve es) :
    (∀ spurious events t, Run step Within s (.produce spurious :: events) t →
      AllOrNothing s es (.produce spurious :: events) t) ↔ ¬ Tight s es := by
  have fits := fits_of_run reached
  have quiet : s.Quiet :=
    reached.invariant (I := Quiet) (fun _ _ _ quiet _ stepped => quiet_step quiet stepped)
      (fun _ => show (Post.idle : Post Msg).Resting from trivial)
  constructor
  next =>
    intro always tight
    obtain ⟨events, t, run, call, posted⟩ := tight.thrown fits quiet called
    exact posted ((always false events t run).threw call)
  next => exact fun loose spurious events t run => allOrNothing fits called loose run

/-- A batch of one for an empty queue of two elements. -/
theorem createExec_all_or_nothing_one : ∃ s : Handover, s.call = .reserve [default] ∧
    ∀ spurious events t, Run step Within s (.produce spurious :: events) t →
      AllOrNothing s [default] (.produce spurious :: events) t := by
  have made : ∃ s ∈ Run.exec step (fun _ _ => True) (make (2 ^ 1) (.updateMarket 0 0)) [.createExec [default]],
      s.call = .reserve [default] := by
    decide
  obtain ⟨s, done, called⟩ := made
  have kept := createExec_all_or_nothing_iff 1 (.updateMarket 0 0) _ s (Run.of_exec done) [default] called
  exact ⟨s, called, kept.mpr fun tight => absurd tight.1 (by decide)⟩

/-- The queue of two elements is full and the consumer has popped one of them and claimed the other.  Both count as unused
when a batch of two comes: its first exec is posted, and the call throws. -/
theorem createExec_half_posted : ∃ before s events t,
    Run step (fun _ _ => True) (make (2 ^ 1) (.updateMarket 0 0)) before s ∧
    s.call = .reserve [{ (default : Exec) with id := 3 }, { (default : Exec) with id := 4 }] ∧
    Run step Within s events t ∧ t.call = .threw ∧
    t.posted = s.posted ++ [some (msg { (default : Exec) with id := 3 })] := by
  have made : ∃ s ∈ Run.exec step (fun _ _ => True) (make (2 ^ 1) (.updateMarket 0 0))
        (.createExec [{ (default : Exec) with id := 1 }, { (default : Exec) with id := 2 }] ::
          List.replicate 11 (.produce false) ++ .pop :: List.replicate 5 (.consume false) ++
          .pop :: List.replicate 3 (.consume false) ++
          [.createExec [{ (default : Exec) with id := 3 }, { (default : Exec) with id := 4 }]]),
      s.call = .reserve [{ (default : Exec) with id := 3 }, { (default : Exec) with id := 4 }] ∧
      ∃ t ∈ Run.exec step Within s (List.replicate 8 (.produce false)), t.call = .threw ∧
        t.posted = s.posted ++ [some (msg { (default : Exec) with id := 3 })] := by
    decide
  obtain ⟨s, done, called, t, thrown, call, posted⟩ := made
  exact ⟨_, s, _, t, Run.of_exec done, called, Run.of_exec thrown, call, posted⟩

end Handover

end Swirly
