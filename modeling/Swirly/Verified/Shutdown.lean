import Swirly.Swirlyd.Main
import Swirly.Verified.MemQueue.Solo

/-!
# What a shutdown loses

The journal thread stops as soon as it sees its stop flag between two drains, and the reactor thread goes on after that.
A message is lost when it is waiting between two drains as the flag is set, or is posted when the flag is set and no drain
is under way.
-/

namespace Swirly

namespace Exchange

variable {x y : Exchange Unit Unit Msg}

/-- The number of posts that are complete. -/
def published (x : Exchange Unit Unit Msg) : Nat :=
  match x.producers () with
  | .write _ _ | .commit _ _ => x.queue.wpos - 1
  | _ => x.queue.wpos

theorem published_le (x : Exchange Unit Unit Msg) : x.published ≤ x.queue.wpos := by
  unfold published
  split <;> omega

theorem published_of_holds {w : Nat} (solo : x.Solo) (held : (x.producers ()).Holds w) : x.published = w := by
  have position := solo.posting w held
  unfold published
  cases at_ : x.producers () with
  | write val p =>
    show x.queue.wpos - 1 = w
    omega
  | commit val p =>
    show x.queue.wpos - 1 = w
    omega
  | _ => simp [at_, Post.Holds] at held

/-- A message is waiting when the sequence number at the read position says so. -/
theorem waiting_iff (inv : x.Inv) (solo : x.Solo) :
    (x.queue.elem x.queue.rpos).seq = x.queue.rpos + 1 ↔ x.queue.rpos < x.published := by
  have ring := inv.ring
  constructor
  next =>
    intro seq
    have below := ring.below_of_seq seq
    unfold published
    split
    next val w at_ =>
      have held : (x.producers ()).Holds w := by simp [at_, Post.Holds]
      have own := (ring.writing () w held).2.2
      have position := solo.posting w held
      have apart : w ≠ x.queue.rpos := by
        rintro rfl
        omega
      omega
    next val w at_ =>
      have held : (x.producers ()).Holds w := by simp [at_, Post.Holds]
      have own := (ring.writing () w held).2.2
      have position := solo.posting w held
      have apart : w ≠ x.queue.rpos := by
        rintro rfl
        omega
      omega
    next => exact below
  next =>
    intro below
    have inside := Nat.lt_of_lt_of_le below x.published_le
    rcases ring.full x.queue.rpos (Nat.le_refl _) inside with ⟨_, held⟩ | full
    next => exact absurd (published_of_holds solo held) (Nat.ne_of_gt below)
    next => exact full

/-- Only the last step of a post completes one. -/
theorem published_produce (solo : x.Solo) {spurious : Bool} (stepped : x.step (.produce () spurious) = some y) :
    y.published = x.published + (match x.producers () with | .commit _ _ => 1 | _ => 0) ∧
      y.queue.rpos = x.queue.rpos ∧ y.consumers = x.consumers := by
  obtain ⟨⟨queue', post'⟩, made, rfl⟩ := Option.map_eq_some_iff.mp stepped
  have steps := Post.step_cases made
  generalize now : x.producers () = post at steps
  cases steps with
  | @committed val wpos =>
    have position := solo.posting wpos (by simp [now, Post.Holds])
    simp [published, now]
    omega
  | _ => simp [published, now]

theorem published_post {msg : Msg} (stepped : x.step (.post () msg) = some y) :
    y.published = x.published ∧ y.queue = x.queue ∧ y.consumers = x.consumers ∧ y.history = x.history ∧
      ¬ (y.producers ()).Resting := by
  simp only [step] at stepped
  split at stepped
  next resting =>
    cases stepped
    refine ⟨?_, rfl, rfl, rfl, by simp [Post.Resting]⟩
    cases at_ : x.producers () <;> simp_all [published, Post.Resting]
  next => cases stepped

theorem Aside.published (aside : Aside x y) : y.published = x.published := by
  unfold Exchange.published
  rw [aside.producers, aside.wpos]

/-- What has been taken from the queue does not change any more. -/
theorem taken_stays (kept : x.Kept) {event : Event Unit Unit Msg} (stepped : x.step event = some y) {n : Nat}
    (taken : n ≤ x.queue.rpos) : (List.range n).map y.history.written = (List.range n).map x.history.written := by
  apply List.map_congr_left
  intro p inside
  obtain ⟨_, v, _, written, _⟩ := kept.outstanding p (by have := List.mem_range.mp inside; omega)
  rw [written]
  exact ((step_cases stepped).lasting kept).2.2.1 p v written

end Exchange

namespace Daemon

/-- A drain of the queue is under way. -/
def Draining (s : Daemon) : Prop :=
  match s.agent with
  | .popping _ | .writing _ _ => True
  | _ => False

instance (s : Daemon) : Decidable s.Draining := by
  unfold Draining
  cases s.agent <;> infer_instance

/-- The next `mq.pop` would find a message. -/
def Waiting (s : Daemon) : Prop := (s.mem.queue.elem s.mem.queue.rpos).seq = s.mem.queue.rpos + 1

instance (s : Daemon) : Decidable s.Waiting := inferInstanceAs (Decidable (_ = _))

/-- The step is the last one of a post. -/
def Commits (s : Daemon) : Event → Prop
  | .reactor _ => ∃ msg wpos, s.mem.producers () = .commit msg wpos
  | _ => False

/-- Between two drains the main thread does not leave the signal loop while a message is waiting, and once it has left it
no post is completed. -/
def Orderly (s : Daemon) (event : Event) : Prop :=
  s.Draining ∨ ((event = .main → s.main = .signal → ¬ s.Waiting) ∧ (s.journStop → ¬ s.Commits event))

/-- The messages that have been posted. -/
def posted (s : Daemon) : List (Option Msg) := (List.range s.mem.queue.wpos).map s.mem.history.written

/-- The number of messages that the agent has popped, while it pops the next one. -/
def drained (s : Daemon) : Nat :=
  match s.mem.consumers () with
  | .read r | .commit _ r => r
  | _ => s.mem.queue.rpos

/-- The journal has what the agent has popped. -/
def Agrees (s : Daemon) : Prop :=
  match s.agent with
  | .popping _ => ¬ (s.mem.consumers ()).Resting ∧
      s.journ.map some = (List.range s.drained).map s.mem.history.written
  | .writing msg _ => ∃ r, s.mem.consumers () = .done (some (r, msg)) ∧ r + 1 = s.mem.queue.rpos ∧
      s.journ.map some = (List.range r).map s.mem.history.written
  | _ => (s.mem.consumers ()).Resting ∧
      s.journ.map some = (List.range s.mem.queue.rpos).map s.mem.history.written

structure Inv (s : Daemon) : Prop where
  mem : s.mem.Inv
  kept : s.mem.Kept
  solo : s.mem.Solo
  reactor : s.reactor ≠ .posting → (s.mem.producers ()).Resting
  agent : s.Agrees
  stopped : s.main = .signal ↔ s.journStop = false
  joined : s.main = .joinReactor ∨ s.main = .ended → s.agent = .ended
  finished : s.main = .ended → s.reactor = .ended
  agentEnded : s.agent = .ended → s.journStop = true

theorem inv_make (zero : Msg) : (make zero).Inv := by
  have large : (1 : Nat) <<< 10 = 2 ^ 10 := rfl
  constructor
  case mem => exact Exchange.inv_make 10 zero (by decide)
  case kept => exact Exchange.kept_make _ zero
  case solo => exact Exchange.solo_make _ zero
  case reactor => exact fun _ => trivial
  case agent => exact ⟨trivial, rfl⟩
  all_goals simp [make]

variable {s t : Daemon}

theorem drained_le (solo : s.mem.Solo) : s.drained ≤ s.mem.queue.rpos := by
  unfold drained
  split
  next r at_ =>
    have position := solo.fetching r (by simp [at_, Fetch.Holds])
    omega
  next val r at_ =>
    have position := solo.fetching r (by simp [at_, Fetch.Holds])
    omega
  next => exact Nat.le_refl _

/-- The reactor thread moves in the queue. -/
theorem Inv.reactor_moves (inv : s.Inv) {event : Exchange.Event Unit Unit Msg} {mem : Exchange Unit Unit Msg}
    {reactor' : Reactor} (stepped : s.mem.step event = some mem) (rpos : mem.queue.rpos = s.mem.queue.rpos)
    (consumers : mem.consumers = s.mem.consumers) (posting : reactor' ≠ .posting → (mem.producers ()).Resting)
    (running : s.reactor ≠ .ended) : Inv { s with mem, reactor := reactor' } := by
  have steps := Exchange.step_cases stepped
  constructor
  case mem => exact inv.mem.step steps
  case kept => exact inv.kept.step inv.mem steps
  case solo => exact inv.solo.step steps
  case reactor => exact posting
  case agent =>
    have agent := inv.agent
    unfold Agrees at agent ⊢
    have stays {n : Nat} (taken : n ≤ s.mem.queue.rpos) := Exchange.taken_stays inv.kept stepped taken
    have drained : drained { s with mem, reactor := reactor' } = s.drained := by
      simp only [Daemon.drained, consumers, rpos]
    split
    next at_ =>
      rw [at_] at agent
      rw [consumers, drained, stays (drained_le inv.solo)]
      exact agent
    next at_ =>
      rw [at_] at agent
      obtain ⟨r, done, position, journ⟩ := agent
      exact ⟨r, by rw [consumers, done], by rw [rpos, position], by rw [stays (by omega), journ]⟩
    next =>
      rw [consumers, rpos, stays (Nat.le_refl _)]
      split at agent
      next at_ => simp_all
      next at_ => simp_all
      next => exact agent
  case stopped => exact inv.stopped
  case joined => exact inv.joined
  case finished => exact fun ended => absurd (inv.finished ended) running
  case agentEnded => exact inv.agentEnded

/-- The agent moves in the queue. -/
theorem Inv.agent_moves (inv : s.Inv) {event : Exchange.Event Unit Unit Msg} {mem : Exchange Unit Unit Msg}
    {agent' : Agent} {journ' : List Msg} (stepped : s.mem.step event = some mem) (aside : Exchange.Aside s.mem mem)
    (running : s.agent ≠ .ended) (going : agent' ≠ .ended)
    (agent : Agrees { s with mem, agent := agent', journ := journ' }) :
    Inv { s with mem, agent := agent', journ := journ' } := by
  have steps := Exchange.step_cases stepped
  constructor
  case mem => exact inv.mem.step steps
  case kept => exact inv.kept.step inv.mem steps
  case solo => exact inv.solo.step steps
  case reactor =>
    intro resting
    show (mem.producers ()).Resting
    rw [aside.producers]
    exact inv.reactor resting
  case agent => exact agent
  case stopped => exact inv.stopped
  case joined => exact fun joined => absurd (inv.joined joined) running
  case finished => exact inv.finished
  case agentEnded => exact fun ended => absurd ended going

theorem Inv.pop (inv : s.Inv) {n : Nat} {journ' : List Msg} (running : s.agent ≠ .ended)
    (resting : (s.mem.consumers ()).Resting)
    (journ : journ'.map some = (List.range s.mem.queue.rpos).map s.mem.history.written)
    (stepped : Daemon.pop { s with journ := journ' } n = some t) : t.Inv := by
  obtain ⟨mem, begun, rfl⟩ := Option.map_eq_some_iff.mp stepped
  have begun' : s.mem.step (.fetch ()) = some mem := begun
  refine inv.agent_moves begun' (Exchange.aside_fetch begun') running (by simp) ?_
  simp only [Exchange.step, resting, if_true] at begun
  cases begun
  exact ⟨by simp [Fetch.Resting], journ⟩

theorem Inv.consume (inv : s.Inv) {n : Nat} {spurious : Bool} (at_ : s.agent = .popping n)
    (stepped : s.step (.agent spurious) = some t) : t.Inv := by
  simp only [step, at_] at stepped
  obtain ⟨mem, moved, rfl⟩ := Option.map_eq_some_iff.mp stepped
  have aside := Exchange.aside_consume moved
  have running : s.agent ≠ .ended := by simp [at_]
  have agent := inv.agent
  unfold Agrees at agent
  rw [at_] at agent
  obtain ⟨_, journ⟩ := agent
  have solo := inv.solo
  obtain ⟨⟨queue', fetch'⟩, made, same⟩ := Option.map_eq_some_iff.mp moved
  have steps := Fetch.step_cases made
  generalize now : s.mem.consumers () = fetch at steps
  unfold drained at journ
  rw [now] at journ same
  cases steps with
  | @committed val r =>
    have position := solo.fetching r (by simp [now, Fetch.Holds])
    subst same
    simp only [Function.update_self]
    refine inv.agent_moves moved aside running (by simp) ?_
    exact ⟨r, by simp, position, journ⟩
  | empty seen =>
    subst same
    simp only [Function.update_self]
    refine inv.agent_moves moved aside running (by split <;> simp) ?_
    unfold Agrees
    split
    next other => split at other <;> cases other
    next other => split at other <;> cases other
    next => exact ⟨by simp [Fetch.Resting], journ⟩
  | _ =>
    subst same
    simp only [Function.update_self]
    refine inv.agent_moves moved aside running (by simp) ?_
    simpa [Agrees, drained, Fetch.Resting, Exchange.consumedBy] using journ

theorem Inv.step (inv : s.Inv) {event : Event} (stepped : s.step event = some t) : t.Inv := by
  cases event with
  | post msg =>
    simp only [Daemon.step] at stepped
    split at stepped
    next at_ =>
      obtain ⟨mem, begun, rfl⟩ := Option.map_eq_some_iff.mp stepped
      obtain ⟨_, queue, consumers, _⟩ := Exchange.published_post begun
      exact inv.reactor_moves begun (by rw [queue]) consumers (fun other => absurd rfl other) (by simp [at_])
    next => cases stepped
  | reactor spurious =>
    simp only [Daemon.step] at stepped
    split at stepped
    next at_ =>
      cases stepped
      exact { inv with
        reactor := fun _ => inv.reactor (by simp [at_])
        finished := fun ended => absurd (inv.finished ended) (by simp [at_]) }
    next at_ =>
      cases stepped
      exact { inv with
        reactor := fun _ => inv.reactor (by simp [at_])
        finished := fun ended => absurd (inv.finished ended) (by simp [at_]) }
    next at_ =>
      obtain ⟨mem, moved, rfl⟩ := Option.map_eq_some_iff.mp stepped
      obtain ⟨_, rpos, consumers⟩ := Exchange.published_produce inv.solo moved
      refine inv.reactor_moves moved rpos consumers ?_ (by simp [at_])
      split
      next resting => exact fun _ => resting
      next => exact fun other => absurd rfl other
    next => cases stepped
  | agent spurious =>
    have agent := inv.agent
    unfold Agrees at agent
    cases at_ : s.agent with
    | check =>
      rw [at_] at agent
      simp only [Daemon.step, at_] at stepped
      split at stepped
      next stop =>
        cases stepped
        exact { inv with
          agent := agent
          joined := fun _ => rfl
          agentEnded := fun _ => stop }
      next => exact inv.pop (by simp [at_]) agent.1 agent.2 stepped
    | popping n => exact inv.consume at_ stepped
    | writing msg n =>
      rw [at_] at agent
      simp only [Daemon.step, at_] at stepped
      obtain ⟨r, done, position, journ⟩ := agent
      have written := ((inv.kept.fifo inv.mem).fetched () msg r done).2.1
      refine inv.pop (by simp [at_]) (by simp [done, Fetch.Resting]) ?_ stepped
      rw [← position, List.range_succ, List.map_append, List.map_append, journ, List.map_singleton, List.map_singleton,
        written]
    | idle =>
      rw [at_] at agent
      simp only [Daemon.step, at_] at stepped
      cases stepped
      exact { inv with
        agent := agent
        joined := fun joined => absurd (inv.joined joined) (by simp [at_])
        agentEnded := by simp }
    | recheck =>
      rw [at_] at agent
      simp only [Daemon.step, at_] at stepped
      split at stepped
      next stop =>
        cases stepped
        exact { inv with
          agent := agent
          joined := fun joined => absurd (inv.joined joined) (by simp [at_])
          agentEnded := by simp }
      next => exact inv.pop (by simp [at_]) agent.1 agent.2 stepped
    | ended => simp [Daemon.step, at_] at stepped
  | main =>
    simp only [Daemon.step] at stepped
    have agent := inv.agent
    unfold Agrees drained at agent
    split at stepped
    next at_ =>
      cases stepped
      exact { inv with
        stopped := by simp
        joined := by simp
        finished := by simp
        agentEnded := fun _ => rfl }
    next at_ =>
      split at stepped
      next ended =>
        cases stepped
        exact { inv with
          stopped := by
            have stopped := inv.stopped
            simp [at_] at stopped
            simp [stopped]
          joined := fun _ => ended
          finished := by simp }
      next => cases stepped
    next at_ =>
      split at stepped
      next ended =>
        cases stepped
        exact { inv with
          stopped := by
            have stopped := inv.stopped
            simp [at_] at stopped
            simp [stopped]
          joined := fun _ => inv.joined (Or.inl at_)
          finished := fun _ => ended }
      next => cases stepped
    next => cases stepped

/-- Once the flag is set, no message waits between two drains. -/
def Settled (s : Daemon) : Prop := s.journStop = true → ¬ s.Draining → ¬ s.Waiting

theorem Inv.waiting_iff (inv : s.Inv) : s.Waiting ↔ s.mem.queue.rpos < s.mem.published :=
  Exchange.waiting_iff inv.mem inv.solo

theorem Inv.rpos_le (inv : s.Inv) : s.mem.queue.rpos ≤ s.mem.published := by
  have ring := inv.mem.ring
  unfold Exchange.published
  split
  next val w at_ =>
    have above := (ring.writing () w (by simp [at_, Post.Holds])).1
    have position := inv.solo.posting w (by simp [at_, Post.Holds])
    omega
  next val w at_ =>
    have above := (ring.writing () w (by simp [at_, Post.Holds])).1
    have position := inv.solo.posting w (by simp [at_, Post.Holds])
    omega
  next => exact ring.ordered

/-- A step of the reactor thread completes a post or leaves what is waiting as it is. -/
theorem Inv.reactor_step (inv : s.Inv) {event : Event} (mine : event ≠ .main) (mine' : ∀ spurious, event ≠ .agent spurious)
    (stepped : s.step event = some t) : t.agent = s.agent ∧ t.journStop = s.journStop ∧
      t.mem.queue.rpos = s.mem.queue.rpos ∧
      (t.mem.published = s.mem.published ∧ ¬ s.Commits event ∨ t.mem.published = s.mem.published + 1 ∧ s.Commits event) := by
  cases event with
  | main => exact absurd rfl mine
  | agent spurious => exact absurd rfl (mine' spurious)
  | post msg =>
    simp only [Daemon.step] at stepped
    split at stepped
    next =>
      obtain ⟨mem, begun, rfl⟩ := Option.map_eq_some_iff.mp stepped
      obtain ⟨published, queue, _⟩ := Exchange.published_post begun
      exact ⟨rfl, rfl, by rw [queue], Or.inl ⟨published, id⟩⟩
    next => cases stepped
  | reactor spurious =>
    simp only [Daemon.step] at stepped
    have commits (resting : s.reactor ≠ .posting) : ¬ s.Commits (.reactor spurious) := by
      rintro ⟨msg, wpos, at_⟩
      have resting := inv.reactor resting
      rw [at_] at resting
      exact resting
    split at stepped
    next at_ =>
      cases stepped
      exact ⟨rfl, rfl, rfl, Or.inl ⟨rfl, commits (by simp [at_])⟩⟩
    next at_ =>
      cases stepped
      exact ⟨rfl, rfl, rfl, Or.inl ⟨rfl, commits (by simp [at_])⟩⟩
    next =>
      obtain ⟨mem, moved, rfl⟩ := Option.map_eq_some_iff.mp stepped
      obtain ⟨published, rpos, _⟩ := Exchange.published_produce inv.solo moved
      refine ⟨rfl, rfl, rpos, ?_⟩
      split at published
      next msg wpos at_ => exact Or.inr ⟨published, msg, wpos, at_⟩
      next other =>
        refine Or.inl ⟨published, ?_⟩
        rintro ⟨msg, wpos, at_⟩
        exact other msg wpos at_
    next => cases stepped

/-- A step of the journal thread between two drains begins a drain or leaves what is waiting as it is. -/
theorem agent_between {spurious : Bool} (between : ¬ s.Draining) (stepped : s.step (.agent spurious) = some t) :
    t.Draining ∧ s.journStop = false ∨ ¬ t.Draining ∧ t.mem = s.mem ∧ t.journStop = s.journStop := by
  have begins {n : Nat} (stop : ¬ s.journStop = true) (begun : s.pop n = some t) : t.Draining ∧ s.journStop = false := by
    obtain ⟨mem, _, rfl⟩ := Option.map_eq_some_iff.mp begun
    exact ⟨trivial, by simpa using stop⟩
  simp only [Daemon.step] at stepped
  split at stepped
  next =>
    split at stepped
    next =>
      cases stepped
      exact Or.inr ⟨id, rfl, rfl⟩
    next stop => exact Or.inl (begins stop stepped)
  next at_ => exact absurd (by simp [Draining, at_]) between
  next at_ => exact absurd (by simp [Draining, at_]) between
  next =>
    cases stepped
    exact Or.inr ⟨id, rfl, rfl⟩
  next =>
    split at stepped
    next =>
      cases stepped
      exact Or.inr ⟨id, rfl, rfl⟩
    next stop => exact Or.inl (begins stop stepped)
  next => cases stepped

/-- A drain ends when nothing is waiting. -/
theorem Inv.drained_empty (inv : s.Inv) {spurious : Bool} (drains : s.Draining)
    (stepped : s.step (.agent spurious) = some t) : t.Draining ∨ ¬ t.Waiting := by
  unfold Draining at drains
  cases at_ : s.agent with
  | popping n =>
    simp only [Daemon.step, at_] at stepped
    obtain ⟨mem, moved, rfl⟩ := Option.map_eq_some_iff.mp stepped
    obtain ⟨⟨queue', fetch'⟩, made, same⟩ := Option.map_eq_some_iff.mp moved
    have steps := Fetch.step_cases made
    generalize now : s.mem.consumers () = fetch at steps
    subst same
    simp only [Function.update_self]
    cases steps with
    | @empty r seen =>
      obtain rfl := inv.solo.fetchSeq r now
      exact Or.inr (Nat.ne_of_lt seen)
    | _ => exact Or.inl trivial
  | writing msg n =>
    simp only [Daemon.step, at_] at stepped
    obtain ⟨mem, _, rfl⟩ := Option.map_eq_some_iff.mp stepped
    exact Or.inl trivial
  | _ => simp [at_] at drains

theorem Inv.settled_step (inv : s.Inv) (inv' : t.Inv) (settled : s.Settled) {event : Event} (orderly : s.Orderly event)
    (stepped : s.step event = some t) : t.Settled := by
  intro stop between waiting
  cases event with
  | agent spurious =>
    rcases Decidable.em s.Draining with drains | idle
    next =>
      rcases inv.drained_empty drains stepped with drains' | empty
      next => exact between drains'
      next => exact empty waiting
    next =>
      rcases agent_between idle stepped with ⟨drains', _⟩ | ⟨_, mem, flag⟩
      next => exact between drains'
      next =>
        refine settled (flag ▸ stop) idle ?_
        unfold Waiting at waiting ⊢
        rwa [mem] at waiting
  | main =>
    simp only [Daemon.step] at stepped
    split at stepped
    next at_ =>
      cases stepped
      rcases orderly with drains | ⟨empty, _⟩
      next => exact between drains
      next => exact empty rfl at_ waiting
    next =>
      split at stepped
      next =>
        cases stepped
        exact settled stop between waiting
      next => cases stepped
    next =>
      split at stepped
      next =>
        cases stepped
        exact settled stop between waiting
      next => cases stepped
    next => cases stepped
  | _ =>
    obtain ⟨agent, flag, rpos, published⟩ := inv.reactor_step (by simp) (by simp) stepped
    have idle : ¬ s.Draining := by
      unfold Draining at between ⊢
      rwa [agent] at between
    rcases orderly with drains | ⟨_, none_⟩
    next => exact idle drains
    next =>
      have quiet := none_ (flag ▸ stop)
      rcases published with ⟨same, _⟩ | ⟨_, commits⟩
      next =>
        refine settled (flag ▸ stop) idle (inv.waiting_iff.mpr ?_)
        have waiting := inv'.waiting_iff.mp waiting
        omega
      next => exact quiet commits

/-- A message that waits with the flag set and no drain under way stays where it is. -/
theorem Inv.lost_step (inv : s.Inv) (inv' : t.Inv) {event : Event} (stop : s.journStop = true) (idle : ¬ s.Draining)
    (waiting : s.Waiting) (stepped : s.step event = some t) : t.journStop = true ∧ ¬ t.Draining ∧ t.Waiting := by
  cases event with
  | agent spurious =>
    rcases agent_between idle stepped with ⟨_, flag⟩ | ⟨between, mem, flag⟩
    next =>
      rw [stop] at flag
      cases flag
    next =>
      refine ⟨flag.trans stop, between, ?_⟩
      unfold Waiting
      rwa [mem]
  | main =>
    simp only [Daemon.step] at stepped
    split at stepped
    next =>
      cases stepped
      exact ⟨rfl, idle, waiting⟩
    next =>
      split at stepped
      next =>
        cases stepped
        exact ⟨stop, idle, waiting⟩
      next => cases stepped
    next =>
      split at stepped
      next =>
        cases stepped
        exact ⟨stop, idle, waiting⟩
      next => cases stepped
    next => cases stepped
  | _ =>
    obtain ⟨agent, flag, rpos, published⟩ := inv.reactor_step (by simp) (by simp) stepped
    refine ⟨flag.trans stop, ?_, inv'.waiting_iff.mpr ?_⟩
    next =>
      unfold Draining
      rwa [agent]
    next =>
      have waiting := inv.waiting_iff.mp waiting
      omega

/-- A step that is not orderly loses a message. -/
theorem Inv.lost_of_disorderly (inv : s.Inv) (inv' : t.Inv) {event : Event} (disorderly : ¬ s.Orderly event)
    (stepped : s.step event = some t) : t.journStop = true ∧ ¬ t.Draining ∧ t.Waiting := by
  obtain ⟨idle, disorderly⟩ := not_or.mp disorderly
  rcases not_and_or.mp disorderly with leaves | commits
  next =>
    push Not at leaves
    obtain ⟨rfl, at_, waiting⟩ := leaves
    simp only [Daemon.step, at_] at stepped
    cases stepped
    exact ⟨rfl, idle, waiting⟩
  next =>
    push Not at commits
    obtain ⟨stop, commits⟩ := commits
    cases event with
    | reactor spurious =>
      obtain ⟨agent, flag, rpos, published⟩ := inv.reactor_step (by simp) (by simp) stepped
      refine ⟨flag.trans stop, ?_, inv'.waiting_iff.mpr ?_⟩
      next =>
        unfold Draining
        rwa [agent]
      next =>
        have below := inv.rpos_le
        rcases published with ⟨_, other⟩ | ⟨more, _⟩
        next => exact absurd commits other
        next => omega
    | _ => exact commits.elim

theorem inv_of_run {zero : Msg} {events : List Event} (run : Run step (fun _ _ => True) (make zero) events s) : s.Inv :=
  run.invariant (I := Inv) (fun _ _ _ inv _ stepped => inv.step stepped) (inv_make zero)

theorem settled_of_orderly {zero : Msg} {events : List Event} (run : Run step Orderly (make zero) events s) :
    s.Settled := by
  suffices both : s.Inv ∧ s.Settled from both.2
  refine run.invariant (I := fun s => s.Inv ∧ s.Settled) ?_ ⟨inv_make zero, fun stop => by cases stop⟩
  intro s event t ⟨inv, settled⟩ orderly stepped
  have inv' := inv.step stepped
  exact ⟨inv', inv.settled_step inv' settled orderly stepped⟩

theorem orderly_of_settled {zero : Msg} {events : List Event}
    (run : Run step (fun _ _ => True) (make zero) events s) (settled : s.Settled) :
    Run step Orderly (make zero) events s := by
  induction run with
  | nil => exact .nil
  | @snoc events s t event run _ stepped inductionHypothesis =>
    have inv := inv_of_run run
    have inv' := inv.step stepped
    have orderly : s.Orderly event := by
      by_contra disorderly
      obtain ⟨stop, idle, waiting⟩ := inv.lost_of_disorderly inv' disorderly stepped
      exact settled stop idle waiting
    refine .snoc (inductionHypothesis ?_) orderly stepped
    intro stop idle waiting
    obtain ⟨stop', idle', waiting'⟩ := inv.lost_step inv' stop idle waiting stepped
    exact settled stop' idle' waiting'

/-- When the threads have ended, the journal has the first messages that were posted, each once and in order, and it has
all of them exactly when every step of the run was orderly. -/
theorem shutdown_lossless_iff (zero : Msg) (events : List Event) (s : Daemon)
    (run : Run step (fun _ _ => True) (make zero) events s) (ended : s.main = .ended) :
    s.journ.map some <+: s.posted ∧ (s.journ.map some = s.posted ↔ Run step Orderly (make zero) events s) := by
  have inv := inv_of_run run
  have agentEnded := inv.joined (Or.inr ended)
  have reactorEnded := inv.finished ended
  have stop := inv.agentEnded agentEnded
  have idle : ¬ s.Draining := by simp [Draining, agentEnded]
  have journ : s.journ.map some = (List.range s.mem.queue.rpos).map s.mem.history.written := by
    have agent := inv.agent
    unfold Agrees at agent
    rw [agentEnded] at agent
    exact agent.2
  have published : s.mem.published = s.mem.queue.wpos := by
    have resting := inv.reactor (by simp [reactorEnded])
    unfold Exchange.published
    split
    next at_ => simp [at_, Post.Resting] at resting
    next at_ => simp [at_, Post.Resting] at resting
    next => rfl
  have ordered := inv.mem.ring.ordered
  have waiting := inv.waiting_iff
  rw [published] at waiting
  constructor
  next =>
    rw [journ]
    obtain ⟨more, wpos⟩ := Nat.exists_eq_add_of_le ordered
    rw [posted, wpos, List.range_add, List.map_append]
    exact List.prefix_append _ _
  next =>
    constructor
    next =>
      intro same
      refine orderly_of_settled run fun _ _ waits => ?_
      have length : s.mem.queue.rpos = s.mem.queue.wpos := by
        simpa [posted] using congrArg List.length (journ.symm.trans same)
      have behind := waiting.mp waits
      omega
    next =>
      intro orderly
      have settled := settled_of_orderly orderly
      have caught : ¬ s.mem.queue.rpos < s.mem.queue.wpos := fun behind => settled stop idle (waiting.mpr behind)
      have same : s.mem.queue.rpos = s.mem.queue.wpos := by omega
      rw [journ, posted, same]

instance : ∀ s event, Decidable (Commits s event)
  | s, .reactor _ =>
    match at_ : s.mem.producers () with
    | .commit msg wpos => isTrue ⟨msg, wpos, at_⟩
    | .idle | .load _ | .seq _ _ | .claim _ _ | .write _ _ | .done _ _ => isFalse fun ⟨_, _, other⟩ => by simp [at_] at other
  | _, .post _ | _, .agent _ | _, .main => isFalse id

instance (s : Daemon) (event : Event) : Decidable (s.Orderly event) := inferInstanceAs (Decidable (_ ∨ _))

/-- A message is posted and written before the main thread leaves the signal loop. -/
theorem shutdown_lossless_one : ∃ s : Daemon, s.main = .ended ∧ s.posted = [some (.updateMarket 1 2)] ∧
    s.journ.map some = s.posted := by
  have made : ∃ s ∈ Run.exec step Orderly (make (.updateMarket 0 0))
        (.reactor false :: .post (.updateMarket 1 2) :: List.replicate 5 (.reactor false) ++
          List.replicate 9 (.agent false) ++ [.main, .agent false, .main, .reactor false, .reactor false, .main]),
      s.main = .ended ∧ s.posted = [some (.updateMarket 1 2)] := by
    decide
  obtain ⟨s, done, ended, posted⟩ := made
  have orderly := Run.of_exec done
  have run : Run step (fun _ _ => True) _ _ s := orderly.mono fun _ _ _ => trivial
  exact ⟨s, ended, posted, (shutdown_lossless_iff _ _ s run ended).2.mpr orderly⟩

/-- The agent finds the queue empty, a message is posted while it is idle, and then the main thread leaves the signal loop:
the agent sees the flag and ends. -/
theorem shutdown_loses : ∃ events s, Run step (fun _ _ => True) (make (.updateMarket 0 0)) events s ∧
    s.main = .ended ∧ s.posted = [some (.updateMarket 1 2)] ∧ s.journ = [] := by
  have made : ∃ s ∈ Run.exec step (fun _ _ => True) (make (.updateMarket 0 0))
        (List.replicate 3 (.agent false) ++ .reactor false :: .post (.updateMarket 1 2) ::
          List.replicate 5 (.reactor false) ++ .main :: List.replicate 3 (.agent false) ++
          [.main, .reactor false, .reactor false, .main]),
      s.main = .ended ∧ s.posted = [some (.updateMarket 1 2)] ∧ s.journ = [] := by
    decide
  obtain ⟨s, done, lost⟩ := made
  exact ⟨_, s, Run.of_exec done, lost⟩

end Daemon

end Swirly
