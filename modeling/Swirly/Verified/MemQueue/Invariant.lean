import Swirly.Verified.MemQueue.Ring

/-!
# The invariant of the memory queue

The threads that hold a position own the element for it, whatever point of their call they have got to, and a thread that
is about to exchange a position has seen a sequence number that still stands if nobody else has claimed that position.
-/

universe u v w

namespace Swirly

namespace Post

variable {α : Type u} {queue queue' : MemQueue α} {post post' : Post α}

/-- The call has claimed the position and has not given it up. -/
def Holds : Post α → Nat → Prop
  | write _ wpos, p | commit _ wpos, p => p = wpos
  | _, _ => False

/-- What an atomic step of a call does. -/
inductive Steps (queue : MemQueue α) : Post α → MemQueue α → Post α → Prop
  | loaded {val} : Steps queue (load val) queue (seq val queue.wpos)
  | room {val wpos} (seen : (queue.elem wpos).seq = wpos) : Steps queue (seq val wpos) queue (claim val wpos)
  | full {val wpos} (seen : (queue.elem wpos).seq < wpos) : Steps queue (seq val wpos) queue (done val none)
  | stale {val wpos} (seen : wpos < (queue.elem wpos).seq) : Steps queue (seq val wpos) queue (load val)
  | claimed {val} : Steps queue (claim val queue.wpos) { queue with wpos := queue.wpos + 1 } (write val queue.wpos)
  | failed {val wpos} : Steps queue (claim val wpos) queue (seq val queue.wpos)
  | wrote {val wpos} : Steps queue (write val wpos) (queue.setVal wpos val) (commit val wpos)
  | committed {val wpos} : Steps queue (commit val wpos) (queue.setSeq wpos (wpos + 1)) (done val (some wpos))

theorem step_cases {spurious : Bool} (stepped : post.step queue spurious = some (queue', post')) :
    Steps queue post queue' post' := by
  cases post with
  | idle => cases stepped
  | load val =>
    cases stepped
    exact .loaded
  | seq val wpos =>
    simp only [step] at stepped
    split at stepped
    next =>
      cases stepped
      exact .room (by omega)
    next =>
      split at stepped
      next =>
        cases stepped
        exact .full (by omega)
      next =>
        cases stepped
        exact .stale (by omega)
  | claim val wpos =>
    simp only [step] at stepped
    split at stepped
    next same =>
      obtain ⟨rfl, _⟩ := same
      cases stepped
      exact .claimed
    next =>
      cases stepped
      exact .failed
  | write val wpos =>
    cases stepped
    exact .wrote
  | commit val wpos =>
    cases stepped
    exact .committed
  | done val wpos => cases stepped

theorem Resting.not_holds (resting : post.Resting) (p : Nat) : ¬ post.Holds p := by
  cases post <;> first | exact resting.elim | exact id

end Post

namespace Fetch

variable {α : Type u} {queue queue' : MemQueue α} {fetch fetch' : Fetch α}

def Holds : Fetch α → Nat → Prop
  | read rpos, p | commit _ rpos, p => p = rpos
  | _, _ => False

inductive Steps (queue : MemQueue α) : Fetch α → MemQueue α → Fetch α → Prop
  | loaded : Steps queue load queue (seq queue.rpos)
  | ready {rpos} (seen : (queue.elem rpos).seq = rpos + 1) : Steps queue (seq rpos) queue (claim rpos)
  | empty {rpos} (seen : (queue.elem rpos).seq < rpos + 1) : Steps queue (seq rpos) queue (done none)
  | stale {rpos} (seen : rpos + 1 < (queue.elem rpos).seq) : Steps queue (seq rpos) queue load
  | claimed : Steps queue (claim queue.rpos) { queue with rpos := queue.rpos + 1 } (read queue.rpos)
  | failed {rpos} : Steps queue (claim rpos) queue (seq queue.rpos)
  | got {rpos} : Steps queue (read rpos) queue (commit (queue.elem rpos).val rpos)
  | committed {val rpos} :
    Steps queue (commit val rpos) (queue.setSeq rpos (rpos + queue.capacity)) (done (some (rpos, val)))

theorem step_cases {spurious : Bool} (stepped : fetch.step queue spurious = some (queue', fetch')) :
    Steps queue fetch queue' fetch' := by
  cases fetch with
  | idle => cases stepped
  | load =>
    cases stepped
    exact .loaded
  | seq rpos =>
    simp only [step] at stepped
    split at stepped
    next =>
      cases stepped
      exact .ready (by omega)
    next =>
      split at stepped
      next =>
        cases stepped
        exact .empty (by omega)
      next =>
        cases stepped
        exact .stale (by omega)
  | claim rpos =>
    simp only [step] at stepped
    split at stepped
    next same =>
      obtain ⟨rfl, _⟩ := same
      cases stepped
      exact .claimed
    next =>
      cases stepped
      exact .failed
  | read rpos =>
    cases stepped
    exact .got
  | commit val rpos =>
    cases stepped
    exact .committed
  | done result => cases stepped

theorem Resting.not_holds (resting : fetch.Resting) (p : Nat) : ¬ fetch.Holds p := by
  cases fetch <;> first | exact resting.elim | exact id

end Fetch

namespace Exchange

variable {ι : Type v} {κ : Type w} {α : Type u}

/-- The calls agree with the queue. -/
structure Inv (s : Exchange ι κ α) : Prop where
  ring : Ring s.queue (fun i => (s.producers i).Holds) (fun c => (s.consumers c).Holds)
  postSeq : ∀ i val wpos, s.producers i = .seq val wpos → wpos ≤ s.queue.wpos
  postClaim : ∀ i val wpos, s.producers i = .claim val wpos →
    wpos ≤ s.queue.wpos ∧ (wpos = s.queue.wpos → (s.queue.elem wpos).seq = wpos)
  fetchSeq : ∀ c rpos, s.consumers c = .seq rpos → rpos ≤ s.queue.rpos
  fetchClaim : ∀ c rpos, s.consumers c = .claim rpos →
    rpos ≤ s.queue.rpos ∧ (rpos = s.queue.rpos → (s.queue.elem rpos).seq = rpos + 1)

theorem inv_make (k : Nat) (zero : α) (large : 1 ≤ k) : (make (2 ^ k) zero : Exchange ι κ α).Inv :=
  { ring := Ring.ofSize k zero large
    postSeq := fun _ _ _ at_ => by cases at_
    postClaim := fun _ _ _ at_ => by cases at_
    fetchSeq := fun _ _ at_ => by cases at_
    fetchClaim := fun _ _ at_ => by cases at_ }

variable {s t : Exchange ι κ α}

/-- The thread that moved, or another one. -/
theorem of_update {τ : Type*} [DecidableEq τ] {β : Type*} {f : τ → β} {i j : τ} {a b : β} (at_ : Function.update f i a j = b) :
    (j = i ∧ a = b) ∨ (j ≠ i ∧ f j = b) := by
  rw [Function.update_apply] at at_
  split at at_
  next same => exact Or.inl ⟨same, at_⟩
  next other => exact Or.inr ⟨other, at_⟩

/-- The positions that a thread holds are all that moves. -/
theorem update_holds {τ : Type*} [DecidableEq τ] {β : Type*} (Holds : β → Nat → Prop) {f : τ → β} {i : τ} {a : β}
    (same : ∀ p, Holds a p ↔ Holds (f i) p) (j : τ) (p : Nat) : Holds (Function.update f i a j) p ↔ Holds (f j) p := by
  rw [Function.update_apply]
  split
  next moved => rw [moved, same]
  next => rfl

theorem update_gains {τ : Type*} [DecidableEq τ] {β : Type*} (Holds : β → Nat → Prop) {f : τ → β} {i : τ} {a : β}
    {q : Nat} (before : ∀ p, ¬ Holds (f i) p) (after : ∀ p, Holds a p ↔ p = q) (j : τ) (p : Nat) :
    Holds (Function.update f i a j) p ↔ Holds (f j) p ∨ (j = i ∧ p = q) := by
  rw [Function.update_apply]
  split
  next moved => simp [moved, before, after]
  next other => simp [other]

theorem update_drops {τ : Type*} [DecidableEq τ] {β : Type*} (Holds : β → Nat → Prop) {f : τ → β} {i : τ} {a : β}
    {q : Nat} (before : ∀ p, Holds (f i) p ↔ p = q) (after : ∀ p, ¬ Holds a p)
    (sole : ∀ j, Holds (f j) q → j = i) (j : τ) (p : Nat) :
    Holds (Function.update f i a j) p ↔ Holds (f j) p ∧ p ≠ q := by
  rw [Function.update_apply]
  split
  next moved => simp [moved, before, after]
  next other =>
    constructor
    next =>
      intro held
      refine ⟨held, ?_⟩
      rintro rfl
      exact other (sole j held)
    next => exact And.left

section Producer

variable [DecidableEq ι]

/-- A producer has moved and the queue has the positions and sequence numbers it had. -/
theorem Inv.post_quiet (inv : s.Inv) {i : ι} {queue' : MemQueue α} {post' : Post α} {history' : History ι κ α}
    (capacity : queue'.capacity = s.queue.capacity) (rpos : queue'.rpos = s.queue.rpos)
    (wpos : queue'.wpos = s.queue.wpos) (seqs : ∀ p, (queue'.elem p).seq = (s.queue.elem p).seq)
    (held : ∀ p, post'.Holds p ↔ (s.producers i).Holds p)
    (seq : ∀ val w, post' = .seq val w → w ≤ s.queue.wpos)
    (claim : ∀ val w, post' = .claim val w →
      w ≤ s.queue.wpos ∧ (w = s.queue.wpos → (s.queue.elem w).seq = w)) :
    Inv { s with queue := queue', producers := Function.update s.producers i post', history := history' } :=
  { ring := inv.ring.congr capacity rpos wpos seqs (update_holds Post.Holds held) fun _ _ => Iff.rfl
    postSeq := by
      intro j val w at_
      simp only [wpos]
      rcases of_update at_ with ⟨_, now⟩ | ⟨_, before⟩
      next => exact seq val w now
      next => exact inv.postSeq j val w before
    postClaim := by
      intro j val w at_
      simp only [wpos, seqs]
      rcases of_update at_ with ⟨_, now⟩ | ⟨_, before⟩
      next => exact claim val w now
      next => exact inv.postClaim j val w before
    fetchSeq := by simpa only [rpos] using inv.fetchSeq
    fetchClaim := by simpa only [rpos, seqs] using inv.fetchClaim }

theorem Inv.produce (inv : s.Inv) {i : ι} {queue' : MemQueue α} {post' : Post α} (history' : History ι κ α)
    (steps : Post.Steps s.queue (s.producers i) queue' post') :
    Inv { s with queue := queue', producers := Function.update s.producers i post', history := history' } := by
  have ring := inv.ring
  have roomy := ring.roomy
  generalize now : s.producers i = post at steps
  cases steps with
  | loaded =>
    apply inv.post_quiet rfl rfl rfl (fun _ => rfl) (by simp [now, Post.Holds])
    next => simp
    next => simp
  | @room val wpos seen =>
    have reached := inv.postSeq i val wpos now
    apply inv.post_quiet rfl rfl rfl (fun _ => rfl) (by simp [now, Post.Holds])
    next => simp
    next =>
      rintro _ _ ⟨⟩
      exact ⟨reached, fun _ => seen⟩
  | full seen => exact inv.post_quiet rfl rfl rfl (fun _ => rfl) (by simp [now, Post.Holds]) (by simp) (by simp)
  | stale seen => exact inv.post_quiet rfl rfl rfl (fun _ => rfl) (by simp [now, Post.Holds]) (by simp) (by simp)
  | failed => exact inv.post_quiet rfl rfl rfl (fun _ => rfl) (by simp [now, Post.Holds]) (by simp) (by simp)
  | @wrote val wpos =>
    have seqs (p : Nat) : ((s.queue.setVal wpos val).elem p).seq = (s.queue.elem p).seq := s.queue.seq_setVal wpos p val
    exact inv.post_quiet rfl rfl rfl seqs (by simp [now, Post.Holds]) (by simp) (by simp)
  | @claimed val =>
    have seq := (inv.postClaim i val _ now).2 rfl
    exact
      { ring := ring.claim seq (update_gains Post.Holds (by simp [now, Post.Holds]) (by simp [Post.Holds]))
        postSeq := by
          intro j val' w at_
          rcases of_update at_ with ⟨_, moved⟩ | ⟨_, before⟩
          next => cases moved
          next => exact Nat.le_succ_of_le (inv.postSeq j val' w before)
        postClaim := by
          intro j val' w at_
          rcases of_update at_ with ⟨_, moved⟩ | ⟨_, before⟩
          next => cases moved
          next =>
            -- The position that the other call has loaded is gone.
            have below := (inv.postClaim j val' w before).1
            exact ⟨Nat.le_succ_of_le below, fun ahead => absurd ahead (Nat.ne_of_lt (Nat.lt_succ_of_le below))⟩
        fetchSeq := inv.fetchSeq
        fetchClaim := inv.fetchClaim }
  | @committed val wpos =>
    have held : (s.producers i).Holds wpos := by simp [now, Post.Holds]
    obtain ⟨above, below, own⟩ := ring.writing i wpos held
    have bounded := ring.bounded
    exact
      { ring := ring.publish held (update_drops Post.Holds (by simp [now, Post.Holds]) (by simp [Post.Holds])
          fun j held' => ring.writer j i wpos held' held)
        postSeq := by
          intro j val' w at_
          rcases of_update at_ with ⟨_, moved⟩ | ⟨_, before⟩
          next => cases moved
          next => exact inv.postSeq j val' w before
        postClaim := by
          intro j val' w at_
          rcases of_update at_ with ⟨_, moved⟩ | ⟨_, before⟩
          next => cases moved
          next =>
            refine ⟨(inv.postClaim j val' w before).1, ?_⟩
            rintro rfl
            have seq := (inv.postClaim j val' _ before).2 rfl
            have inside := ring.inside_of_seq seq
            show ((s.queue.setSeq wpos (wpos + 1)).elem s.queue.wpos).seq = s.queue.wpos
            rwa [ring.seq_setSeq _ (by omega) (by omega) (by omega)]
        fetchSeq := inv.fetchSeq
        fetchClaim := by
          intro c r at_
          refine ⟨(inv.fetchClaim c r at_).1, ?_⟩
          rintro rfl
          have seq : (s.queue.elem s.queue.rpos).seq = s.queue.rpos + 1 := (inv.fetchClaim c _ at_).2 rfl
          -- The element at the read position is full, so it is not the one that was being written.
          have apart : s.queue.rpos ≠ wpos := by
            rintro rfl
            omega
          show ((s.queue.setSeq wpos (wpos + 1)).elem s.queue.rpos).seq = s.queue.rpos + 1
          rwa [ring.seq_setSeq _ (by omega) (by omega) apart] }

end Producer

section Consumer

variable [DecidableEq κ]

/-- A consumer has moved and the queue has the positions and sequence numbers it had. -/
theorem Inv.fetch_quiet (inv : s.Inv) {c : κ} {fetch' : Fetch α} {history' : History ι κ α}
    (held : ∀ p, fetch'.Holds p ↔ (s.consumers c).Holds p)
    (seq : ∀ r, fetch' = .seq r → r ≤ s.queue.rpos)
    (claim : ∀ r, fetch' = .claim r → r ≤ s.queue.rpos ∧ (r = s.queue.rpos → (s.queue.elem r).seq = r + 1)) :
    Inv { s with consumers := Function.update s.consumers c fetch', history := history' } :=
  { ring := inv.ring.congr rfl rfl rfl (fun _ => rfl) (fun _ _ => Iff.rfl) (update_holds Fetch.Holds held)
    postSeq := inv.postSeq
    postClaim := inv.postClaim
    fetchSeq := by
      intro d r at_
      rcases of_update at_ with ⟨_, now⟩ | ⟨_, before⟩
      next => exact seq r now
      next => exact inv.fetchSeq d r before
    fetchClaim := by
      intro d r at_
      rcases of_update at_ with ⟨_, now⟩ | ⟨_, before⟩
      next => exact claim r now
      next => exact inv.fetchClaim d r before }

theorem Inv.consume (inv : s.Inv) {c : κ} {queue' : MemQueue α} {fetch' : Fetch α} (history' : History ι κ α)
    (steps : Fetch.Steps s.queue (s.consumers c) queue' fetch') :
    Inv { s with queue := queue', consumers := Function.update s.consumers c fetch', history := history' } := by
  have ring := inv.ring
  have roomy := ring.roomy
  generalize now : s.consumers c = fetch at steps
  cases steps with
  | loaded => exact inv.fetch_quiet (by simp [now, Fetch.Holds]) (by simp) (by simp)
  | @ready rpos seen =>
    have reached := inv.fetchSeq c rpos now
    apply inv.fetch_quiet (by simp [now, Fetch.Holds])
    next => simp
    next =>
      rintro _ ⟨⟩
      exact ⟨reached, fun _ => seen⟩
  | empty seen => exact inv.fetch_quiet (by simp [now, Fetch.Holds]) (by simp) (by simp)
  | stale seen => exact inv.fetch_quiet (by simp [now, Fetch.Holds]) (by simp) (by simp)
  | failed => exact inv.fetch_quiet (by simp [now, Fetch.Holds]) (by simp) (by simp)
  | got => exact inv.fetch_quiet (by simp [now, Fetch.Holds]) (by simp) (by simp)
  | claimed =>
    have seq := (inv.fetchClaim c _ now).2 rfl
    exact
      { ring := ring.take seq (update_gains Fetch.Holds (by simp [now, Fetch.Holds]) (by simp [Fetch.Holds]))
        postSeq := inv.postSeq
        postClaim := inv.postClaim
        fetchSeq := by
          intro d r at_
          rcases of_update at_ with ⟨_, moved⟩ | ⟨_, before⟩
          next => cases moved
          next => exact Nat.le_succ_of_le (inv.fetchSeq d r before)
        fetchClaim := by
          intro d r at_
          rcases of_update at_ with ⟨_, moved⟩ | ⟨_, before⟩
          next => cases moved
          next =>
            have below := (inv.fetchClaim d r before).1
            exact ⟨Nat.le_succ_of_le below, fun ahead => absurd ahead (Nat.ne_of_lt (Nat.lt_succ_of_le below))⟩ }
  | @committed val rpos =>
    have held : (s.consumers c).Holds rpos := by simp [now, Fetch.Holds]
    obtain ⟨below, window, own⟩ := ring.reading c rpos held
    have ordered := ring.ordered
    have bounded := ring.bounded
    exact
      { ring := ring.release held (update_drops Fetch.Holds (by simp [now, Fetch.Holds]) (by simp [Fetch.Holds])
          fun d held' => ring.reader d c rpos held' held)
        postSeq := inv.postSeq
        postClaim := by
          intro j val' w at_
          refine ⟨(inv.postClaim j val' w at_).1, ?_⟩
          rintro rfl
          have seq : (s.queue.elem s.queue.wpos).seq = s.queue.wpos := (inv.postClaim j val' _ at_).2 rfl
          -- The element at the write position is free, so it is not the one that was being read.
          have apart : s.queue.wpos ≠ rpos + s.queue.capacity := by
            intro wrapped
            rw [wrapped, ring.elem_add] at seq
            omega
          show ((s.queue.setSeq rpos (rpos + s.queue.capacity)).elem s.queue.wpos).seq = s.queue.wpos
          rwa [ring.seq_setSeq _ (by omega) (by omega) (by omega)]
        fetchSeq := by
          intro d r at_
          rcases of_update at_ with ⟨_, moved⟩ | ⟨_, before⟩
          next => cases moved
          next => exact inv.fetchSeq d r before
        fetchClaim := by
          intro d r at_
          rcases of_update at_ with ⟨_, moved⟩ | ⟨_, before⟩
          next => cases moved
          next =>
            refine ⟨(inv.fetchClaim d r before).1, ?_⟩
            rintro rfl
            have seq := (inv.fetchClaim d _ before).2 rfl
            have under := ring.below_of_seq seq
            show ((s.queue.setSeq rpos (rpos + s.queue.capacity)).elem s.queue.rpos).seq = s.queue.rpos + 1
            rwa [ring.seq_setSeq _ (by omega) (by omega) (by omega)] }

end Consumer

variable [DecidableEq ι] [DecidableEq κ]

/-- What a step of the exchange is: a call begins, or the call of a thread makes its next step. -/
inductive Steps (s : Exchange ι κ α) : Exchange ι κ α → Prop
  | post {i val} (resting : (s.producers i).Resting) :
    Steps s { s with producers := Function.update s.producers i (.load val) }
  | produce {i queue' post'} (steps : Post.Steps s.queue (s.producers i) queue' post') :
    Steps s { s with queue := queue', producers := Function.update s.producers i post',
                     history := producedBy i s.history (s.producers i) post' }
  | fetch {c} (resting : (s.consumers c).Resting) :
    Steps s { s with consumers := Function.update s.consumers c .load }
  | consume {c queue' fetch'} (steps : Fetch.Steps s.queue (s.consumers c) queue' fetch') :
    Steps s { s with queue := queue', consumers := Function.update s.consumers c fetch',
                     history := consumedBy c s.history (s.consumers c) fetch' }

theorem step_cases {event : Event ι κ α} (stepped : s.step event = some t) : Steps s t := by
  cases event with
  | post i val =>
    simp only [step] at stepped
    split at stepped
    next resting =>
      cases stepped
      exact .post resting
    next => cases stepped
  | produce i spurious =>
    obtain ⟨⟨queue', post'⟩, moved, rfl⟩ := Option.map_eq_some_iff.mp stepped
    exact .produce (Post.step_cases moved)
  | fetch c =>
    simp only [step] at stepped
    split at stepped
    next resting =>
      cases stepped
      exact .fetch resting
    next => cases stepped
  | consume c spurious =>
    obtain ⟨⟨queue', fetch'⟩, moved, rfl⟩ := Option.map_eq_some_iff.mp stepped
    exact .consume (Fetch.step_cases moved)

theorem Inv.step (inv : s.Inv) (steps : Steps s t) : t.Inv := by
  cases steps with
  | @post i val resting =>
    exact inv.post_quiet rfl rfl rfl (fun _ => rfl) (fun p => ⟨False.elim, fun held => resting.not_holds p held⟩)
      (by simp) (by simp)
  | produce steps => exact inv.produce _ steps
  | @fetch c resting =>
    exact inv.fetch_quiet (fun p => ⟨False.elim, fun held => resting.not_holds p held⟩) (by simp) (by simp)
  | consume steps => exact inv.consume _ steps

end Exchange

end Swirly
