import Swirly.Verified.MemQueue.Invariant
import Swirly.Verified.NextPow2

/-!
# The queue between the calls of one thread

A thread that calls `post` and `pop` one after the other finds a queue that holds its values in order and is bounded by
the capacity, provided that the constructor was asked for a power of two that it can round up to.  It numbers only as many
elements as it was asked for, so that the others of the ring are never free.
-/

universe u

namespace Swirly

namespace MemQueue

variable {α : Type u}

inductive Call (α : Type u) where
  | post (val : α)
  | pop
  deriving DecidableEq

inductive Answer (α : Type u) where
  | posted (done : Bool)
  | popped (val : Option α)
  deriving DecidableEq

/-- The queue with the call that the thread is in. -/
abbrev Thread (α : Type u) := MemQueue α × (Post α ⊕ Fetch α)

def begin : Call α → Post α ⊕ Fetch α
  | .post val => .inl (.load val)
  | .pop => .inr .load

def answer : Post α ⊕ Fetch α → Option (Answer α)
  | .inl (.done _ wpos) => some (.posted wpos.isSome)
  | .inr (.done result) => some (.popped (result.map Prod.snd))
  | _ => none

/-- One atomic step; an exchange may fail for no reason. -/
def stepThread (s : Thread α) (spurious : Bool) : Option (Thread α) :=
  match s.2 with
  | .inl post => (post.step s.1 spurious).map fun (queue, post) => (queue, .inl post)
  | .inr fetch => (fetch.step s.1 spurious).map fun (queue, fetch) => (queue, .inr fetch)

/-- The steps of a call so far. -/
abbrev Attempt (queue : MemQueue α) (call : Call α) (flags : List Bool) (s : Thread α) : Prop :=
  Run stepThread (fun _ _ => True) (queue, begin call) flags s

/-- A call that returns. -/
def Ends (queue : MemQueue α) (call : Call α) (result : Answer α) (queue' : MemQueue α) : Prop :=
  ∃ flags thread, Attempt queue call flags (queue', thread) ∧ answer thread = some result

/-- One call after the other. -/
inductive Calls (queue : MemQueue α) : List (Call α) → List (Answer α) → MemQueue α → Prop
  | nil : Calls queue [] [] queue
  | snoc {calls : List (Call α)} {results : List (Answer α)} {queue' queue'' : MemQueue α} {call : Call α}
      {result : Answer α} (before : Calls queue calls results queue') (ends : Ends queue' call result queue'') :
      Calls queue (calls ++ [call]) (results ++ [result]) queue''

/-- A list of at most `bound` values, oldest first. -/
def fifo (bound : Nat) (vals : List α) : Call α → Answer α × List α
  | .post val => if vals.length < bound then (.posted true, vals ++ [val]) else (.posted false, vals)
  | .pop => (.popped vals.head?, vals.tail)

/-- The answers of the list, from empty. -/
def replay (bound : Nat) (calls : List (Call α)) : List (Answer α) × List α :=
  calls.foldl (fun s call => (s.1 ++ [(fifo bound s.2 call).1], (fifo bound s.2 call).2)) ([], [])

/-- A bounded queue: it answers as the list does, and every call returns. -/
structure Fifo (queue : MemQueue α) (bound : Nat) : Prop where
  answers : ∀ calls results queue', Calls queue calls results queue' →
    results = (replay bound calls).1 ∧ queue'.size = (replay bound calls).2.length ∧
      queue'.reserve = bound - (replay bound calls).2.length
  returns : ∀ calls results queue' call, Calls queue calls results queue' → ∃ result queue'', Ends queue' call result queue''
  prompt : ∀ calls results queue' call flags s, Calls queue calls results queue' → Attempt queue' call flags s →
    flags.count false ≤ 5 + flags.count true ∧ (answer s.2 = none → ∀ spurious, (stepThread s spurious).isSome)

/-! ## One call -/

variable {queue : MemQueue α} {s t : Thread α} {spurious : Bool}

/-- The queue after a value is posted. -/
def posted (queue : MemQueue α) (val : α) : MemQueue α :=
  ({ queue with wpos := queue.wpos + 1 }.setVal queue.wpos val).setSeq queue.wpos (queue.wpos + 1)

/-- The queue after a value is fetched. -/
def fetched (queue : MemQueue α) : MemQueue α :=
  { queue with rpos := queue.rpos + 1 }.setSeq queue.rpos (queue.rpos + queue.capacity)

/-- Where a call of `post` can be that nothing interferes with. -/
inductive Posting (queue : MemQueue α) (val : α) : Thread α → Prop
  | load : Posting queue val (queue, .inl (.load val))
  | seq : Posting queue val (queue, .inl (.seq val queue.wpos))
  | claim (free : (queue.elem queue.wpos).seq = queue.wpos) : Posting queue val (queue, .inl (.claim val queue.wpos))
  | write (free : (queue.elem queue.wpos).seq = queue.wpos) :
    Posting queue val ({ queue with wpos := queue.wpos + 1 }, .inl (.write val queue.wpos))
  | commit (free : (queue.elem queue.wpos).seq = queue.wpos) :
    Posting queue val ({ queue with wpos := queue.wpos + 1 }.setVal queue.wpos val, .inl (.commit val queue.wpos))
  | posted (free : (queue.elem queue.wpos).seq = queue.wpos) :
    Posting queue val (queue.posted val, .inl (.done val (some queue.wpos)))
  | full (taken : (queue.elem queue.wpos).seq < queue.wpos) : Posting queue val (queue, .inl (.done val none))

/-- Where a call of `pop` can be that nothing interferes with. -/
inductive Fetching (queue : MemQueue α) : Thread α → Prop
  | load : Fetching queue (queue, .inr .load)
  | seq : Fetching queue (queue, .inr (.seq queue.rpos))
  | claim (full : (queue.elem queue.rpos).seq = queue.rpos + 1) : Fetching queue (queue, .inr (.claim queue.rpos))
  | read (full : (queue.elem queue.rpos).seq = queue.rpos + 1) :
    Fetching queue ({ queue with rpos := queue.rpos + 1 }, .inr (.read queue.rpos))
  | commit (full : (queue.elem queue.rpos).seq = queue.rpos + 1) :
    Fetching queue ({ queue with rpos := queue.rpos + 1 }, .inr (.commit (queue.elem queue.rpos).val queue.rpos))
  | fetched (full : (queue.elem queue.rpos).seq = queue.rpos + 1) :
    Fetching queue (queue.fetched, .inr (.done (some (queue.rpos, (queue.elem queue.rpos).val))))
  | empty (free : (queue.elem queue.rpos).seq < queue.rpos + 1) : Fetching queue (queue, .inr (.done none))

/-- What a call still has to do, at most. -/
def weight : Post α ⊕ Fetch α → Nat
  | .inl (.load _) | .inr .load => 5
  | .inl (.seq _ _) | .inr (.seq _) => 4
  | .inl (.claim _ _) | .inr (.claim _) => 3
  | .inl (.write _ _) | .inr (.read _) => 2
  | .inl (.commit _ _) | .inr (.commit _ _) => 1
  | .inl .idle | .inl (.done _ _) | .inr .idle | .inr (.done _) => 0

/-- A step gets nearer to the end, unless its exchange fails for no reason. -/
def Nearer (spurious : Bool) (s t : Thread α) : Prop :=
  weight t.2 + (if spurious then 0 else 1) ≤ weight s.2 + (if spurious then 1 else 0)

theorem Nearer.of_lt (drops : weight t.2 < weight s.2) : Nearer spurious s t := by
  unfold Nearer
  cases spurious <;> simp <;> omega

theorem Posting.step {val : α} (le : (queue.elem queue.wpos).seq ≤ queue.wpos) (posting : Posting queue val s)
    (stepped : stepThread s spurious = some t) : Posting queue val t ∧ Nearer spurious s t := by
  cases posting with
  | load => cases stepped; exact ⟨.seq, .of_lt (Nat.lt_succ_self _)⟩
  | seq =>
    simp only [stepThread, Post.step] at stepped
    cases Nat.eq_or_lt_of_le le with
    | inl free =>
      rw [if_pos (by omega)] at stepped
      cases stepped
      exact ⟨.claim free, .of_lt (Nat.lt_succ_self _)⟩
    | inr taken =>
      rw [if_neg (by omega), if_pos (by omega)] at stepped
      cases stepped
      exact ⟨.full taken, .of_lt (Nat.succ_pos 3)⟩
  | claim free =>
    cases spurious with
    -- The exchange fails for no reason, and gives the position as it is.
    | true =>
      simp only [stepThread, Post.step, Bool.true_eq_false, and_false, if_false] at stepped
      cases stepped
      exact ⟨.seq, Nat.le_refl 4⟩
    | false =>
      simp only [stepThread, Post.step, and_self, if_true] at stepped
      cases stepped
      exact ⟨.write free, .of_lt (Nat.lt_succ_self _)⟩
  | write free => cases stepped; exact ⟨.commit free, .of_lt (Nat.lt_succ_self _)⟩
  | commit free => cases stepped; exact ⟨.posted free, .of_lt (Nat.lt_succ_self _)⟩
  | posted free => cases stepped
  | full taken => cases stepped

theorem Fetching.step (le : (queue.elem queue.rpos).seq ≤ queue.rpos + 1) (fetching : Fetching queue s)
    (stepped : stepThread s spurious = some t) : Fetching queue t ∧ Nearer spurious s t := by
  cases fetching with
  | load => cases stepped; exact ⟨.seq, .of_lt (Nat.lt_succ_self _)⟩
  | seq =>
    simp only [stepThread, Fetch.step] at stepped
    cases Nat.eq_or_lt_of_le le with
    | inl full =>
      rw [if_pos (by omega)] at stepped
      cases stepped
      exact ⟨.claim full, .of_lt (Nat.lt_succ_self _)⟩
    | inr free =>
      rw [if_neg (by omega), if_pos (by omega)] at stepped
      cases stepped
      exact ⟨.empty free, .of_lt (Nat.succ_pos 3)⟩
  | claim full =>
    cases spurious with
    | true =>
      simp only [stepThread, Fetch.step, Bool.true_eq_false, and_false, if_false] at stepped
      cases stepped
      exact ⟨.seq, Nat.le_refl 4⟩
    | false =>
      simp only [stepThread, Fetch.step, and_self, if_true] at stepped
      cases stepped
      exact ⟨.read full, .of_lt (Nat.lt_succ_self _)⟩
  | read full => cases stepped; exact ⟨.commit full, .of_lt (Nat.lt_succ_self _)⟩
  | commit full => cases stepped; exact ⟨.fetched full, .of_lt (Nat.lt_succ_self _)⟩
  | fetched full => cases stepped
  | empty free => cases stepped

theorem Posting.live {val : α} (posting : Posting queue val s) (going : answer s.2 = none) :
    (stepThread s spurious).isSome := by
  cases posting with
  | posted free => cases going
  | full taken => cases going
  | _ => simp only [stepThread, Post.step]; repeat' split
         all_goals rfl

theorem Fetching.live (fetching : Fetching queue s) (going : answer s.2 = none) : (stepThread s spurious).isSome := by
  cases fetching with
  | fetched full => cases going
  | empty free => cases going
  | _ => simp only [stepThread, Fetch.step]; repeat' split
         all_goals rfl

/-- What a step keeps, every attempt keeps, and it comes nearer to its end. -/
theorem attempt_keeps {call : Call α} {I : Thread α → Prop} (initial : I (queue, begin call))
    (kept : ∀ s t spurious, I s → stepThread s spurious = some t → I t ∧ Nearer spurious s t) {flags : List Bool}
    (attempt : Attempt queue call flags s) :
    I s ∧ weight s.2 + flags.count false ≤ weight (begin call) + flags.count true := by
  refine attempt.invariant_history (I := fun flags s =>
    I s ∧ weight s.2 + flags.count false ≤ weight (begin call) + flags.count true) ?_ ⟨initial, Nat.le_refl _⟩
  intro flags s spurious t before _ stepped
  obtain ⟨holds, nearer⟩ := kept s t spurious before.1 stepped
  refine ⟨holds, ?_⟩
  have bounded := before.2
  unfold Nearer at nearer
  cases spurious <;> simp at nearer ⊢ <;> omega

/-- A call that is never stuck and takes few steps returns. -/
theorem ends_of_prompt {call : Call α}
    (prompt : ∀ flags s, Attempt queue call flags s →
      flags.count false ≤ 5 + flags.count true ∧ (answer s.2 = none → ∀ spurious, (stepThread s spurious).isSome)) :
    ∃ result queue', Ends queue call result queue' := by
  have going : ∀ n, (∃ result queue', Ends queue call result queue') ∨ ∃ s, Attempt queue call (List.replicate n false) s := by
    intro n
    induction n with
    | zero => exact .inr ⟨_, .nil⟩
    | succ n inductionHypothesis =>
      cases inductionHypothesis with
      | inl ended => exact .inl ended
      | inr started =>
        obtain ⟨s, attempt⟩ := started
        cases answered : answer s.2 with
        | some result => exact .inl ⟨result, s.1, _, s.2, attempt, answered⟩
        | none =>
          obtain ⟨t, stepped⟩ := Option.isSome_iff_exists.mp ((prompt _ _ attempt).2 answered false)
          rw [List.replicate_succ']
          exact .inr ⟨t, .snoc attempt trivial stepped⟩
  cases going 6 with
  | inl ended => exact ended
  | inr started =>
    obtain ⟨s, attempt⟩ := started
    exact absurd (prompt _ _ attempt).1 (by decide)

section Post

variable {val : α} (le : (queue.elem queue.wpos).seq ≤ queue.wpos)

include le

theorem post_keeps {flags : List Bool} (attempt : Attempt queue (.post val) flags s) :
    Posting queue val s ∧ weight s.2 + flags.count false ≤ 5 + flags.count true :=
  attempt_keeps (.load : Posting queue val _) (fun _ _ _ posting stepped => posting.step le stepped) attempt

theorem post_prompt (flags : List Bool) (s : Thread α) (attempt : Attempt queue (.post val) flags s) :
    flags.count false ≤ 5 + flags.count true ∧ (answer s.2 = none → ∀ spurious, (stepThread s spurious).isSome) := by
  obtain ⟨posting, bounded⟩ := post_keeps le attempt
  exact ⟨by omega, fun going spurious => posting.live going⟩

/-- A call of `post` that returns has posted its value, or has found its element taken. -/
theorem post_ends {result : Answer α} {queue' : MemQueue α} (ends : Ends queue (.post val) result queue') :
    ((queue.elem queue.wpos).seq = queue.wpos ∧ result = .posted true ∧ queue' = queue.posted val) ∨
      ((queue.elem queue.wpos).seq < queue.wpos ∧ result = .posted false ∧ queue' = queue) := by
  obtain ⟨flags, thread, attempt, answered⟩ := ends
  cases (post_keeps le attempt).1 with
  | posted free => exact .inl ⟨free, (Option.some.inj answered).symm, rfl⟩
  | full taken => exact .inr ⟨taken, (Option.some.inj answered).symm, rfl⟩
  | _ => cases answered

end Post

section Pop

variable (le : (queue.elem queue.rpos).seq ≤ queue.rpos + 1)

include le

theorem pop_keeps {flags : List Bool} (attempt : Attempt queue .pop flags s) :
    Fetching queue s ∧ weight s.2 + flags.count false ≤ 5 + flags.count true :=
  attempt_keeps (.load : Fetching queue _) (fun _ _ _ fetching stepped => fetching.step le stepped) attempt

theorem pop_prompt (flags : List Bool) (s : Thread α) (attempt : Attempt queue .pop flags s) :
    flags.count false ≤ 5 + flags.count true ∧ (answer s.2 = none → ∀ spurious, (stepThread s spurious).isSome) := by
  obtain ⟨fetching, bounded⟩ := pop_keeps le attempt
  exact ⟨by omega, fun going spurious => fetching.live going⟩

/-- A call of `pop` that returns has fetched the value at the read position, or has found no value there. -/
theorem pop_ends {result : Answer α} {queue' : MemQueue α} (ends : Ends queue .pop result queue') :
    ((queue.elem queue.rpos).seq = queue.rpos + 1 ∧ result = .popped (some (queue.elem queue.rpos).val) ∧
        queue' = queue.fetched) ∨
      ((queue.elem queue.rpos).seq < queue.rpos + 1 ∧ result = .popped none ∧ queue' = queue) := by
  obtain ⟨flags, thread, attempt, answered⟩ := ends
  cases (pop_keeps le attempt).1 with
  | fetched full => exact .inl ⟨full, (Option.some.inj answered).symm, rfl⟩
  | empty free => exact .inr ⟨free, (Option.some.inj answered).symm, rfl⟩
  | _ => cases answered

end Pop

/-! ## A queue between two calls -/

/-- The queue holds the values, oldest first. -/
structure Holding (queue : MemQueue α) (vals : List α) : Prop where
  ring : Ring queue (fun (_ : Unit) _ => False) (fun (_ : Unit) _ => False)
  length : queue.wpos = queue.rpos + vals.length
  vals : ∀ i v, vals[i]? = some v → (queue.elem (queue.rpos + i)).val = v

namespace Holding

variable {vals : List α} {val : α} (holding : Holding queue vals)

include holding

theorem length_le : vals.length ≤ queue.capacity := by
  have bounded := holding.ring.bounded
  have length := holding.length
  omega

/-- The element at the write position. -/
theorem write_seq : (queue.elem queue.wpos).seq = if vals.length < queue.capacity then queue.wpos else queue.rpos + 1 := by
  have ring := holding.ring
  have length := holding.length
  have roomy := ring.roomy
  have bounded := ring.bounded
  split
  next room =>
    cases ring.free queue.wpos (Nat.le_refl _) (by omega) with
    | inl reader => obtain ⟨_, _, held, _⟩ := reader; exact held.elim
    | inr free => exact free
  -- The write position has come round to the oldest value.
  next filled =>
    have wrapped : queue.wpos = queue.rpos + queue.capacity := by omega
    rw [wrapped, ring.elem_add]
    cases ring.full queue.rpos (Nat.le_refl _) (by omega) with
    | inl writer => obtain ⟨_, held⟩ := writer; exact held.elim
    | inr full => exact full

/-- The element at the read position. -/
theorem read_seq : (queue.elem queue.rpos).seq = if vals = [] then queue.rpos else queue.rpos + 1 := by
  have ring := holding.ring
  have length := holding.length
  have roomy := ring.roomy
  split
  next empty =>
    rw [empty, List.length_nil] at length
    cases ring.free queue.rpos (by omega) (by omega) with
    | inl reader => obtain ⟨_, _, held, _⟩ := reader; exact held.elim
    | inr free => exact free
  next some =>
    have positive := List.length_pos_iff.mpr some
    cases ring.full queue.rpos (Nat.le_refl _) (by omega) with
    | inl writer => obtain ⟨_, held⟩ := writer; exact held.elim
    | inr full => exact full

theorem posted (room : vals.length < queue.capacity) : Holding (queue.posted val) (vals ++ [val]) := by
  have ring := holding.ring
  have length := holding.length
  have roomy := ring.roomy
  have free := holding.write_seq
  rw [if_pos room] at free
  -- The thread claims the position, writes, and gives the position up.
  have claimed : Ring { queue with wpos := queue.wpos + 1 } (fun (_ : Unit) p => p = queue.wpos) (fun (_ : Unit) _ => False) :=
    ring.claim (i := ()) free fun _ p => by simp
  have written : Ring ({ queue with wpos := queue.wpos + 1 }.setVal queue.wpos val) (fun (_ : Unit) p => p = queue.wpos)
      (fun (_ : Unit) _ => False) :=
    claimed.congr rfl rfl rfl (fun p => seq_setVal _ _ _ _) (fun _ _ => Iff.rfl) (fun _ _ => Iff.rfl)
  refine ⟨written.publish (i := ()) rfl fun _ p => by simp, ?_, ?_⟩
  · show queue.wpos + 1 = queue.rpos + (vals ++ [val]).length
    rw [List.length_append, length]
    rfl
  · intro i v at_i
    show ((queue.posted val).elem (queue.rpos + i)).val = v
    rw [MemQueue.posted, val_setSeq]
    cases Nat.lt_or_ge i vals.length with
    | inl old =>
      rw [List.getElem?_append_left old] at at_i
      rw [claimed.val_setVal _ (by show _ < queue.wpos + queue.capacity; omega) (by show _ < _ + queue.capacity; omega) (by omega)]
      exact holding.vals i v at_i
    | inr new =>
      rw [List.getElem?_append_right new] at at_i
      obtain ⟨rfl, rfl⟩ : i = vals.length ∧ val = v := by
        cases later : i - vals.length with
        | zero => rw [later] at at_i; exact ⟨by omega, by simpa using at_i⟩
        | succ j => rw [later] at at_i; simp at at_i
      rw [← length, elem_setVal, if_pos rfl]

theorem fetched {v : α} {vs : List α} (some : vals = v :: vs) : Holding queue.fetched vs := by
  have ring := holding.ring
  have length := holding.length
  have roomy := ring.roomy
  have bounded := ring.bounded
  have full := holding.read_seq
  rw [if_neg (by simp [some])] at full
  have taken : Ring { queue with rpos := queue.rpos + 1 } (fun (_ : Unit) _ => False) (fun (_ : Unit) p => p = queue.rpos) :=
    ring.take (c := ()) full fun _ p => by simp
  -- The element is free again for the position one round later.
  refine ⟨taken.release (c := ()) rfl fun _ p => by simp, ?_, ?_⟩
  · show queue.wpos = queue.rpos + 1 + vs.length
    rw [length, some, List.length_cons]
    omega
  · intro i w at_i
    show (queue.fetched.elem (queue.rpos + 1 + i)).val = w
    rw [MemQueue.fetched, val_setSeq, Nat.add_assoc, Nat.add_comm 1]
    exact holding.vals (i + 1) w (by rw [some]; exact at_i)

theorem write_le : (queue.elem queue.wpos).seq ≤ queue.wpos := by
  have length := holding.length
  have roomy := holding.ring.roomy
  rw [holding.write_seq]
  split <;> omega

theorem read_le : (queue.elem queue.rpos).seq ≤ queue.rpos + 1 := by
  rw [holding.read_seq]
  split <;> omega

theorem prompt {call : Call α} (flags : List Bool) (s : Thread α) (attempt : Attempt queue call flags s) :
    flags.count false ≤ 5 + flags.count true ∧ (answer s.2 = none → ∀ spurious, (stepThread s spurious).isSome) := by
  cases call with
  | post val => exact post_prompt holding.write_le flags s attempt
  | pop => exact pop_prompt holding.read_le flags s attempt

/-- A call that returns has done what the list does. -/
theorem ends {call : Call α} {result : Answer α} {queue' : MemQueue α} (ends : Ends queue call result queue') :
    result = (fifo queue.capacity vals call).1 ∧ Holding queue' (fifo queue.capacity vals call).2 ∧
      queue'.capacity = queue.capacity := by
  have roomy := holding.ring.roomy
  have length := holding.length
  cases call with
  | post val =>
    have seq := holding.write_seq
    cases post_ends holding.write_le ends with
    | inl done =>
      obtain ⟨free, rfl, rfl⟩ := done
      have room : vals.length < queue.capacity := by
        by_contra filled
        rw [if_neg filled] at seq
        omega
      simp only [fifo, room, if_true]
      exact ⟨trivial, holding.posted room, rfl⟩
    | inr done =>
      obtain ⟨taken, rfl, rfl⟩ := done
      have filled : ¬ vals.length < queue'.capacity := fun room => by
        rw [if_pos room] at seq
        omega
      simp only [fifo, filled, if_false]
      exact ⟨trivial, holding, trivial⟩
  | pop =>
    have seq := holding.read_seq
    cases pop_ends holding.read_le ends with
    | inl done =>
      obtain ⟨full, rfl, rfl⟩ := done
      cases held : vals with
      | nil => rw [if_pos held] at seq; omega
      | cons v vs =>
        have oldest := holding.vals 0 v (by rw [held]; rfl)
        exact ⟨congrArg (fun val => Answer.popped (some val)) oldest, holding.fetched held, rfl⟩
    | inr done =>
      obtain ⟨free, rfl, rfl⟩ := done
      cases held : vals with
      | nil =>
        rw [held] at holding
        exact ⟨rfl, holding, rfl⟩
      | cons v vs => rw [if_neg (by simp [held])] at seq; omega

end Holding

theorem holding_ofSize (k : Nat) (large : 1 ≤ k) (zero : α) : (ofSize (2 ^ k) (2 ^ k) zero).Holding [] where
  ring := .ofSize k zero large
  length := rfl
  vals := fun i v at_i => by cases at_i

theorem replay_snoc (bound : Nat) (calls : List (Call α)) (call : Call α) :
    replay bound (calls ++ [call]) = ((replay bound calls).1 ++ [(fifo bound (replay bound calls).2 call).1],
      (fifo bound (replay bound calls).2 call).2) := by
  rw [replay, List.foldl_append]
  rfl

/-- One call after the other. -/
theorem Holding.calls (holding : Holding queue []) {calls : List (Call α)} {results : List (Answer α)} {queue' : MemQueue α}
    (made : Calls queue calls results queue') :
    results = (replay queue.capacity calls).1 ∧ Holding queue' (replay queue.capacity calls).2 ∧
      queue'.capacity = queue.capacity := by
  induction made with
  | nil => exact ⟨rfl, holding, rfl⟩
  | snoc before ends inductionHypothesis =>
    obtain ⟨answers, held, capacity⟩ := inductionHypothesis
    obtain ⟨result, next, kept⟩ := held.ends ends
    rw [capacity] at result next
    rw [replay_snoc, ← answers, ← result]
    exact ⟨rfl, next, kept.trans capacity⟩

theorem Holding.fifo (holding : Holding queue []) : Fifo queue queue.capacity where
  answers calls results queue' made := by
    obtain ⟨answers, held, capacity⟩ := holding.calls made
    have size : queue'.size = (replay queue.capacity calls).2.length := by
      have length := held.length
      rw [MemQueue.size]
      omega
    exact ⟨answers, size, by rw [reserve, size, capacity]⟩
  returns calls results queue' call made := ends_of_prompt (holding.calls made).2.1.prompt
  prompt calls results queue' call flags s made attempt := (holding.calls made).2.1.prompt flags s attempt

/-! ## Capacities that are no power of two -/

/-- The queue after some posts, when it was asked for fewer elements than it has: only these have a number. -/
structure Numbered (asked : Nat) (posts : Nat) (queue : MemQueue α) : Prop where
  short : asked < queue.capacity
  /-- The positions of the first round have elements of their own. -/
  own : ∀ p < asked, p &&& queue.mask = p
  /-- The next position has an element that was not numbered, or the first one again. -/
  next : asked &&& queue.mask = asked ∨ asked &&& queue.mask = 0
  rpos : queue.rpos = 0
  wpos : queue.wpos = posts
  seq : ∀ i, (queue.elems i).seq = if i < posts then i + 1 else if i < asked then i else 0

namespace Numbered

variable {asked posts : Nat} (numbered : Numbered asked posts queue)

include numbered

theorem free (room : posts < asked) : (queue.elem queue.wpos).seq = queue.wpos := by
  rw [elem, numbered.wpos, numbered.own posts room, numbered.seq]
  simp [room]

theorem taken (large : 2 ≤ asked) (last : posts = asked) : (queue.elem queue.wpos).seq < queue.wpos := by
  rw [elem, numbered.wpos, last, numbered.seq, last]
  cases numbered.next with
  -- An element that was not numbered has the number zero.
  | inl beyond => simp [beyond]; omega
  -- The first element was taken by the first post.
  | inr first => rw [first, if_pos (by omega)]; omega

theorem posted (room : posts < asked) (val : α) : Numbered asked (posts + 1) (queue.posted val) := by
  have seq (i : Nat) : ((queue.posted val).elems i).seq = if i = posts then posts + 1 else (queue.elems i).seq := by
    simp only [MemQueue.posted, setSeq, setVal, mask, Function.update_apply, elem, numbered.wpos]
    rw [← mask, numbered.own posts room]
    by_cases here : i = posts <;> simp [here]
  exact
    { short := numbered.short
      own := numbered.own
      next := numbered.next
      rpos := numbered.rpos
      wpos := congrArg (· + 1) numbered.wpos
      seq := fun i => by
        rw [seq, numbered.seq]
        split_ifs <;> omega }

/-- A post that returns has found the element free until all that have a number are taken. -/
theorem post_ends (large : 2 ≤ asked) (within : posts ≤ asked) {val : α} {result : Answer α} {queue' : MemQueue α}
    (ends : Ends queue (.post val) result queue') :
    (posts < asked ∧ result = .posted true ∧ queue' = queue.posted val) ∨
      (posts = asked ∧ result = .posted false ∧ queue' = queue) := by
  cases Nat.lt_or_eq_of_le within with
  | inl room =>
    have free := numbered.free room
    cases MemQueue.post_ends free.le ends with
    | inl done => exact .inl ⟨room, done.2⟩
    | inr done => exact absurd free done.1.ne
  | inr last =>
    have taken := numbered.taken large last
    cases MemQueue.post_ends taken.le ends with
    | inl done => exact absurd done.1 taken.ne
    | inr done => exact .inr ⟨last, done.2⟩

theorem post_returns (large : 2 ≤ asked) (within : posts ≤ asked) (val : α) :
    ∃ result queue', Ends queue (.post val) result queue' := by
  apply ends_of_prompt
  cases Nat.lt_or_eq_of_le within with
  | inl room => exact post_prompt (numbered.free room).le
  | inr last => exact post_prompt (numbered.taken large last).le

end Numbered

/-- As many posts as the constructor was asked for. -/
theorem Numbered.calls {asked : Nat} {start : MemQueue α} (numbered : Numbered asked 0 start) (large : 2 ≤ asked) (val : α)
    {posts : Nat} (enough : posts ≤ asked) :
    ∃ queue, Calls start (List.replicate posts (.post val)) (List.replicate posts (.posted true)) queue ∧
      Numbered asked posts queue := by
  induction posts with
  | zero => exact ⟨_, .nil, numbered⟩
  | succ posts inductionHypothesis =>
    obtain ⟨queue, made, numbered⟩ := inductionHypothesis (by omega)
    obtain ⟨result, queue', ends⟩ := numbered.post_returns large (by omega) val
    cases numbered.post_ends large (by omega) ends with
    | inl done =>
      obtain ⟨room, rfl, rfl⟩ := done
      rw [List.replicate_succ', List.replicate_succ']
      exact ⟨_, .snoc made ends, numbered.posted room val⟩
    | inr done => exact absurd done.1 (by omega)

/-- The next post is refused, although there are unused elements. -/
theorem Numbered.refused {asked : Nat} {start : MemQueue α} (numbered : Numbered asked 0 start) (large : 2 ≤ asked) (val : α) :
    ∃ queue, Calls start (List.replicate (asked + 1) (.post val))
        (List.replicate asked (.posted true) ++ [.posted false]) queue ∧ 0 < queue.reserve := by
  obtain ⟨queue, made, full⟩ := numbered.calls large val (Nat.le_refl asked)
  obtain ⟨result, queue', ends⟩ := full.post_returns large (Nat.le_refl _) val
  cases full.post_ends large (Nat.le_refl _) ends with
  | inl done => exact absurd done.1 (Nat.lt_irrefl _)
  | inr done =>
    obtain ⟨-, rfl, rfl⟩ := done
    refine ⟨queue', ?_, ?_⟩
    · rw [List.replicate_succ']
      exact .snoc made ends
    · have short := full.short
      rw [reserve, size, full.rpos, full.wpos]
      omega

theorem replay_posts {bound posts : Nat} (room : posts ≤ bound) (val : α) :
    replay bound (List.replicate posts (.post val)) = (List.replicate posts (.posted true), List.replicate posts val) := by
  induction posts with
  | zero => rfl
  | succ posts inductionHypothesis =>
    rw [List.replicate_succ', replay_snoc, inductionHypothesis (by omega)]
    simp only [fifo, List.length_replicate, show posts < bound by omega, if_true, List.replicate_succ']

theorem Numbered.not_fifo {asked : Nat} (numbered : Numbered asked 0 queue) (large : 2 ≤ asked) (val : α) :
    ¬ Fifo queue queue.capacity := by
  intro bounded
  obtain ⟨queue', made, -⟩ := numbered.refused large val
  have answers := (bounded.answers _ _ _ made).1
  rw [replay_posts numbered.short, List.replicate_succ'] at answers
  simp at answers

/-! ## The constructor -/

section Make

variable {asked : UInt64} {zero : α}

theorem make_eq {p : UInt64} (power : MemCtx.nextPow2 asked = some p) :
    make asked zero = some (ofSize p.toNat asked.toNat zero) := by
  rw [make, ring, RingSize.make, power]
  rfl

/-- Asked for a power of two, it makes as many elements and numbers them all. -/
theorem make_two_pow {k : Nat} (small : k ≤ 30) (power : asked.toNat = 2 ^ k) :
    MemCtx.nextPow2 asked = some asked ∧ make asked zero = some (ofSize (2 ^ k) (2 ^ k) zero) := by
  obtain ⟨p, rounded, least⟩ := MemCtx.nextPow2_least (n := asked) (by rw [power]; exact Nat.one_le_two_pow)
    (by rw [power]; exact Nat.pow_le_pow_right (by decide) small)
  have same : p = asked := by
    apply UInt64.toNat_inj.mp
    exact le_antisymm (least.2 ⟨le_rfl, k, power⟩) least.1.1
  rw [same] at rounded
  exact ⟨rounded, by rw [make_eq rounded, power]⟩

theorem one_le_exponent {k : Nat} (large : 2 ≤ asked.toNat) (power : asked.toNat = 2 ^ k) : 1 ≤ k := by
  by_contra none_
  obtain rfl : k = 0 := by omega
  omega

theorem numbered_ofSize {capacity asked : Nat} (short : asked < capacity) (own : ∀ p < asked, p &&& (capacity - 1) = p)
    (next : asked &&& (capacity - 1) = asked ∨ asked &&& (capacity - 1) = 0) (zero : α) :
    Numbered asked 0 (ofSize capacity asked zero) where
  short := short
  own := own
  next := next
  rpos := rfl
  wpos := rfl
  seq i := by simp [ofSize]

/-- The mask of the negative `int` takes the bit away that the positions reach after `2 ^ 31`. -/
theorem and_extended {p : Nat} (below : p < 2 ^ 31) : p &&& ((0xffffffff80000000 : UInt64).toNat - 1) = p := by
  obtain ⟨mask, named⟩ : ∃ mask, mask = (0xffffffff80000000 : UInt64).toNat - 1 := ⟨_, rfl⟩
  have low : mask % 2 ^ 31 = 2 ^ 31 - 1 := by
    rw [named]
    decide +kernel
  rw [← named]
  have le : p &&& mask ≤ p := Nat.and_le_left
  have kept : (p &&& mask) % 2 ^ 31 = p := by
    rw [Nat.and_mod_two_pow, low, Nat.and_two_pow_sub_one_eq_mod, Nat.mod_mod, Nat.mod_eq_of_lt below]
  rwa [Nat.mod_eq_of_lt (by omega)] at kept

/-- Asked for anything else, it makes more elements than it numbers. -/
theorem make_other (large : 2 ≤ asked.toNat) (other : ¬ ∃ k ≤ 30, asked.toNat = 2 ^ k) {p : UInt64}
    (rounded : MemCtx.nextPow2 asked = some p) : Numbered asked.toNat 0 (ofSize p.toNat asked.toNat zero) := by
  by_cases bounded : asked.toNat ≤ 2 ^ 30
  · obtain ⟨q, again, least⟩ := MemCtx.nextPow2_least (by omega) bounded
    cases again.symm.trans rounded
    obtain ⟨⟨enough, k, power⟩, -⟩ := id least
    have small : k ≤ 30 := by
      have le := least.2 ⟨bounded, 30, rfl⟩
      rw [power] at le
      exact (Nat.pow_le_pow_iff_right (by decide)).mp le
    have short : asked.toNat < p.toNat := lt_of_le_of_ne enough fun same => other ⟨k, small, same.trans power⟩
    have own (i : Nat) (inside : i ≤ asked.toNat) : i &&& (p.toNat - 1) = i := by
      rw [power] at short ⊢
      rw [Nat.and_two_pow_sub_one_eq_mod, Nat.mod_eq_of_lt (by omega)]
    exact numbered_ofSize short (fun i inside => own i inside.le) (.inl (own _ le_rfl)) zero
  · -- The shift by 31 gives a capacity with the sign extended.
    obtain ⟨within, extended⟩ | undefined := MemCtx.nextPow2_beyond (not_le.mp bounded)
    · cases extended.symm.trans rounded
      have value : (0xffffffff80000000 : UInt64).toNat = 2 ^ 64 - 2 ^ 31 := by decide +kernel
      refine numbered_ofSize (by rw [value]; omega) (fun i inside => and_extended (by omega)) ?_ zero
      cases Nat.lt_or_eq_of_le within with
      | inl below => exact .inl (and_extended below)
      | inr last =>
        rw [last]
        exact .inr (by decide +kernel)
    · cases undefined.symm.trans rounded

end Make

/-- The queue is bounded by the capacity that it was rounded up to, and first in first out, exactly for the powers of two
up to `2 ^ 30`. -/
theorem fifo_iff (asked : UInt64) (large : 2 ≤ asked.toNat) (zero : α) :
    (∃ bound queue, MemCtx.nextPow2 asked = some bound ∧ make asked zero = some queue ∧ Fifo queue bound.toNat) ↔
      ∃ k ≤ 30, asked.toNat = 2 ^ k := by
  constructor
  · rintro ⟨bound, queue, rounded, made, bounded⟩
    by_contra other
    cases made.symm.trans (make_eq rounded)
    exact (make_other large other rounded).not_fifo large zero bounded
  · rintro ⟨k, small, power⟩
    obtain ⟨rounded, made⟩ : MemCtx.nextPow2 asked = some asked ∧ make asked zero = some (ofSize (2 ^ k) (2 ^ k) zero) :=
      make_two_pow small power
    refine ⟨asked, _, rounded, made, ?_⟩
    rw [power]
    exact (holding_ofSize k (one_le_exponent large power) zero).fifo

/-- A queue of four elements. -/
theorem fifo_iff_four : ∃ bound queue, MemCtx.nextPow2 4 = some bound ∧ make 4 'x' = some queue ∧ Fifo queue bound.toNat :=
  (fifo_iff 4 (by decide +kernel) 'x').mpr ⟨2, by decide, by decide +kernel⟩

/-- A queue that is asked for three elements has room for a fourth value and does not take it. -/
theorem fourth_refused : ∃ queue, MemCtx.nextPow2 3 = some 4 ∧ make 3 'x' = some queue ∧
    (∃ queue', Calls queue [.post 'x', .post 'x', .post 'x', .post 'x']
        [.posted true, .posted true, .posted true, .posted false] queue' ∧ 0 < queue'.reserve) ∧
      ¬ Fifo queue 4 := by
  have rounded : MemCtx.nextPow2 3 = some 4 := by decide +kernel
  have numbered : Numbered 3 0 (ofSize 4 3 'x') :=
    numbered_ofSize (by decide) (by decide) (by decide) 'x'
  obtain ⟨queue', made, unused⟩ := numbered.refused (by decide) 'x'
  exact ⟨_, rounded, make_eq rounded, ⟨queue', made, unused⟩, numbered.not_fifo (by decide) 'x'⟩

end MemQueue

end Swirly
