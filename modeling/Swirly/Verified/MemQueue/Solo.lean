import Swirly.Verified.MemQueue.Fifo

/-!
# One producer and one consumer

Alone at its end of the queue, a thread always has the position that the queue has.  A queue of one element is not a ring
for any number of threads, but here it still has its positions in order.
-/

universe u

namespace Swirly

namespace Exchange

variable {α : Type u}

/-- The positions of the two threads are those of the queue. -/
structure Solo (x : Exchange Unit Unit α) : Prop where
  postSeq : ∀ val w, x.producers () = .seq val w → w = x.queue.wpos
  postClaim : ∀ val w, x.producers () = .claim val w → w = x.queue.wpos
  posting : ∀ w, (x.producers ()).Holds w → w + 1 = x.queue.wpos
  fetchSeq : ∀ r, x.consumers () = .seq r → r = x.queue.rpos
  fetchClaim : ∀ r, x.consumers () = .claim r → r = x.queue.rpos
  fetching : ∀ r, (x.consumers ()).Holds r → r + 1 = x.queue.rpos

/-- The queue has one element. -/
structure Tiny (x : Exchange Unit Unit α) : Prop where
  capacity : x.queue.capacity = 1
  ordered : x.queue.rpos ≤ x.queue.wpos
  seq : ∀ p, (x.queue.elem p).seq ≤ x.queue.wpos
  fetchClaim : ∀ r, x.consumers () = .claim r → r < x.queue.wpos

variable {x y : Exchange Unit Unit α}

theorem solo_make (capacity : Nat) (zero : α) : (make capacity zero : Exchange Unit Unit α).Solo := by
  constructor <;> simp [make, MemQueue.ofSize, Post.Holds, Fetch.Holds]

theorem tiny_make (zero : α) : (make 1 zero : Exchange Unit Unit α).Tiny := by
  constructor
  case capacity => rfl
  case ordered => exact Nat.le_refl 0
  case seq =>
    intro p
    show (if p &&& 0 < 1 then p &&& 0 else 0) ≤ 0
    simp
  case fetchClaim => exact fun _ at_ => by cases at_

theorem Solo.step (solo : x.Solo) (steps : Steps x y) : y.Solo := by
  cases steps with
  | post resting =>
    exact { solo with
      postSeq := by simp
      postClaim := by simp
      posting := by simp [Post.Holds] }
  | @produce i queue' post' steps =>
    generalize now : x.producers i = post at steps
    obtain ⟨postSeq, postClaim, posting, fetchSeq, fetchClaim, fetching⟩ := solo
    cases steps with
    | room seen => exact ⟨by simp, by simpa using postSeq _ _ now, by simp [Post.Holds], fetchSeq, fetchClaim, fetching⟩
    | wrote =>
      refine ⟨by simp, by simp, ?_, fetchSeq, fetchClaim, fetching⟩
      simpa [now, Post.Holds] using posting
    | _ => exact ⟨by simp, by simp, by simp [Post.Holds], fetchSeq, fetchClaim, fetching⟩
  | fetch resting =>
    exact { solo with
      fetchSeq := by simp
      fetchClaim := by simp
      fetching := by simp [Fetch.Holds] }
  | @consume c queue' fetch' steps =>
    generalize now : x.consumers c = fetch at steps
    obtain ⟨postSeq, postClaim, posting, fetchSeq, fetchClaim, fetching⟩ := solo
    cases steps with
    | ready seen => exact ⟨postSeq, postClaim, posting, by simp, by simpa using fetchSeq _ now, by simp [Fetch.Holds]⟩
    | got =>
      refine ⟨postSeq, postClaim, posting, by simp, by simp, ?_⟩
      simpa [now, Fetch.Holds] using fetching
    | _ => exact ⟨postSeq, postClaim, posting, by simp, by simp, by simp [Fetch.Holds]⟩

theorem Tiny.slot (tiny : x.Tiny) (p : Nat) : p &&& x.queue.mask = 0 := by
  rw [MemQueue.mask, tiny.capacity, Nat.sub_self, Nat.and_zero]

theorem Tiny.step (tiny : x.Tiny) (solo : x.Solo) (steps : Steps x y) : y.Tiny := by
  have slot := tiny.slot
  obtain ⟨capacity, ordered, seq, fetchClaim⟩ := tiny
  cases steps with
  | post resting => exact ⟨capacity, ordered, seq, fetchClaim⟩
  | @produce i queue' post' steps =>
    generalize now : x.producers i = post at steps
    cases steps with
    | claimed =>
      exact ⟨capacity, Nat.le_succ_of_le ordered, fun p => Nat.le_succ_of_le (seq p),
        fun r at_ => Nat.lt_succ_of_lt (fetchClaim r at_)⟩
    | wrote => exact ⟨capacity, ordered, fun p => (x.queue.seq_setVal _ p _).trans_le (seq p), fetchClaim⟩
    | @committed val wpos =>
      have position := solo.posting wpos (by simp [show x.producers () = _ from now, Post.Holds])
      refine ⟨capacity, ordered, ?_, fetchClaim⟩
      intro p
      rw [MemQueue.elem_setSeq, slot, slot, if_pos rfl]
      exact Nat.le_of_eq position
    | _ => exact ⟨capacity, ordered, seq, fetchClaim⟩
  | fetch resting => exact ⟨capacity, ordered, seq, by simp⟩
  | @consume c queue' fetch' steps =>
    generalize now : x.consumers c = fetch at steps
    cases steps with
    | @ready rpos seen =>
      refine ⟨capacity, ordered, seq, ?_⟩
      intro r at_
      obtain rfl : rpos = r := by simpa using at_
      have written := seq rpos
      show rpos < x.queue.wpos
      omega
    | claimed => exact ⟨capacity, fetchClaim _ now, seq, by simp⟩
    | @committed val rpos =>
      have position := solo.fetching rpos (by simp [show x.consumers () = _ from now, Fetch.Holds])
      refine ⟨capacity, ordered, ?_, by simp⟩
      intro p
      rw [MemQueue.elem_setSeq, slot, slot, if_pos rfl]
      show rpos + x.queue.capacity ≤ x.queue.wpos
      omega
    | _ => exact ⟨capacity, ordered, seq, by simp⟩

/-- What holds of a queue of any capacity between two threads. -/
def Fits (x : Exchange Unit Unit α) : Prop := x.Solo ∧ (x.Inv ∨ x.Tiny)

theorem fits_make (k : Nat) (zero : α) : (make (2 ^ k) zero : Exchange Unit Unit α).Fits := by
  refine ⟨solo_make _ _, ?_⟩
  cases k with
  | zero => exact Or.inr (tiny_make zero)
  | succ k => exact Or.inl (inv_make _ _ (Nat.succ_pos k))

theorem Fits.step (fits : x.Fits) {event : Event Unit Unit α} (stepped : x.step event = some y) : y.Fits := by
  have steps := step_cases stepped
  refine ⟨fits.1.step steps, ?_⟩
  cases fits.2 with
  | inl inv => exact Or.inl (inv.step steps)
  | inr tiny => exact Or.inr (tiny.step fits.1 steps)

namespace Fits

variable (fits : x.Fits)

include fits

theorem ordered : x.queue.rpos ≤ x.queue.wpos := by
  cases fits.2 with
  | inl inv => exact inv.ring.ordered
  | inr tiny => exact tiny.ordered

/-- The producer never finds its position taken. -/
theorem seq_le : (x.queue.elem x.queue.wpos).seq ≤ x.queue.wpos := by
  cases fits.2 with
  | inl inv =>
    have ring := inv.ring
    have roomy := ring.roomy
    have bounded := ring.bounded
    rcases Nat.lt_or_ge x.queue.wpos (x.queue.rpos + x.queue.capacity) with inside | filled
    next =>
      rcases ring.free _ (Nat.le_refl _) inside with ⟨c, r, held, wrapped⟩ | free
      next =>
        have own := (ring.reading c r held).2.2
        rw [wrapped, ring.elem_add]
        omega
      next => exact Nat.le_of_eq free
    next =>
      have wrapped : x.queue.wpos = x.queue.rpos + x.queue.capacity := by omega
      rw [wrapped, ring.elem_add]
      rcases ring.full x.queue.rpos (Nat.le_refl _) (by omega) with ⟨i, held⟩ | full
      next =>
        have own := (ring.writing i _ held).2.2
        omega
      next => omega
  | inr tiny => exact tiny.seq _

/-- A queue of several elements is a ring. -/
theorem inv (large : 2 ≤ x.queue.capacity) : x.Inv := by
  cases fits.2 with
  | inl inv => exact inv
  | inr tiny =>
    have one := tiny.capacity
    omega

end Fits

/-- The consumer has gone on from `s` to `t`. -/
structure Ahead (s t : Exchange Unit Unit α) : Prop where
  capacity : t.queue.capacity = s.queue.capacity
  rpos : s.queue.rpos ≤ t.queue.rpos
  older : ∀ r, (t.consumers ()).Holds r → r < s.queue.rpos → (s.consumers ()).Holds r

/-- The producer has not moved. -/
structure Aside (x y : Exchange Unit Unit α) : Prop where
  ahead : Ahead x y
  producers : y.producers = x.producers
  wpos : y.queue.wpos = x.queue.wpos
  written : y.history.written = x.history.written

theorem Ahead.refl (x : Exchange Unit Unit α) : Ahead x x := ⟨rfl, Nat.le_refl _, fun _ held _ => held⟩

theorem Ahead.trans {x y z : Exchange Unit Unit α} (first : Ahead x y) (second : Ahead y z) : Ahead x z :=
  ⟨second.capacity.trans first.capacity, first.rpos.trans second.rpos,
    fun r held old => first.older r (second.older r held (old.trans_le first.rpos)) old⟩

theorem aside_fetch {x y : Exchange Unit Unit α} (stepped : x.step (.fetch ()) = some y) : Aside x y := by
  simp only [step] at stepped
  split at stepped
  next =>
    cases stepped
    exact ⟨⟨rfl, Nat.le_refl _, fun r held _ => by simp [Fetch.Holds] at held⟩, rfl, rfl, rfl⟩
  next => cases stepped

theorem aside_consume {x y : Exchange Unit Unit α} {spurious : Bool}
    (stepped : x.step (.consume () spurious) = some y) : Aside x y := by
  obtain ⟨⟨queue', fetch'⟩, moved, rfl⟩ := Option.map_eq_some_iff.mp stepped
  have steps := Fetch.step_cases moved
  generalize now : x.consumers () = fetch at steps
  cases steps with
  | claimed =>
    refine ⟨⟨rfl, Nat.le_succ _, ?_⟩, rfl, rfl, rfl⟩
    intro r held old
    obtain rfl : r = x.queue.rpos := by simpa [Fetch.Holds] using held
    exact absurd old (Nat.lt_irrefl _)
  | @got rpos =>
    refine ⟨⟨rfl, Nat.le_refl _, ?_⟩, rfl, rfl, rfl⟩
    intro r held _
    simpa [now, Fetch.Holds] using held
  | _ => exact ⟨⟨rfl, Nat.le_refl _, fun r held _ => by simp [Fetch.Holds] at held⟩, rfl, rfl, rfl⟩

end Exchange

end Swirly
