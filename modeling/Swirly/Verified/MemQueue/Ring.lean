import Mathlib
import Swirly.App.MemQueue

/-!
# Ownership of the elements of a ring

`Ring queue writes reads` relates the sequence numbers of the queue to its two positions and to the threads that have
claimed a position and not yet given it up.  Between the read and the write position each element is being written or is
full; in the rest of the ring each is being read or is free.  Claiming a position and giving it up keep this.
-/

universe u v w

namespace Swirly

namespace MemQueue

variable {α : Type u} (queue : MemQueue α)

@[simp] theorem setVal_rpos (pos : Nat) (val : α) : (queue.setVal pos val).rpos = queue.rpos := rfl
@[simp] theorem setVal_wpos (pos : Nat) (val : α) : (queue.setVal pos val).wpos = queue.wpos := rfl
@[simp] theorem setVal_capacity (pos : Nat) (val : α) : (queue.setVal pos val).capacity = queue.capacity := rfl
@[simp] theorem setSeq_rpos (pos seq : Nat) : (queue.setSeq pos seq).rpos = queue.rpos := rfl
@[simp] theorem setSeq_wpos (pos seq : Nat) : (queue.setSeq pos seq).wpos = queue.wpos := rfl
@[simp] theorem setSeq_capacity (pos seq : Nat) : (queue.setSeq pos seq).capacity = queue.capacity := rfl

@[simp] theorem elem_setSeq (pos pos' seq : Nat) :
    (queue.setSeq pos seq).elem pos' =
      if pos' &&& queue.mask = pos &&& queue.mask then { queue.elem pos with seq } else queue.elem pos' := by
  exact Function.update_apply queue.elems _ _ _

@[simp] theorem elem_setVal (pos pos' : Nat) (val : α) :
    (queue.setVal pos val).elem pos' =
      if pos' &&& queue.mask = pos &&& queue.mask then { queue.elem pos with val } else queue.elem pos' := by
  exact Function.update_apply queue.elems _ _ _

@[simp] theorem seq_setVal (pos pos' : Nat) (val : α) :
    ((queue.setVal pos val).elem pos').seq = (queue.elem pos').seq := by
  rw [elem_setVal]
  split
  next same => simp only [elem, same]
  next => rfl

@[simp] theorem val_setSeq (pos pos' seq : Nat) :
    ((queue.setSeq pos seq).elem pos').val = (queue.elem pos').val := by
  rw [elem_setSeq]
  split
  next same => simp only [elem, same]
  next => rfl

end MemQueue

structure Ring {α : Type u} {ι : Type v} {κ : Type w} (queue : MemQueue α) (writes : ι → Nat → Prop)
    (reads : κ → Nat → Prop) : Prop where
  masked : ∀ pos, pos &&& queue.mask = pos % queue.capacity
  roomy : 2 ≤ queue.capacity
  ordered : queue.rpos ≤ queue.wpos
  bounded : queue.wpos ≤ queue.rpos + queue.capacity
  writing : ∀ i p, writes i p → queue.rpos ≤ p ∧ p < queue.wpos ∧ (queue.elem p).seq = p
  writer : ∀ i j p, writes i p → writes j p → i = j
  reading : ∀ c p, reads c p → p < queue.rpos ∧ queue.wpos ≤ p + queue.capacity ∧ (queue.elem p).seq = p + 1
  reader : ∀ c d p, reads c p → reads d p → c = d
  full : ∀ p, queue.rpos ≤ p → p < queue.wpos → (∃ i, writes i p) ∨ (queue.elem p).seq = p + 1
  free : ∀ p, queue.wpos ≤ p → p < queue.rpos + queue.capacity →
    (∃ c r, reads c r ∧ p = r + queue.capacity) ∨ (queue.elem p).seq = p

namespace Ring

variable {α : Type u} {ι : Type v} {κ : Type w} {queue : MemQueue α} {writes writes' : ι → Nat → Prop}
  {reads reads' : κ → Nat → Prop} {i : ι} {c : κ} {p q : Nat}

theorem ofSize (k : Nat) (zero : α) (large : 1 ≤ k) :
    Ring (MemQueue.ofSize (2 ^ k) (2 ^ k) zero) (fun (_ : ι) _ => False) (fun (_ : κ) _ => False) := by
  have masked (pos : Nat) : pos &&& (MemQueue.ofSize (2 ^ k) (2 ^ k) zero).mask = pos % 2 ^ k :=
    Nat.and_two_pow_sub_one_eq_mod _ _
  exact
    { masked := masked
      roomy := Nat.le_self_pow (by omega) 2
      ordered := Nat.le_refl 0
      bounded := Nat.zero_le _
      writing := fun _ _ held => held.elim
      writer := fun _ _ _ held => held.elim
      reading := fun _ _ held => held.elim
      reader := fun _ _ _ held => held.elim
      full := fun p _ below => absurd below (Nat.not_lt_zero p)
      free := by
        intro p _ inside
        have inside : p < 2 ^ k := by simpa [MemQueue.ofSize] using inside
        apply Or.inr
        show (if p &&& (MemQueue.ofSize (2 ^ k) (2 ^ k) zero).mask < 2 ^ k
          then p &&& (MemQueue.ofSize (2 ^ k) (2 ^ k) zero).mask else 0) = p
        rw [masked, Nat.mod_eq_of_lt inside, if_pos inside] }

/-- Nothing but the sequence numbers and the positions matters. -/
theorem congr (ring : Ring queue writes reads) {queue' : MemQueue α} (capacity : queue'.capacity = queue.capacity)
    (rpos : queue'.rpos = queue.rpos) (wpos : queue'.wpos = queue.wpos)
    (seqs : ∀ p, (queue'.elem p).seq = (queue.elem p).seq) (writers : ∀ i p, writes' i p ↔ writes i p)
    (readers : ∀ c p, reads' c p ↔ reads c p) : Ring queue' writes' reads' := by
  obtain rfl : writes' = writes := funext fun i => funext fun p => propext (writers i p)
  obtain rfl : reads' = reads := funext fun c => funext fun p => propext (readers c p)
  exact
    { masked := by simpa only [MemQueue.mask, capacity] using ring.masked
      roomy := by simpa only [capacity] using ring.roomy
      ordered := by simpa only [rpos, wpos] using ring.ordered
      bounded := by simpa only [capacity, rpos, wpos] using ring.bounded
      writing := by simpa only [rpos, wpos, seqs] using ring.writing
      writer := ring.writer
      reading := by simpa only [capacity, rpos, wpos, seqs] using ring.reading
      reader := ring.reader
      full := by simpa only [rpos, wpos, seqs] using ring.full
      free := by simpa only [capacity, rpos, wpos, seqs] using ring.free }

variable (ring : Ring queue writes reads)

include ring

theorem elem_add (p : Nat) : queue.elem (p + queue.capacity) = queue.elem p := by
  unfold MemQueue.elem
  rw [ring.masked, ring.masked, Nat.add_mod_right]

/-- Positions less than the capacity apart have different elements. -/
theorem slot_inj (near : p < q + queue.capacity) (near' : q < p + queue.capacity)
    (same : p &&& queue.mask = q &&& queue.mask) : p = q := by
  rw [ring.masked, ring.masked] at same
  exact Nat.ModEq.eq_of_abs_lt same (by rw [abs_lt]; omega)

theorem seq_setSeq (seq : Nat) (near : p < q + queue.capacity) (near' : q < p + queue.capacity) (other : p ≠ q) :
    ((queue.setSeq q seq).elem p).seq = (queue.elem p).seq := by
  rw [MemQueue.elem_setSeq, if_neg fun same => other (ring.slot_inj near near' same)]

theorem val_setVal (val : α) (near : p < q + queue.capacity) (near' : q < p + queue.capacity) (other : p ≠ q) :
    ((queue.setVal q val).elem p).val = (queue.elem p).val := by
  rw [MemQueue.elem_setVal, if_neg fun same => other (ring.slot_inj near near' same)]

/-- A write position whose sequence number has come round is free. -/
theorem inside_of_seq (seq : (queue.elem queue.wpos).seq = queue.wpos) : queue.wpos < queue.rpos + queue.capacity := by
  have roomy := ring.roomy
  have bounded := ring.bounded
  by_contra filled
  have wrapped : queue.wpos = queue.rpos + queue.capacity := by omega
  rw [wrapped, ring.elem_add] at seq
  rcases ring.full queue.rpos (Nat.le_refl _) (by omega) with ⟨i, held⟩ | full
  next =>
    have own := (ring.writing i _ held).2.2
    omega
  next => omega

/-- A read position whose sequence number is the next one is full. -/
theorem below_of_seq (seq : (queue.elem queue.rpos).seq = queue.rpos + 1) : queue.rpos < queue.wpos := by
  have roomy := ring.roomy
  have ordered := ring.ordered
  by_contra empty
  rcases ring.free queue.rpos (by omega) (by omega) with ⟨c, r, held, wrapped⟩ | free
  next =>
    have own := (ring.reading c r held).2.2
    rw [wrapped, ring.elem_add] at seq
    omega
  next => omega

theorem claim (seq : (queue.elem queue.wpos).seq = queue.wpos)
    (writers : ∀ j p, writes' j p ↔ writes j p ∨ (j = i ∧ p = queue.wpos)) :
    Ring { queue with wpos := queue.wpos + 1 } writes' reads := by
  have inside := ring.inside_of_seq seq
  have roomy := ring.roomy
  have ordered := ring.ordered
  constructor
  case masked => exact ring.masked
  case roomy => exact ring.roomy
  case ordered =>
    show queue.rpos ≤ queue.wpos + 1
    omega
  case bounded => exact inside
  case writing =>
    intro j p held
    show queue.rpos ≤ p ∧ p < queue.wpos + 1 ∧ (queue.elem p).seq = p
    rcases (writers j p).mp held with held | ⟨rfl, rfl⟩
    next =>
      have own := ring.writing j p held
      exact ⟨own.1, by omega, own.2.2⟩
    next => exact ⟨ordered, by omega, seq⟩
  case writer =>
    intro j j' p held held'
    rcases (writers j p).mp held with held | ⟨rfl, rfl⟩
    next =>
      rcases (writers j' p).mp held' with held' | ⟨rfl, rfl⟩
      next => exact ring.writer j j' p held held'
      next => exact absurd (ring.writing j _ held).2.1 (Nat.lt_irrefl _)
    next =>
      rcases (writers j' _).mp held' with held' | ⟨rfl, _⟩
      next => exact absurd (ring.writing j' _ held').2.1 (Nat.lt_irrefl _)
      next => rfl
  case reading =>
    intro c p held
    show p < queue.rpos ∧ queue.wpos + 1 ≤ p + queue.capacity ∧ (queue.elem p).seq = p + 1
    obtain ⟨below, window, own⟩ := ring.reading c p held
    -- An element that is being read cannot have the sequence number of a free one.
    have apart : queue.wpos ≠ p + queue.capacity := by
      intro wrapped
      rw [wrapped, ring.elem_add] at seq
      omega
    exact ⟨below, by omega, own⟩
  case reader => exact ring.reader
  case full =>
    intro p above below
    rcases Nat.lt_succ_iff_lt_or_eq.mp below with below | rfl
    next =>
      rcases ring.full p above below with ⟨j, held⟩ | full
      next => exact Or.inl ⟨j, (writers j p).mpr (Or.inl held)⟩
      next => exact Or.inr full
    next => exact Or.inl ⟨i, (writers i _).mpr (Or.inr ⟨rfl, rfl⟩)⟩
  case free => exact fun p above below => ring.free p (Nat.le_of_succ_le above) below

theorem publish (held : writes i q) (writers : ∀ j p, writes' j p ↔ writes j p ∧ p ≠ q) :
    Ring (queue.setSeq q (q + 1)) writes' reads := by
  have roomy := ring.roomy
  have bounded := ring.bounded
  obtain ⟨above, below, own⟩ := ring.writing i q held
  constructor
  case masked => exact ring.masked
  case roomy => exact ring.roomy
  case ordered => exact ring.ordered
  case bounded => exact ring.bounded
  case writing =>
    intro j p held'
    obtain ⟨held', other⟩ := (writers j p).mp held'
    obtain ⟨above', below', own'⟩ := ring.writing j p held'
    exact ⟨above', below', by rwa [ring.seq_setSeq _ (by omega) (by omega) other]⟩
  case writer => exact fun j j' p held held' => ring.writer j j' p ((writers j p).mp held).1 ((writers j' p).mp held').1
  case reading =>
    intro c p held'
    obtain ⟨below', window, own'⟩ := ring.reading c p held'
    exact ⟨below', window, by rwa [ring.seq_setSeq _ (by omega) (by omega) (by omega)]⟩
  case reader => exact ring.reader
  case full =>
    intro p above' below'
    rcases Decidable.eq_or_ne p q with rfl | other
    next => exact Or.inr (by simp)
    next =>
      replace above' : queue.rpos ≤ p := above'
      replace below' : p < queue.wpos := below'
      rw [ring.seq_setSeq _ (by omega) (by omega) other]
      rcases ring.full p above' below' with ⟨j, held'⟩ | full
      next => exact Or.inl ⟨j, (writers j p).mpr ⟨held', other⟩⟩
      next => exact Or.inr full
  case free =>
    intro p above' below'
    replace above' : queue.wpos ≤ p := above'
    replace below' : p < queue.rpos + queue.capacity := below'
    rw [ring.seq_setSeq _ (by omega) (by omega) (by omega)]
    exact ring.free p above' below'

theorem take (seq : (queue.elem queue.rpos).seq = queue.rpos + 1)
    (readers : ∀ d p, reads' d p ↔ reads d p ∨ (d = c ∧ p = queue.rpos)) :
    Ring { queue with rpos := queue.rpos + 1 } writes reads' := by
  have below := ring.below_of_seq seq
  have roomy := ring.roomy
  have bounded := ring.bounded
  constructor
  case masked => exact ring.masked
  case roomy => exact ring.roomy
  case ordered => exact below
  case bounded =>
    show queue.wpos ≤ queue.rpos + 1 + queue.capacity
    omega
  case writing =>
    intro i p held
    show queue.rpos + 1 ≤ p ∧ p < queue.wpos ∧ (queue.elem p).seq = p
    obtain ⟨above', below', own⟩ := ring.writing i p held
    -- An element that is being written cannot have the sequence number of a full one.
    have apart : p ≠ queue.rpos := by
      rintro rfl
      omega
    exact ⟨by omega, below', own⟩
  case writer => exact ring.writer
  case reading =>
    intro d p held
    show p < queue.rpos + 1 ∧ queue.wpos ≤ p + queue.capacity ∧ (queue.elem p).seq = p + 1
    rcases (readers d p).mp held with held | ⟨rfl, rfl⟩
    next =>
      obtain ⟨below', window, own⟩ := ring.reading d p held
      exact ⟨by omega, window, own⟩
    next => exact ⟨by omega, bounded, seq⟩
  case reader =>
    intro d d' p held held'
    rcases (readers d p).mp held with held | ⟨rfl, rfl⟩
    next =>
      rcases (readers d' p).mp held' with held' | ⟨rfl, rfl⟩
      next => exact ring.reader d d' p held held'
      next => exact absurd (ring.reading d _ held).1 (Nat.lt_irrefl _)
    next =>
      rcases (readers d' _).mp held' with held' | ⟨rfl, _⟩
      next => exact absurd (ring.reading d' _ held').1 (Nat.lt_irrefl _)
      next => rfl
  case full => exact fun p above' below' => ring.full p (Nat.le_of_succ_le above') below'
  case free =>
    intro p above' below'
    replace below' : p < queue.rpos + 1 + queue.capacity := below'
    rcases Decidable.eq_or_ne p (queue.rpos + queue.capacity) with rfl | other
    next => exact Or.inl ⟨c, queue.rpos, (readers c _).mpr (Or.inr ⟨rfl, rfl⟩), rfl⟩
    next =>
      rcases ring.free p above' (by omega) with ⟨d, r, held, wrapped⟩ | free
      next => exact Or.inl ⟨d, r, (readers d r).mpr (Or.inl held), wrapped⟩
      next => exact Or.inr free

theorem release (held : reads c q) (readers : ∀ d p, reads' d p ↔ reads d p ∧ p ≠ q) :
    Ring (queue.setSeq q (q + queue.capacity)) writes reads' := by
  have roomy := ring.roomy
  have bounded := ring.bounded
  obtain ⟨below, window, own⟩ := ring.reading c q held
  constructor
  case masked => exact ring.masked
  case roomy => exact ring.roomy
  case ordered => exact ring.ordered
  case bounded => exact ring.bounded
  case writing =>
    intro i p held'
    obtain ⟨above', below', own'⟩ := ring.writing i p held'
    exact ⟨above', below', by rwa [ring.seq_setSeq _ (by omega) (by omega) (by omega)]⟩
  case writer => exact ring.writer
  case reading =>
    intro d p held'
    obtain ⟨held', other⟩ := (readers d p).mp held'
    obtain ⟨below', window', own'⟩ := ring.reading d p held'
    have ordered := ring.ordered
    exact ⟨below', window', by rwa [ring.seq_setSeq _ (by omega) (by omega) other]⟩
  case reader => exact fun d d' p held held' => ring.reader d d' p ((readers d p).mp held).1 ((readers d' p).mp held').1
  case full =>
    intro p above' below'
    replace above' : queue.rpos ≤ p := above'
    replace below' : p < queue.wpos := below'
    rw [ring.seq_setSeq _ (by omega) (by omega) (by omega)]
    exact ring.full p above' below'
  case free =>
    intro p above' below'
    replace above' : queue.wpos ≤ p := above'
    replace below' : p < queue.rpos + queue.capacity := below'
    have ordered := ring.ordered
    rcases Decidable.eq_or_ne p (q + queue.capacity) with rfl | other
    next =>
      apply Or.inr
      rw [MemQueue.elem_setSeq, if_pos (by rw [ring.masked, ring.masked, Nat.add_mod_right])]
    next =>
      have apart : ((queue.setSeq q (q + queue.capacity)).elem p).seq = (queue.elem p).seq := by
        rw [MemQueue.elem_setSeq, if_neg]
        intro same
        apply other
        apply ring.slot_inj (by omega) (by omega)
        rw [same, ring.masked, ring.masked, Nat.add_mod_right]
      rw [apart]
      rcases ring.free p above' below' with ⟨d, r, held', wrapped⟩ | free
      next => exact Or.inl ⟨d, r, (readers d r).mpr ⟨held', by omega⟩, wrapped⟩
      next => exact Or.inr free

end Ring

end Swirly
