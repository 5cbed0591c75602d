import Swirly.Verified.MemQueue.Invariant

/-!
# The memory queue loses nothing

Every position is claimed by one call of `post` and by one call of `fetch`.  What the first has written there is what the
second reads there, once, and nobody touches the element in between.
-/

universe u v w

namespace Swirly

namespace Exchange

variable {ι : Type v} {κ : Type w} {α : Type u}

/-- The history agrees with the queue and with the calls that are on their way. -/
structure Kept (s : Exchange ι κ α) : Prop where
  claimed : s.history.claimed.length = s.queue.wpos
  taken : s.history.taken.length = s.queue.rpos
  written : ∀ p v, s.history.written p = some v → ∃ i, s.history.claimed[p]? = some (i, v)
  pending : ∀ p, p < s.queue.wpos → s.history.written p = none → ∃ i v, s.producers i = .write v p
  writing : ∀ i v p, s.producers i = .write v p →
    s.history.claimed[p]? = some (i, v) ∧ s.history.written p = none
  posting : ∀ i v p, s.producers i = .commit v p →
    s.history.claimed[p]? = some (i, v) ∧ s.history.written p = some v ∧ (s.queue.elem p).val = v
  posted : ∀ i v p, s.producers i = .done v (some p) →
    s.history.claimed[p]? = some (i, v) ∧ s.history.written p = some v
  stored : ∀ p, s.queue.rpos ≤ p → p < s.queue.wpos → (s.queue.elem p).seq = p + 1 →
    s.history.written p = some (s.queue.elem p).val
  reading : ∀ c p, s.consumers c = .read p →
    s.history.taken[p]? = some c ∧ s.history.delivered p = [] ∧ s.history.written p = some (s.queue.elem p).val
  fetching : ∀ c v p, s.consumers c = .commit v p →
    s.history.taken[p]? = some c ∧ s.history.delivered p = [(c, v)]
  fetched : ∀ c v p, s.consumers c = .done (some (p, v)) →
    s.history.taken[p]? = some c ∧ s.history.delivered p = [(c, v)]
  outstanding : ∀ p, p < s.queue.rpos → ∃ c v, s.history.taken[p]? = some c ∧ s.history.written p = some v ∧
    (s.consumers c = .read p ∨ s.history.delivered p = [(c, v)])
  undelivered : ∀ p, s.queue.rpos ≤ p → s.history.delivered p = []

theorem kept_make (capacity : Nat) (zero : α) : (make capacity zero : Exchange ι κ α).Kept := by
  constructor <;> simp [make, MemQueue.ofSize]

variable {s t : Exchange ι κ α}

theorem getElem?_append_of_some {β : Type*} {l l' : List β} {p : Nat} {b : β} (at_ : l[p]? = some b) :
    (l ++ l')[p]? = some b := by
  rw [List.getElem?_append_left (List.getElem?_eq_some_iff.mp at_).1, at_]

section Producer

variable [DecidableEq ι]

theorem Kept.post_quiet (kept : s.Kept) {i : ι} {post' : Post α} (before : ∀ v p, s.producers i ≠ .write v p)
    (writing : ∀ v p, post' ≠ .write v p) (posting : ∀ v p, post' ≠ .commit v p)
    (posted : ∀ v p, post' = .done v (some p) → s.history.claimed[p]? = some (i, v) ∧ s.history.written p = some v) :
    Kept { s with producers := Function.update s.producers i post' } :=
  { kept with
    pending := by
      intro p below unwritten
      obtain ⟨j, v, at_⟩ := kept.pending p below unwritten
      have other : j ≠ i := by
        rintro rfl
        exact before v p at_
      exact ⟨j, v, by simpa [other] using at_⟩
    writing := by
      intro j v p at_
      rcases of_update at_ with ⟨_, now⟩ | ⟨_, was⟩
      next => exact absurd now (writing v p)
      next => exact kept.writing j v p was
    posting := by
      intro j v p at_
      rcases of_update at_ with ⟨_, now⟩ | ⟨_, was⟩
      next => exact absurd now (posting v p)
      next => exact kept.posting j v p was
    posted := by
      intro j v p at_
      rcases of_update at_ with ⟨rfl, now⟩ | ⟨_, was⟩
      next => exact posted v p now
      next => exact kept.posted j v p was }

theorem Kept.produce (kept : s.Kept) (inv : s.Inv) {i : ι} {queue' : MemQueue α} {post' : Post α}
    (steps : Post.Steps s.queue (s.producers i) queue' post') :
    Kept { s with queue := queue', producers := Function.update s.producers i post',
                  history := producedBy i s.history (s.producers i) post' } := by
  have ring := inv.ring
  have roomy := ring.roomy
  generalize now : s.producers i = post at steps
  cases steps with
  | loaded => exact kept.post_quiet (by simp [now]) (by simp) (by simp) (by simp)
  | room seen => exact kept.post_quiet (by simp [now]) (by simp) (by simp) (by simp)
  | full seen => exact kept.post_quiet (by simp [now]) (by simp) (by simp) (by simp)
  | stale seen => exact kept.post_quiet (by simp [now]) (by simp) (by simp) (by simp)
  | failed => exact kept.post_quiet (by simp [now]) (by simp) (by simp) (by simp)
  | @claimed val =>
    have fresh : s.history.written s.queue.wpos = none := by
      cases written : s.history.written s.queue.wpos with
      | none => rfl
      | some v =>
        obtain ⟨j, at_⟩ := kept.written _ v written
        have below := (List.getElem?_eq_some_iff.mp at_).1
        have length := kept.claimed
        omega
    have here : (s.history.claimed ++ [(i, val)])[s.queue.wpos]? = some (i, val) := by
      rw [← kept.claimed, List.getElem?_concat_length]
    constructor
    case claimed => simp [producedBy, kept.claimed]
    case taken => exact kept.taken
    case written =>
      intro p v written
      obtain ⟨j, at_⟩ := kept.written p v written
      exact ⟨j, getElem?_append_of_some at_⟩
    case pending =>
      intro p below unwritten
      rcases Nat.lt_succ_iff_lt_or_eq.mp below with below | rfl
      next =>
        obtain ⟨j, v, at_⟩ := kept.pending p below unwritten
        have other : j ≠ i := by
          rintro rfl
          rw [now] at at_
          cases at_
        exact ⟨j, v, by simpa [other] using at_⟩
      next => exact ⟨i, val, by simp⟩
    case writing =>
      intro j v p at_
      rcases of_update at_ with ⟨rfl, moved⟩ | ⟨_, was⟩
      next =>
        cases moved
        exact ⟨here, fresh⟩
      next =>
        obtain ⟨at_, unwritten⟩ := kept.writing j v p was
        exact ⟨getElem?_append_of_some at_, unwritten⟩
    case posting =>
      intro j v p at_
      rcases of_update at_ with ⟨_, moved⟩ | ⟨_, was⟩
      next => cases moved
      next =>
        obtain ⟨at_, written, val⟩ := kept.posting j v p was
        exact ⟨getElem?_append_of_some at_, written, val⟩
    case posted =>
      intro j v p at_
      rcases of_update at_ with ⟨_, moved⟩ | ⟨_, was⟩
      next => cases moved
      next =>
        obtain ⟨at_, written⟩ := kept.posted j v p was
        exact ⟨getElem?_append_of_some at_, written⟩
    case stored =>
      intro p above below seq
      rcases Nat.lt_succ_iff_lt_or_eq.mp below with below | rfl
      next => exact kept.stored p above below seq
      next =>
        -- The claimed element still has the sequence number of a free one.
        have own := (inv.postClaim i val _ now).2 rfl
        replace seq : (s.queue.elem s.queue.wpos).seq = s.queue.wpos + 1 := seq
        omega
    case reading => exact kept.reading
    case fetching => exact kept.fetching
    case fetched => exact kept.fetched
    case outstanding => exact kept.outstanding
    case undelivered => exact kept.undelivered
  | @wrote val wpos =>
    obtain ⟨here, fresh⟩ := kept.writing i val wpos now
    have held : (s.producers i).Holds wpos := by simp [now, Post.Holds]
    obtain ⟨above, below, own⟩ := ring.writing i wpos held
    have bounded := ring.bounded
    have apart {p : Nat} {v : α} (written : s.history.written p = some v) : p ≠ wpos := by
      rintro rfl
      rw [fresh] at written
      cases written
    constructor
    case claimed => exact kept.claimed
    case taken => exact kept.taken
    case written =>
      intro p v written
      rcases of_update written with ⟨rfl, moved⟩ | ⟨_, was⟩
      next =>
        cases moved
        exact ⟨i, here⟩
      next => exact kept.written p v was
    case pending =>
      intro p below' unwritten
      rcases of_update unwritten with ⟨_, moved⟩ | ⟨other, was⟩
      next => cases moved
      next =>
        obtain ⟨j, v, at_⟩ := kept.pending p below' was
        have otherCall : j ≠ i := by
          rintro rfl
          rw [now] at at_
          cases at_
          exact other rfl
        exact ⟨j, v, by simpa [otherCall] using at_⟩
    case writing =>
      intro j v p at_
      rcases of_update at_ with ⟨_, moved⟩ | ⟨other, was⟩
      next => cases moved
      next =>
        obtain ⟨at_, unwritten⟩ := kept.writing j v p was
        have otherPos : p ≠ wpos := by
          rintro rfl
          exact other (ring.writer j i p (by simp [was, Post.Holds]) held)
        exact ⟨at_, by simpa [producedBy, otherPos] using unwritten⟩
    case posting =>
      intro j v p at_
      rcases of_update at_ with ⟨rfl, moved⟩ | ⟨_, was⟩
      next =>
        cases moved
        exact ⟨here, by simp [producedBy], by simp⟩
      next =>
        obtain ⟨at_, written, stored⟩ := kept.posting j v p was
        obtain ⟨above', below', _⟩ := ring.writing j p (by simp [was, Post.Holds])
        refine ⟨at_, by simpa [producedBy, apart written] using written, ?_⟩
        rwa [ring.val_setVal _ (by omega) (by omega) (apart written)]
    case posted =>
      intro j v p at_
      rcases of_update at_ with ⟨_, moved⟩ | ⟨_, was⟩
      next => cases moved
      next =>
        obtain ⟨at_, written⟩ := kept.posted j v p was
        exact ⟨at_, by simpa [producedBy, apart written] using written⟩
    case stored =>
      intro p above' below' seq
      replace above' : s.queue.rpos ≤ p := above'
      replace below' : p < s.queue.wpos := below'
      replace seq : (s.queue.elem p).seq = p + 1 := by rwa [MemQueue.seq_setVal] at seq
      have written := kept.stored p above' below' seq
      rw [ring.val_setVal _ (by omega) (by omega) (apart written)]
      simpa [producedBy, apart written] using written
    case reading =>
      intro c p at_
      obtain ⟨taken, undelivered, written⟩ := kept.reading c p at_
      obtain ⟨below', window, _⟩ := ring.reading c p (by simp [show s.consumers c = .read p from at_, Fetch.Holds])
      refine ⟨taken, undelivered, ?_⟩
      rw [ring.val_setVal _ (by omega) (by omega) (apart written)]
      simpa [producedBy, apart written] using written
    case fetching => exact kept.fetching
    case fetched => exact kept.fetched
    case outstanding =>
      intro p below'
      obtain ⟨c, v, taken, written, rest⟩ := kept.outstanding p below'
      exact ⟨c, v, taken, by simpa [producedBy, apart written] using written, rest⟩
    case undelivered => exact kept.undelivered
  | @committed val wpos =>
    obtain ⟨here, written, stored⟩ := kept.posting i val wpos now
    have held : (s.producers i).Holds wpos := by simp [now, Post.Holds]
    obtain ⟨above, below, own⟩ := ring.writing i wpos held
    have bounded := ring.bounded
    have quiet : Kept { s with producers := Function.update s.producers i (.done val (some wpos)) } := by
      apply kept.post_quiet (by simp [now]) (by simp) (by simp)
      rintro _ _ ⟨⟩
      exact ⟨here, written⟩
    constructor
    case stored =>
      intro p above' below' seq
      rw [MemQueue.val_setSeq]
      rcases Decidable.eq_or_ne p wpos with rfl | other
      next => exact written.trans (congrArg some stored.symm)
      next =>
        replace above' : s.queue.rpos ≤ p := above'
        replace below' : p < s.queue.wpos := below'
        rw [ring.seq_setSeq _ (by omega) (by omega) other] at seq
        exact kept.stored p above' below' seq
    case posting => simpa only [MemQueue.val_setSeq, producedBy] using quiet.posting
    case reading => simpa only [MemQueue.val_setSeq, producedBy] using quiet.reading
    case claimed => exact quiet.claimed
    case taken => exact quiet.taken
    case written => exact quiet.written
    case pending => exact quiet.pending
    case writing => exact quiet.writing
    case posted => exact quiet.posted
    case fetching => exact quiet.fetching
    case fetched => exact quiet.fetched
    case outstanding => exact quiet.outstanding
    case undelivered => exact quiet.undelivered

end Producer

section Consumer

variable [DecidableEq κ]

theorem Kept.fetch_quiet (kept : s.Kept) {c : κ} {fetch' : Fetch α} (before : ∀ p, s.consumers c ≠ .read p)
    (reading : ∀ p, fetch' ≠ .read p) (fetching : ∀ v p, fetch' ≠ .commit v p)
    (fetched : ∀ v p, fetch' = .done (some (p, v)) →
      s.history.taken[p]? = some c ∧ s.history.delivered p = [(c, v)]) :
    Kept { s with consumers := Function.update s.consumers c fetch' } :=
  { kept with
    reading := by
      intro d p at_
      rcases of_update at_ with ⟨_, now⟩ | ⟨_, was⟩
      next => exact absurd now (reading p)
      next => exact kept.reading d p was
    fetching := by
      intro d v p at_
      rcases of_update at_ with ⟨_, now⟩ | ⟨_, was⟩
      next => exact absurd now (fetching v p)
      next => exact kept.fetching d v p was
    fetched := by
      intro d v p at_
      rcases of_update at_ with ⟨rfl, now⟩ | ⟨_, was⟩
      next => exact fetched v p now
      next => exact kept.fetched d v p was
    outstanding := by
      intro p below
      obtain ⟨d, v, taken, written, rest⟩ := kept.outstanding p below
      refine ⟨d, v, taken, written, ?_⟩
      cases rest with
      | inl at_ =>
        have other : d ≠ c := by
          rintro rfl
          exact before p at_
        exact Or.inl (by simpa [other] using at_)
      | inr delivered => exact Or.inr delivered }

theorem Kept.consume (kept : s.Kept) (inv : s.Inv) {c : κ} {queue' : MemQueue α} {fetch' : Fetch α}
    (steps : Fetch.Steps s.queue (s.consumers c) queue' fetch') :
    Kept { s with queue := queue', consumers := Function.update s.consumers c fetch',
                  history := consumedBy c s.history (s.consumers c) fetch' } := by
  have ring := inv.ring
  have roomy := ring.roomy
  generalize now : s.consumers c = fetch at steps
  cases steps with
  | loaded => exact kept.fetch_quiet (by simp [now]) (by simp) (by simp) (by simp)
  | ready seen => exact kept.fetch_quiet (by simp [now]) (by simp) (by simp) (by simp)
  | empty seen => exact kept.fetch_quiet (by simp [now]) (by simp) (by simp) (by simp)
  | stale seen => exact kept.fetch_quiet (by simp [now]) (by simp) (by simp) (by simp)
  | failed => exact kept.fetch_quiet (by simp [now]) (by simp) (by simp) (by simp)
  | claimed =>
    have seq := (inv.fetchClaim c _ now).2 rfl
    have below := ring.below_of_seq seq
    have written := kept.stored _ (Nat.le_refl _) below seq
    have here : (s.history.taken ++ [c])[s.queue.rpos]? = some c := by
      rw [← kept.taken, List.getElem?_concat_length]
    constructor
    case claimed => exact kept.claimed
    case taken => simp [consumedBy, kept.taken]
    case written => exact kept.written
    case pending => exact kept.pending
    case writing => exact kept.writing
    case posting => exact kept.posting
    case posted => exact kept.posted
    case stored => exact fun p above => kept.stored p (Nat.le_of_succ_le above)
    case reading =>
      intro d p at_
      rcases of_update at_ with ⟨rfl, moved⟩ | ⟨_, was⟩
      next =>
        cases moved
        exact ⟨here, kept.undelivered _ (Nat.le_refl _), written⟩
      next =>
        obtain ⟨taken, rest⟩ := kept.reading d p was
        exact ⟨getElem?_append_of_some taken, rest⟩
    case fetching =>
      intro d v p at_
      rcases of_update at_ with ⟨_, moved⟩ | ⟨_, was⟩
      next => cases moved
      next =>
        obtain ⟨taken, delivered⟩ := kept.fetching d v p was
        exact ⟨getElem?_append_of_some taken, delivered⟩
    case fetched =>
      intro d v p at_
      rcases of_update at_ with ⟨_, moved⟩ | ⟨_, was⟩
      next => cases moved
      next =>
        obtain ⟨taken, delivered⟩ := kept.fetched d v p was
        exact ⟨getElem?_append_of_some taken, delivered⟩
    case outstanding =>
      intro p below'
      rcases Nat.lt_succ_iff_lt_or_eq.mp below' with below' | rfl
      next =>
        obtain ⟨d, v, taken, written', rest⟩ := kept.outstanding p below'
        refine ⟨d, v, getElem?_append_of_some taken, written', ?_⟩
        cases rest with
        | inl at_ =>
          have other : d ≠ c := by
            rintro rfl
            rw [now] at at_
            cases at_
          exact Or.inl (by simpa [other] using at_)
        | inr delivered => exact Or.inr delivered
      next => exact ⟨c, _, here, written, Or.inl (by simp)⟩
    case undelivered => exact fun p above => kept.undelivered p (Nat.le_of_succ_le above)
  | @got rpos =>
    obtain ⟨taken, undelivered, written⟩ := kept.reading c rpos now
    have held : (s.consumers c).Holds rpos := by simp [now, Fetch.Holds]
    have below := (ring.reading c rpos held).1
    have apart {d : κ} {v : α} {p : Nat} (delivered : s.history.delivered p = [(d, v)]) : p ≠ rpos := by
      rintro rfl
      rw [undelivered] at delivered
      cases delivered
    constructor
    case claimed => exact kept.claimed
    case taken => exact kept.taken
    case written => exact kept.written
    case pending => exact kept.pending
    case writing => exact kept.writing
    case posting => exact kept.posting
    case posted => exact kept.posted
    case stored => exact kept.stored
    case reading =>
      intro d p at_
      rcases of_update at_ with ⟨_, moved⟩ | ⟨other, was⟩
      next => cases moved
      next =>
        obtain ⟨taken', undelivered', written'⟩ := kept.reading d p was
        have otherPos : p ≠ rpos := by
          rintro rfl
          exact other (ring.reader d c p (by simp [was, Fetch.Holds]) held)
        exact ⟨taken', by simpa [consumedBy, otherPos] using undelivered', written'⟩
    case fetching =>
      intro d v p at_
      rcases of_update at_ with ⟨rfl, moved⟩ | ⟨_, was⟩
      next =>
        cases moved
        exact ⟨taken, by simp [consumedBy, undelivered]⟩
      next =>
        obtain ⟨taken', delivered⟩ := kept.fetching d v p was
        exact ⟨taken', by simpa [consumedBy, apart delivered] using delivered⟩
    case fetched =>
      intro d v p at_
      rcases of_update at_ with ⟨_, moved⟩ | ⟨_, was⟩
      next => cases moved
      next =>
        obtain ⟨taken', delivered⟩ := kept.fetched d v p was
        exact ⟨taken', by simpa [consumedBy, apart delivered] using delivered⟩
    case outstanding =>
      intro p below'
      obtain ⟨d, v, taken', written', rest⟩ := kept.outstanding p below'
      rcases Decidable.eq_or_ne p rpos with rfl | other
      next =>
        obtain rfl : v = (s.queue.elem p).val := Option.some.inj (written'.symm.trans written)
        obtain rfl : c = d := Option.some.inj (taken.symm.trans taken')
        exact ⟨c, _, taken, written, Or.inr (by simp [consumedBy, undelivered])⟩
      next =>
        refine ⟨d, v, taken', written', ?_⟩
        cases rest with
        | inl at_ =>
          have otherCall : d ≠ c := by
            rintro rfl
            rw [now] at at_
            cases at_
            exact other rfl
          exact Or.inl (by simpa [otherCall] using at_)
        | inr delivered => exact Or.inr (by simpa [consumedBy, other] using delivered)
    case undelivered =>
      intro p above
      have other : p ≠ rpos := by
        rintro rfl
        exact absurd below (Nat.not_lt.mpr above)
      simpa [consumedBy, other] using kept.undelivered p above
  | @committed val rpos =>
    obtain ⟨taken, delivered⟩ := kept.fetching c val rpos now
    have held : (s.consumers c).Holds rpos := by simp [now, Fetch.Holds]
    obtain ⟨below, window, own⟩ := ring.reading c rpos held
    have bounded := ring.bounded
    have quiet : Kept { s with consumers := Function.update s.consumers c (.done (some (rpos, val))) } := by
      apply kept.fetch_quiet (by simp [now]) (by simp) (by simp)
      rintro _ _ ⟨⟩
      exact ⟨taken, delivered⟩
    constructor
    case stored =>
      intro p above' below' seq
      replace above' : s.queue.rpos ≤ p := above'
      replace below' : p < s.queue.wpos := below'
      rw [MemQueue.val_setSeq]
      rw [ring.seq_setSeq _ (by omega) (by omega) (by omega)] at seq
      exact kept.stored p above' below' seq
    case posting => simpa only [MemQueue.val_setSeq, consumedBy] using quiet.posting
    case reading => simpa only [MemQueue.val_setSeq, consumedBy] using quiet.reading
    case claimed => exact quiet.claimed
    case taken => exact quiet.taken
    case written => exact quiet.written
    case pending => exact quiet.pending
    case writing => exact quiet.writing
    case posted => exact quiet.posted
    case fetching => exact quiet.fetching
    case fetched => exact quiet.fetched
    case outstanding => exact quiet.outstanding
    case undelivered => exact quiet.undelivered

end Consumer

variable [DecidableEq ι] [DecidableEq κ]

theorem Kept.step (kept : s.Kept) (inv : s.Inv) (steps : Steps s t) : t.Kept := by
  cases steps with
  | post resting =>
    apply kept.post_quiet
    next =>
      intro v p at_
      rw [at_] at resting
      exact resting
    all_goals simp
  | produce steps => exact kept.produce inv steps
  | fetch resting =>
    apply kept.fetch_quiet
    next =>
      intro p at_
      rw [at_] at resting
      exact resting
    all_goals simp
  | consume steps => exact kept.consume inv steps

/-- Both invariants hold after every run. -/
theorem sound_of_run {k : Nat} (large : 1 ≤ k) {zero : α} {events : List (Event ι κ α)}
    (run : Run step (fun _ _ => True) (make (2 ^ k) zero) events s) : s.Inv ∧ s.Kept := by
  refine run.invariant (I := fun s => s.Inv ∧ s.Kept) ?_ ⟨inv_make k zero large, kept_make _ _⟩
  intro s event t ⟨inv, kept⟩ _ stepped
  exact ⟨inv.step (step_cases stepped), kept.step inv (step_cases stepped)⟩

/-- What the queue promises in every state. -/
structure Fifo (s : Exchange ι κ α) : Prop where
  ordered : s.queue.rpos ≤ s.queue.wpos
  /-- What has been written stays as it is, and positions are only ever claimed anew. -/
  lasting : ∀ event t, s.step event = some t → s.history.claimed <+: t.history.claimed ∧
    s.history.taken <+: t.history.taken ∧ (∀ p v, s.history.written p = some v → t.history.written p = some v) ∧
    ∀ p, s.history.delivered p <+: t.history.delivered p
  /-- A claimed write position belongs to one call, whose value is there or is about to be. -/
  claimed : ∀ p, p < s.queue.wpos → ∃ i v, s.history.claimed[p]? = some (i, v) ∧
    (s.history.written p = some v ∨ s.history.written p = none ∧ s.producers i = .write v p)
  /-- A position that nobody has claimed has no value. -/
  unclaimed : ∀ p, s.queue.wpos ≤ p → s.history.claimed[p]? = none ∧ s.history.written p = none
  /-- A value that is written and not claimed for reading is in the queue. -/
  waiting : ∀ p v, s.queue.rpos ≤ p → s.history.written p = some v →
    (s.queue.elem p).val = v ∧ s.history.delivered p = []
  /-- A value that is claimed for reading was written before, and the consumer that claimed it has it or is about to read
  it, and nobody else has. -/
  taken : ∀ p, p < s.queue.rpos → ∃ c v, s.history.taken[p]? = some c ∧ s.history.written p = some v ∧
    (s.history.delivered p = [(c, v)] ∨ s.history.delivered p = [] ∧ s.consumers c = .read p)
  untaken : ∀ p, s.queue.rpos ≤ p → s.history.taken[p]? = none ∧ s.history.delivered p = []
  /-- Until it is read, the value that a consumer has claimed is in the queue, and no producer is at its element. -/
  complete : ∀ c p, s.consumers c = .read p → s.history.written p = some (s.queue.elem p).val ∧
    ∀ i q, (s.producers i).Holds q → q &&& s.queue.mask ≠ p &&& s.queue.mask
  untouched : ∀ c p event t, s.consumers c = .read p → s.step event = some t → t.consumers c = .read p →
    (t.queue.elem p).val = (s.queue.elem p).val
  /-- What the calls return. -/
  posted : ∀ i v p, s.producers i = .done v (some p) →
    s.history.claimed[p]? = some (i, v) ∧ s.history.written p = some v
  fetched : ∀ c v p, s.consumers c = .done (some (p, v)) →
    s.history.taken[p]? = some c ∧ s.history.written p = some v ∧ s.history.delivered p = [(c, v)]

theorem Steps.lasting (kept : s.Kept) (steps : Steps s t) : s.history.claimed <+: t.history.claimed ∧
    s.history.taken <+: t.history.taken ∧ (∀ p v, s.history.written p = some v → t.history.written p = some v) ∧
    ∀ p, s.history.delivered p <+: t.history.delivered p := by
  cases steps with
  | post resting => exact ⟨List.prefix_rfl, List.prefix_rfl, fun _ _ => id, fun _ => List.prefix_rfl⟩
  | @produce i queue' post' steps =>
    generalize now : s.producers i = post at steps
    cases steps with
    | claimed => exact ⟨List.prefix_append _ _, List.prefix_rfl, fun _ _ => id, fun _ => List.prefix_rfl⟩
    | @wrote val wpos =>
      refine ⟨List.prefix_rfl, List.prefix_rfl, ?_, fun _ => List.prefix_rfl⟩
      intro p v written
      have apart : p ≠ wpos := by
        rintro rfl
        rw [(kept.writing i val p now).2] at written
        cases written
      simpa [producedBy, apart] using written
    | _ => exact ⟨List.prefix_rfl, List.prefix_rfl, fun _ _ => id, fun _ => List.prefix_rfl⟩
  | fetch resting => exact ⟨List.prefix_rfl, List.prefix_rfl, fun _ _ => id, fun _ => List.prefix_rfl⟩
  | @consume c queue' fetch' steps =>
    generalize now : s.consumers c = fetch at steps
    cases steps with
    | claimed => exact ⟨List.prefix_rfl, List.prefix_append _ _, fun _ _ => id, fun _ => List.prefix_rfl⟩
    | @got rpos =>
      refine ⟨List.prefix_rfl, List.prefix_rfl, fun _ _ => id, ?_⟩
      intro p
      rcases Decidable.eq_or_ne p rpos with rfl | other
      next => simp [consumedBy]
      next => simp [consumedBy, other]
    | _ => exact ⟨List.prefix_rfl, List.prefix_rfl, fun _ _ => id, fun _ => List.prefix_rfl⟩

theorem Kept.fifo (kept : s.Kept) (inv : s.Inv) : s.Fifo := by
  have ring := inv.ring
  have bounded := ring.bounded
  have fresh (p : Nat) (above : s.queue.wpos ≤ p) : s.history.claimed[p]? = none :=
    List.getElem?_eq_none (kept.claimed.trans_le above)
  have below_of_written {p : Nat} {v : α} (written : s.history.written p = some v) : p < s.queue.wpos := by
    obtain ⟨i, at_⟩ := kept.written p v written
    exact kept.claimed ▸ (List.getElem?_eq_some_iff.mp at_).1
  have fits {c : κ} {p : Nat} (at_ : s.consumers c = .read p) :
      p < s.queue.rpos ∧ s.queue.wpos ≤ p + s.queue.capacity := by
    obtain ⟨below, window, _⟩ := ring.reading c p (by simp [at_, Fetch.Holds])
    exact ⟨below, window⟩
  constructor
  case ordered => exact ring.ordered
  case lasting => exact fun event t stepped => (step_cases stepped).lasting kept
  case claimed =>
    intro p below
    cases written : s.history.written p with
    | none =>
      obtain ⟨i, v, at_⟩ := kept.pending p below written
      exact ⟨i, v, (kept.writing i v p at_).1, Or.inr ⟨rfl, at_⟩⟩
    | some v =>
      obtain ⟨i, at_⟩ := kept.written p v written
      exact ⟨i, v, at_, Or.inl rfl⟩
  case unclaimed =>
    intro p above
    refine ⟨fresh p above, ?_⟩
    cases written : s.history.written p with
    | none => rfl
    | some v => exact absurd (below_of_written written) (Nat.not_lt.mpr above)
  case waiting =>
    intro p v above written
    refine ⟨?_, kept.undelivered p above⟩
    have below := below_of_written written
    rcases ring.full p above below with ⟨i, held⟩ | seq
    next =>
      -- The value is written but its sequence number is not: the producer is between the two.
      cases at_ : s.producers i with
      | write v' q =>
        rw [at_] at held
        obtain rfl : p = q := held
        rw [(kept.writing i v' p at_).2] at written
        cases written
      | commit v' q =>
        rw [at_] at held
        obtain rfl : p = q := held
        obtain ⟨_, written', stored⟩ := kept.posting i v' p at_
        rw [stored]
        exact Option.some.inj (written'.symm.trans written)
      | _ => simp [at_, Post.Holds] at held
    next => exact Option.some.inj ((kept.stored p above below seq).symm.trans written)
  case taken =>
    intro p below
    obtain ⟨c, v, taken, written, rest⟩ := kept.outstanding p below
    refine ⟨c, v, taken, written, ?_⟩
    cases rest with
    | inl at_ => exact Or.inr ⟨(kept.reading c p at_).2.1, at_⟩
    | inr delivered => exact Or.inl delivered
  case untaken => exact fun p above => ⟨List.getElem?_eq_none (kept.taken.trans_le above), kept.undelivered p above⟩
  case complete =>
    intro c p at_
    refine ⟨(kept.reading c p at_).2.2, ?_⟩
    intro i q held same
    obtain ⟨below, window⟩ := fits at_
    obtain ⟨above, below', _⟩ := ring.writing i q held
    have apart := ring.slot_inj (by omega) (by omega) same
    omega
  case untouched =>
    intro c p event t at_ stepped still
    cases step_cases stepped with
    | post resting => rfl
    | @produce i queue' post' steps =>
      generalize now : s.producers i = post at steps
      cases steps with
      | @wrote val wpos =>
        obtain ⟨below, window⟩ := fits at_
        obtain ⟨above, below', _⟩ := ring.writing i wpos (by simp [now, Post.Holds])
        exact ring.val_setVal _ (by omega) (by omega) (by omega)
      | committed => exact MemQueue.val_setSeq _ _ _ _
      | _ => rfl
    | fetch resting => rfl
    | @consume d queue' fetch' steps =>
      generalize now : s.consumers d = fetch at steps
      cases steps with
      | committed => exact MemQueue.val_setSeq _ _ _ _
      | _ => rfl
  case posted => exact kept.posted
  case fetched =>
    intro c v p at_
    obtain ⟨taken, delivered⟩ := kept.fetched c v p at_
    have below : p < s.queue.rpos := kept.taken ▸ (List.getElem?_eq_some_iff.mp taken).1
    obtain ⟨d, v', taken', written, rest⟩ := kept.outstanding p below
    obtain rfl : c = d := Option.some.inj (taken.symm.trans taken')
    cases rest with
    | inl reading =>
      rw [at_] at reading
      cases reading
    | inr delivered' =>
      rw [delivered] at delivered'
      cases delivered'
      exact ⟨taken, written, delivered⟩

/-- The queue is a queue for any number of producers and consumers, whatever the order of their atomic steps. -/
theorem fifo_of_run {ι : Type v} {κ : Type w} {α : Type u} [DecidableEq ι] [DecidableEq κ] (k : Nat) (large : 1 ≤ k)
    (zero : α) (events : List (Event ι κ α)) (s : Exchange ι κ α)
    (run : Run step (fun _ _ => True) (make (2 ^ k) zero) events s) : s.Fifo :=
  (sound_of_run large run).2.fifo (sound_of_run large run).1

/-- Two producers and two consumers on a queue of two elements: the second producer overtakes the first, and the
exchange of a consumer fails once. -/
theorem fifo_of_run_two : ∃ s : Exchange Bool Bool Nat, s.Fifo ∧ s.history.claimed = [(true, 8), (false, 7)] ∧
    s.history.delivered 0 = [(true, 8)] := by
  have made : ∃ s ∈ Run.exec step (fun _ _ => True) (make (2 ^ 1) 0 : Exchange Bool Bool Nat)
      [.post false 7, .produce false false, .produce false false, .post true 8, .produce true false,
        .produce true false, .produce true false, .produce false false, .produce false false, .produce false false,
        .produce true false, .produce true false, .fetch true, .consume true false, .consume true false,
        .consume true true, .consume true false, .consume true false, .fetch false, .consume false false,
        .consume true false, .produce false false, .consume true false],
      s.history.claimed = [(true, 8), (false, 7)] ∧ s.history.delivered 0 = [(true, 8)] := by
    decide
  obtain ⟨s, done, claimed, delivered⟩ := made
  exact ⟨s, fifo_of_run 1 (by decide) 0 _ s (Run.of_exec done), claimed, delivered⟩

end Exchange

end Swirly
