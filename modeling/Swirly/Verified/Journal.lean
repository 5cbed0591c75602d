import Mathlib
import Swirly.Fin.MsgQueue
import Swirly.Lob.Sess

/-!
# What is journaled

A call posts all its messages or none.  `MsgQueue.archived` reads the keys of the archived trades back from the
messages that were ever posted.
-/

namespace Swirly

/-- The trades that a message archives; the padding is not one. -/
def Msg.archived : Msg → List IdKey
  | .archiveTrade marketId ids _ => (ids.filter fun id => id ≠ 0).map (idKey marketId)
  | _ => []

namespace MsgQueue

variable {mq mq' : MsgQueue} {msg : Msg} {e : Exec} {es : List Exec} {marketId modified : Int} {ids : List Int}

def archived (mq : MsgQueue) : List IdKey := mq.posted.flatMap Msg.archived

/-- The executions have been journaled. -/
def Journaled (mq : MsgQueue) (es : List Exec) (mq' : MsgQueue) : Prop :=
  mq' = { mq with posted := mq.posted ++ es.map fun e => .createExec (execBody e) }

theorem post_eq (posted : mq.post msg = some mq') : mq' = { mq with posted := mq.posted ++ [msg] } := by
  unfold post at posted
  split at posted
  next => exact (Option.some.inj posted).symm
  next => cases posted

theorem Journaled.of_createExec (posted : mq.createExec e = some mq') : Journaled mq [e] mq' := post_eq posted

theorem Journaled.of_foldlM (posted : es.foldlM createExec mq = some mq') : Journaled mq es mq' := by
  induction es generalizing mq with
  | nil =>
    obtain rfl : mq = mq' := Option.some.inj posted
    simp [Journaled]
  | cons e es inductionHypothesis =>
    rw [List.foldlM_cons] at posted
    cases first : mq.createExec e with
    | none =>
      rw [first] at posted
      cases posted
    | some next =>
      rw [first] at posted
      have rest : Journaled next es mq' := inductionHypothesis posted
      rw [Journaled, post_eq first] at rest
      rw [Journaled, rest, List.map_cons]
      simp

theorem Journaled.of_createExecs (posted : mq.createExecs es = some mq') : Journaled mq es mq' := by
  unfold createExecs at posted
  split at posted
  next => cases posted
  next => exact of_foldlM posted

theorem foldlM_createExec (room : mq.size + es.length ≤ mq.capacity) : (es.foldlM createExec mq).isSome := by
  induction es generalizing mq with
  | nil => rfl
  | cons e es inductionHypothesis =>
    rw [List.length_cons] at room
    obtain ⟨next, posted⟩ : ∃ next, mq.createExec e = some next :=
      ⟨_, if_pos (show mq.size < mq.capacity by omega)⟩
    rw [List.foldlM_cons, posted]
    apply inductionHypothesis
    rw [post_eq posted]
    simp only [size, List.length_append, List.length_singleton] at room ⊢
    omega

/-- The queue takes a list of executions when it has room for all of them, and only then. -/
theorem createExecs_eq_none : mq.createExecs es = none ↔ mq.reserve < es.length := by
  unfold createExecs
  split
  next short => exact iff_of_true rfl short
  next enough =>
    refine iff_of_false (fun failed => ?_) enough
    cases es with
    | nil => cases failed
    | cons e es =>
      have room : mq.size + (e :: es).length ≤ mq.capacity := by
        simp only [reserve, List.length_cons] at enough ⊢
        omega
      have posted := foldlM_createExec room
      rw [failed] at posted
      cases posted

theorem Journaled.archived (journaled : Journaled mq es mq') : mq'.archived = mq.archived := by
  rw [Journaled] at journaled
  have none_archived : (es.map fun e => Msg.createExec (execBody e)).flatMap Msg.archived = [] := by
    simp [Msg.archived]
  rw [MsgQueue.archived, journaled, List.flatMap_append, none_archived, List.append_nil, MsgQueue.archived]

theorem archived_post (posted : mq.post msg = some mq') : mq'.archived = mq.archived ++ msg.archived := by
  rw [post_eq posted]
  simp [archived]

/-- The padding is dropped again. -/
theorem filter_padIds (ids : List Int) : ((padIds ids).filter fun id => id ≠ 0) = ids.filter fun id => id ≠ 0 := by
  simp [padIds]

theorem archived_doArchiveTrade (posted : mq.doArchiveTrade marketId ids modified = some mq') :
    mq'.archived = mq.archived ++ (ids.filter fun id => id ≠ 0).map (idKey marketId) := by
  rw [archived_post posted, Msg.archived, filter_padIds]

/-- The chunks carry every id. -/
theorem archived_archiveChunks {more : Nat} (enough : ids.length ≤ maxIds * (more + 1))
    (posted : archiveChunks marketId modified more ids mq = some mq') :
    mq'.archived = mq.archived ++ (ids.filter fun id => id ≠ 0).map (idKey marketId) := by
  induction more generalizing ids mq with
  | zero =>
    have whole : ids.take maxIds = ids := List.take_of_length_le (by omega)
    rw [archiveChunks, whole] at posted
    exact archived_doArchiveTrade posted
  | succ more inductionHypothesis =>
    rw [archiveChunks] at posted
    obtain ⟨next, first, rest⟩ := Option.bind_eq_some_iff.mp posted
    have short : (ids.drop maxIds).length ≤ maxIds * (more + 1) := by
      rw [List.length_drop]
      rw [Nat.mul_add] at enough
      omega
    rw [inductionHypothesis short rest, archived_doArchiveTrade first, List.append_assoc, ← List.map_append,
      ← List.filter_append, List.take_append_drop]

theorem archived_archiveTrades (posted : mq.archiveTrades marketId ids modified = some mq') :
    mq'.archived = mq.archived ++ (ids.filter fun id => id ≠ 0).map (idKey marketId) := by
  unfold archiveTrades at posted
  split at posted
  next => cases posted
  next =>
    refine archived_archiveChunks ?_ posted
    simp only [steps, maxIds]
    omega

theorem archiveChunks_isSome {more : Nat} (room : mq.size + (more + 1) ≤ mq.capacity) :
    (archiveChunks marketId modified more ids mq).isSome := by
  induction more generalizing ids mq with
  | zero =>
    rw [archiveChunks, doArchiveTrade, post, if_pos (by omega)]
    rfl
  | succ more inductionHypothesis =>
    obtain ⟨next, posted⟩ : ∃ next, mq.doArchiveTrade marketId (ids.take maxIds) modified = some next :=
      ⟨_, if_pos (show mq.size < mq.capacity by omega)⟩
    rw [archiveChunks, posted, Option.bind_some]
    apply inductionHypothesis
    rw [post_eq posted]
    simp only [size, List.length_append, List.length_singleton] at room ⊢
    omega

/-- The same for a list of ids, which takes a message for each chunk. -/
theorem archiveTrades_eq_none (nonempty : ids ≠ []) :
    mq.archiveTrades marketId ids modified = none ↔ mq.reserve < steps ids.length := by
  unfold archiveTrades
  split
  next short => exact iff_of_true rfl short
  next enough =>
    refine iff_of_false (fun failed => ?_) enough
    have some_chunk : 1 ≤ steps ids.length := by
      have length := List.length_pos_iff.mpr nonempty
      simp only [steps, maxIds]
      omega
    have posted : (archiveChunks marketId modified (steps ids.length - 1) ids mq).isSome := by
      apply archiveChunks_isSome
      simp only [reserve] at enough
      omega
    rw [failed] at posted
    cases posted

/-- No execution has been posted, whatever else has. -/
def Silent (mq mq' : MsgQueue) : Prop :=
  ∃ msgs, mq'.posted = mq.posted ++ msgs ∧ ∀ body, Msg.createExec body ∉ msgs

theorem Silent.refl (mq : MsgQueue) : Silent mq mq := ⟨[], (List.append_nil _).symm, fun _ => List.not_mem_nil⟩

theorem Silent.trans {mq'' : MsgQueue} (first : Silent mq mq') (second : Silent mq' mq'') : Silent mq mq'' := by
  obtain ⟨msgs, appended, none_first⟩ := first
  obtain ⟨more, appendedMore, none_second⟩ := second
  refine ⟨msgs ++ more, by rw [appendedMore, appended, List.append_assoc], fun body member => ?_⟩
  exact (List.mem_append.mp member).elim (none_first body) (none_second body)

theorem silent_post (posted : mq.post msg = some mq') (other : ∀ body, msg ≠ .createExec body) : Silent mq mq' :=
  ⟨[msg], by rw [post_eq posted], fun body member => other body (List.mem_singleton.mp member).symm⟩

theorem silent_doArchiveTrade (posted : mq.doArchiveTrade marketId ids modified = some mq') : Silent mq mq' :=
  silent_post posted fun body => by simp

theorem silent_archiveChunks {more : Nat} (posted : archiveChunks marketId modified more ids mq = some mq') :
    Silent mq mq' := by
  induction more generalizing ids mq with
  | zero => exact silent_doArchiveTrade posted
  | succ more inductionHypothesis =>
    rw [archiveChunks] at posted
    obtain ⟨next, first, rest⟩ := Option.bind_eq_some_iff.mp posted
    exact (silent_doArchiveTrade first).trans (inductionHypothesis rest)

theorem silent_archiveTrades (posted : mq.archiveTrades marketId ids modified = some mq') : Silent mq mq' := by
  unfold archiveTrades at posted
  split at posted
  next => cases posted
  next => exact silent_archiveChunks posted

theorem silent_pop (mq : MsgQueue) : Silent mq mq.pop := by
  unfold pop
  split
  next => exact ⟨[], (List.append_nil _).symm, fun _ => List.not_mem_nil⟩
  next => exact .refl mq

theorem archived_pop (mq : MsgQueue) : mq.pop.archived = mq.archived := by
  unfold pop
  split <;> rfl

end MsgQueue

end Swirly
