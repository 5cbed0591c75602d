import Swirly.Fin.Range
import Swirly.Verified.MemQueue.Bounded

/-!
# The messages of an archive

The ids of an archive are posted in blocks of at most `maxIds`, as many as were reserved, and a block is read up to its
first zero.  `MsgQueue` stands for the memory queue below it between the calls of one thread, provided that the capacity
asked for is a power of two: otherwise more elements are reserved than can be posted to.
-/

namespace Swirly

open MemQueue (Call Answer Ends Calls Numbered)

namespace MsgQueue

variable {mq : MsgQueue} {marketId modified : Int} {ids : List Int}

/-- The queue with more messages of an archive. -/
def postBlocks (mq : MsgQueue) (marketId modified : Int) (blocks : List (List Int)) : MsgQueue :=
  { mq with posted := mq.posted ++ blocks.map fun ids => .archiveTrade marketId ids (msSinceEpoch modified) }

theorem postBlocks_append (first second : List (List Int)) :
    (mq.postBlocks marketId modified first).postBlocks marketId modified second =
      mq.postBlocks marketId modified (first ++ second) := by
  simp [postBlocks]

theorem reserve_postBlocks (blocks : List (List Int)) :
    mq.reserve ≤ (mq.postBlocks marketId modified blocks).reserve + blocks.length := by
  simp only [reserve, size, postBlocks, List.length_append, List.length_map]
  omega

theorem doArchiveTrade_eq (room : 0 < mq.reserve) (ids : List Int) :
    mq.doArchiveTrade marketId ids modified = some (mq.postBlocks marketId modified [padIds ids]) := by
  have below : mq.size < mq.capacity := by
    rw [reserve] at room
    omega
  rw [doArchiveTrade, post, if_pos below]
  rfl

/-- A block of ids that are read back from it. -/
structure Block (block chunk : List Int) : Prop where
  padded : block = chunk ++ List.replicate (maxIds - chunk.length) 0
  fits : chunk.length ≤ maxIds
  read : block.takeWhile (· ≠ 0) = chunk

theorem block_padIds {chunk : List Int} (fits : chunk.length ≤ maxIds) (nonzero : ∀ id ∈ chunk, id ≠ 0) :
    Block (padIds chunk) chunk where
  padded := rfl
  fits := fits
  read := by
    rw [padIds, List.takeWhile_append_of_pos (by simpa using nonzero)]
    cases maxIds - chunk.length with
    | zero => simp
    | succ n => simp [List.replicate_succ]

/-- The rest of the loop posts the ids from its offset on, in as many blocks as they need. -/
theorem archiveLoop_spec (nonzero : ∀ id ∈ ids, id ≠ 0) (n offset : Nat) (inside : offset < ids.length)
    (rest : n = ids.length - offset) (room : (n + maxIds - 1) / maxIds ≤ mq.reserve) :
    ∃ chunks : List (List Int),
      archiveLoop marketId modified ids { size := ids.length, offset := offset } mq =
        .ok (mq.postBlocks marketId modified (chunks.map padIds)) ∧
      chunks.length = (n + maxIds - 1) / maxIds ∧ (∀ chunk ∈ chunks, Block (padIds chunk) chunk) ∧
      chunks.flatten = ids.drop offset := by
  induction n using Nat.strong_induction_on generalizing offset mq with
  | _ n inductionHypothesis =>
    have width : maxIds = 29 := rfl
    obtain ⟨chunk, taken⟩ : ∃ chunk, chunk = (ids.drop offset).take (min (ids.length - offset) maxIds) := ⟨_, rfl⟩
    have length : chunk.length = min n maxIds := by
      rw [taken, List.length_take, List.length_drop, ← rest]
      omega
    have block : Block (padIds chunk) chunk := by
      apply block_padIds (by omega)
      intro id member
      rw [taken] at member
      exact nonzero id (List.mem_of_mem_drop (List.mem_of_mem_take member))
    have some_ : 0 < mq.reserve := by
      have least : 1 ≤ (n + maxIds - 1) / maxIds := by
        rw [Nat.le_div_iff_mul_le (by decide)]
        omega
      omega
    have posted : mq.doArchiveTrade marketId ((ids.drop offset).take (min (ids.length - offset) maxIds)) modified =
        some (mq.postBlocks marketId modified [padIds chunk]) := by
      rw [← taken]
      exact doArchiveTrade_eq some_ chunk
    obtain ⟨r, here⟩ : ∃ r : Range, r = { size := ids.length, offset := offset } := ⟨_, rfl⟩
    have stepped : archiveLoop marketId modified ids r mq = if r.next.done then
        .ok (mq.postBlocks marketId modified [padIds chunk])
      else archiveLoop marketId modified ids r.next (mq.postBlocks marketId modified [padIds chunk]) := by
      rw [archiveLoop, here]
      simp only [Range.stepOffset, Range.stepSize, posted]
    rw [← here, stepped]
    by_cases last : ids.length ≤ offset + maxIds
    · -- The last block holds all that is left.
      have done : r.next.done = true := by
        rw [here]
        exact decide_eq_true last
      refine ⟨[chunk], by rw [if_pos done]; rfl, ?_, by simpa using block, ?_⟩
      · rw [List.length_singleton, eq_comm, Nat.div_eq_iff (by decide)]
        omega
      · rw [List.flatten_singleton, taken, List.take_of_length_le]
        rw [List.length_drop]
        omega
    · have unfinished : ¬ r.next.done = true := by
        rw [here]
        exact fun done => last (of_decide_eq_true done)
      have fewer : (n - maxIds + maxIds - 1) / maxIds + 1 = (n + maxIds - 1) / maxIds := by
        rw [← Nat.add_div_right _ (by decide)]
        congr 1
        omega
      have reserved : mq.reserve ≤ (mq.postBlocks marketId modified [padIds chunk]).reserve + 1 := reserve_postBlocks _
      have left : (n - maxIds + maxIds - 1) / maxIds ≤ (mq.postBlocks marketId modified [padIds chunk]).reserve := by
        omega
      obtain ⟨chunks, looped, count, blocks, whole⟩ := inductionHypothesis (n - maxIds) (by omega) (offset + maxIds)
        (by omega) (by omega) left
      have next : r.next = { size := ids.length, offset := offset + maxIds } := by
        rw [here]
        rfl
      refine ⟨chunk :: chunks, ?_, ?_, ?_, ?_⟩
      · rw [if_neg unfinished, next, looped, postBlocks_append]
        rfl
      · rw [List.length_cons, count, fewer]
      · intro other member
        cases member with
        | head => exact block
        | tail _ member => exact blocks other member
      · have full : min (ids.length - offset) maxIds = maxIds := by omega
        rw [List.flatten_cons, whole, taken, full, ← List.drop_drop, List.take_append_drop]

theorem archive_blocks (mq : MsgQueue) (marketId modified : Int) {ids : List Int} (some_ : ids ≠ [])
    (nonzero : ∀ id ∈ ids, id ≠ 0) :
    (ids.length ⌈/⌉ maxIds ≤ mq.reserve → ∃ blocks : List (List Int),
      mq.archive marketId ids modified = .ok { mq with
        posted := mq.posted ++ blocks.map fun ids => .archiveTrade marketId ids (msSinceEpoch modified) } ∧
      blocks.length = ids.length ⌈/⌉ maxIds ∧ (∀ block ∈ blocks, ∃ chunk, Block block chunk) ∧
      (blocks.map fun block => block.takeWhile (· ≠ 0)).flatten = ids) ∧
    (mq.reserve < ids.length ⌈/⌉ maxIds → mq.archive marketId ids modified = .error mq) := by
  have ceil : ids.length ⌈/⌉ maxIds = (ids.length + maxIds - 1) / maxIds := Nat.ceilDiv_eq_add_pred_div _ _
  rw [ceil]
  constructor
  · intro room
    obtain ⟨chunks, looped, count, blocks, whole⟩ := @archiveLoop_spec mq marketId modified ids nonzero ids.length 0
      (List.length_pos_iff.mpr some_) rfl room
    refine ⟨chunks.map padIds, ?_, ?_, ?_, ?_⟩
    · have enough : ¬ mq.reserve < (ids.length + maxIds - 1) / maxIds := by omega
      rw [archive]
      simp only [Range.steps, enough, if_false, looped]
      rfl
    · rw [List.length_map, count]
    · intro block member
      obtain ⟨chunk, inside, rfl⟩ := List.mem_map.mp member
      exact ⟨chunk, blocks chunk inside⟩
    · have read : chunks.map (fun chunk => (padIds chunk).takeWhile (· ≠ 0)) = chunks.map id :=
        List.map_congr_left fun chunk member => (blocks chunk member).read
      rw [List.map_map]
      show (chunks.map fun chunk => (padIds chunk).takeWhile (· ≠ 0)).flatten = ids
      rw [read, List.map_id, whole, List.drop_zero]
  · intro full
    simp only [archive, Range.steps, full, if_true]

/-- The loop makes the steps that were counted before it. -/
theorem archiveLoop_toOption (n offset : Nat) (inside : offset < ids.length) (rest : n = ids.length - offset) :
    (archiveLoop marketId modified ids { size := ids.length, offset := offset } mq).toOption =
      archiveChunks marketId modified ((n + maxIds - 1) / maxIds - 1) (ids.drop offset) mq := by
  induction n using Nat.strong_induction_on generalizing offset mq with
  | _ n inductionHypothesis =>
    have width : maxIds = 29 := rfl
    have taken : (ids.drop offset).take (min (ids.length - offset) maxIds) = (ids.drop offset).take maxIds := by
      rw [← List.length_drop, min_comm, ← List.take_eq_take_min]
    obtain ⟨r, here⟩ : ∃ r : Range, r = { size := ids.length, offset := offset } := ⟨_, rfl⟩
    rw [← here, archiveLoop]
    simp only [here, Range.stepOffset, Range.stepSize, taken]
    by_cases last : ids.length ≤ offset + maxIds
    · have one : (n + maxIds - 1) / maxIds - 1 = 0 := by
        rw [show (n + maxIds - 1) / maxIds = 1 by rw [Nat.div_eq_iff (by decide)]; omega]
      have done : Range.done (Range.next { size := ids.length, offset := offset }) = true := decide_eq_true last
      rw [one, archiveChunks]
      cases mq.doArchiveTrade marketId ((ids.drop offset).take maxIds) modified with
      | none => rfl
      | some mq => simp only [done, if_true, Except.toOption]
    · have more : (n + maxIds - 1) / maxIds - 1 = (n - maxIds + maxIds - 1) / maxIds - 1 + 1 := by
        have fewer : (n - maxIds + maxIds - 1) / maxIds + 1 = (n + maxIds - 1) / maxIds := by
          rw [← Nat.add_div_right _ (by decide)]
          congr 1
          omega
        have least : 1 ≤ (n - maxIds + maxIds - 1) / maxIds := by
          rw [Nat.le_div_iff_mul_le (by decide)]
          omega
        omega
      have unfinished : ¬ Range.done (Range.next { size := ids.length, offset := offset }) = true :=
        fun done => last (of_decide_eq_true done)
      rw [more, archiveChunks, List.drop_drop]
      cases mq.doArchiveTrade marketId ((ids.drop offset).take maxIds) modified with
      | none => rfl
      | some mq =>
        rw [Option.bind_some, ← inductionHypothesis (n - maxIds) (by omega) (offset + maxIds) (by omega) (by omega)]
        simp only [unfinished]
        rfl

/-- The call that the application makes is this loop. -/
theorem archive_toOption (mq : MsgQueue) (marketId modified : Int) {ids : List Int} (some_ : ids ≠ []) :
    (mq.archive marketId ids modified).toOption = mq.archiveTrades marketId ids modified := by
  have looped := @archiveLoop_toOption mq marketId modified ids ids.length 0 (List.length_pos_iff.mpr some_) rfl
  rw [List.drop_zero] at looped
  simp only [archive, archiveTrades, Range.steps, steps]
  by_cases full : mq.reserve < (ids.length + maxIds - 1) / maxIds
  · simp only [full, if_true]
    rfl
  · simp only [full, if_false]
    exact looped

/-! ## The memory queue below -/

/-- The queue stands for a memory queue that one thread uses: it has the same elements, and the messages that have not
been popped are in them. -/
structure Represents (mq : MsgQueue) (queue : MemQueue Msg) : Prop where
  holding : queue.Holding (mq.posted.drop mq.popped)
  capacity : mq.capacity = queue.capacity
  popped : mq.popped ≤ mq.posted.length

/-- What a call does here. -/
def call (mq : MsgQueue) : Call Msg → Answer Msg × MsgQueue
  | .post msg =>
    match mq.post msg with
    | none => (.posted false, mq)
    | some mq => (.posted true, mq)
  | .pop => (.popped mq.posted[mq.popped]?, mq.pop)

/-- What one call after the other does. -/
def calls (mq : MsgQueue) (made : List (Call Msg)) : List (Answer Msg) × MsgQueue :=
  made.foldl (fun s call => (s.1 ++ [(s.2.call call).1], (s.2.call call).2)) ([], mq)

namespace Represents

variable {queue queue' : MemQueue Msg} (represents : mq.Represents queue)

include represents

theorem size : (mq.size : Int) = queue.size := by
  have length := represents.holding.length
  rw [List.length_drop] at length
  rw [MsgQueue.size, MemQueue.size]
  omega

theorem reserve : (mq.reserve : Int) = queue.reserve := by
  have size := represents.size
  have length := represents.holding.length_le
  have capacity := represents.capacity
  rw [List.length_drop] at length
  rw [MsgQueue.reserve, MemQueue.reserve, ← size, ← capacity]
  simp only [MsgQueue.size] at length ⊢
  omega

/-- The two queues answer a call alike, and it leaves them alike. -/
theorem ends {made : Call Msg} {result : Answer Msg} (ends : Ends queue made result queue') :
    result = (mq.call made).1 ∧ (mq.call made).2.Represents queue' := by
  obtain ⟨answered, holding, kept⟩ := represents.holding.ends ends
  have capacity := represents.capacity
  have popped := represents.popped
  cases made with
  | post msg =>
    have length : (mq.posted.drop mq.popped).length = mq.size := List.length_drop
    simp only [MemQueue.fifo, length, ← capacity] at answered holding
    by_cases room : mq.size < mq.capacity
    · rw [if_pos room] at answered holding
      have posted : mq.post msg = some { mq with posted := mq.posted ++ [msg] } := if_pos room
      simp only [call, posted]
      refine ⟨answered, ?_, capacity.trans kept.symm, by rw [List.length_append]; exact Nat.le_add_right_of_le popped⟩
      rw [List.drop_append_of_le_length popped]
      exact holding
    -- The list is as long as the ring.
    · rw [if_neg room] at answered holding
      have refused : mq.post msg = none := if_neg room
      simp only [call, refused]
      exact ⟨answered, holding, capacity.trans kept.symm, popped⟩
  | pop =>
    simp only [MemQueue.fifo, List.head?_drop, List.tail_drop] at answered holding
    refine ⟨answered, ?_⟩
    simp only [call, pop]
    by_cases some_ : mq.popped < mq.posted.length
    · rw [if_pos some_]
      exact ⟨holding, capacity.trans kept.symm, some_⟩
    · rw [if_neg some_]
      rw [List.drop_eq_nil_of_le (by omega)] at holding
      refine ⟨?_, capacity.trans kept.symm, popped⟩
      rw [List.drop_eq_nil_of_le (by omega)]
      exact holding

/-- The same for one call after the other. -/
theorem calls {made : List (Call Msg)} {results : List (Answer Msg)} (run : Calls queue made results queue') :
    results = (mq.calls made).1 ∧ (mq.calls made).2.Represents queue' := by
  induction run with
  | nil => exact ⟨rfl, represents⟩
  | snoc before ends inductionHypothesis =>
    obtain ⟨answers, represents⟩ := inductionHypothesis
    obtain ⟨answer, represents⟩ := represents.ends ends
    rw [MsgQueue.calls, List.foldl_append]
    exact ⟨by rw [answers, answer]; rfl, represents⟩

end Represents

/-- A queue of a power of two stands for what the constructor makes. -/
theorem represents_make {asked : UInt64} {k : Nat} (positive : 1 ≤ k) (small : k ≤ 30) (power : asked.toNat = 2 ^ k)
    (zero : Msg) : ∃ start, MemQueue.make asked zero = some start ∧
      (MsgQueue.mk (2 ^ k) [] 0).Represents start :=
  ⟨_, (MemQueue.make_two_pow small power).2, MemQueue.holding_ofSize k positive zero, rfl, le_rfl⟩

/-! ## The loop on the memory queue -/

/-- The message of one round. -/
def archiveMsg (marketId modified : Int) (ids : List Int) (r : Range) : Msg :=
  .archiveTrade marketId (padIds ((ids.drop r.stepOffset).take r.stepSize)) (msSinceEpoch modified)

/-- The loop of `archive_trade` from a round on, with the messages that it posts, where each round is a call of `post`.  An
error is a throw. -/
inductive ArchiveLoop (marketId modified : Int) (ids : List Int) :
    Range → MemQueue Msg → List Msg → Except (MemQueue Msg) (MemQueue Msg) → Prop
  | last {r : Range} {queue queue' : MemQueue Msg}
      (posted : Ends queue (.post (archiveMsg marketId modified ids r)) (.posted true) queue') (done : r.next.done) :
      ArchiveLoop marketId modified ids r queue [archiveMsg marketId modified ids r] (.ok queue')
  | more {r : Range} {queue queue' : MemQueue Msg} {msgs : List Msg} {result : Except (MemQueue Msg) (MemQueue Msg)}
      (posted : Ends queue (.post (archiveMsg marketId modified ids r)) (.posted true) queue') (unfinished : ¬ r.next.done)
      (rest : ArchiveLoop marketId modified ids r.next queue' msgs result) :
      ArchiveLoop marketId modified ids r queue (archiveMsg marketId modified ids r :: msgs) result
  | refused {r : Range} {queue queue' : MemQueue Msg}
      (refused : Ends queue (.post (archiveMsg marketId modified ids r)) (.posted false) queue') :
      ArchiveLoop marketId modified ids r queue [] (.error queue')

/-- A call of `archive_trade`: the check of the unused elements, and then the loop. -/
def Archive (queue : MemQueue Msg) (marketId modified : Int) (ids : List Int) (posted : List Msg)
    (result : Except (MemQueue Msg) (MemQueue Msg)) : Prop :=
  let r : Range := { size := ids.length, offset := 0 }
  if queue.reserve < r.steps then posted = [] ∧ result = .error queue
  else ArchiveLoop marketId modified ids r queue posted result

/-- What is promised of an archive: it returns or throws; given room, it posts as many blocks as the ids need, which are
read back from them; and without room it throws and posts nothing. -/
def InBlocks (queue : MemQueue Msg) : Prop :=
  ∀ (marketId modified : Int) (ids : List Int), ids ≠ [] → (∀ id ∈ ids, id ≠ 0) →
    (∃ posted result, Archive queue marketId modified ids posted result) ∧
    ∀ posted result, Archive queue marketId modified ids posted result →
      ((ids.length ⌈/⌉ maxIds : Nat) ≤ queue.reserve → ∃ (blocks : List (List Int)) (queue' : MemQueue Msg),
        result = .ok queue' ∧ Calls queue (posted.map .post) (List.replicate posted.length (.posted true)) queue' ∧
        posted = (blocks.map fun ids => .archiveTrade marketId ids (msSinceEpoch modified)) ∧
        blocks.length = ids.length ⌈/⌉ maxIds ∧ (∀ block ∈ blocks, ∃ chunk, Block block chunk) ∧
        (blocks.map fun block => block.takeWhile (· ≠ 0)).flatten = ids) ∧
      (queue.reserve < (ids.length ⌈/⌉ maxIds : Nat) → result = .error queue ∧ posted = [])

section Loop

variable {queue : MemQueue Msg} {r : Range} {posted : List Msg} {result : Except (MemQueue Msg) (MemQueue Msg)}

theorem calls_cons {queue' queue'' : MemQueue Msg} {made : Call Msg} {answer : Answer Msg} {rest : List (Call Msg)}
    {answers : List (Answer Msg)} (ends : Ends queue made answer queue') (run : Calls queue' rest answers queue'') :
    Calls queue (made :: rest) (answer :: answers) queue'' := by
  induction run with
  | nil => exact .snoc .nil ends
  | snoc _ last inductionHypothesis => exact .snoc inductionHypothesis last

/-- The messages are posted one after the other. -/
theorem ArchiveLoop.calls (loop : ArchiveLoop marketId modified ids r queue posted result) {queue' : MemQueue Msg}
    (returned : result = .ok queue') :
    Calls queue (posted.map .post) (List.replicate posted.length (.posted true)) queue' := by
  induction loop with
  | last posted =>
    cases returned
    exact .snoc .nil posted
  | more posted _ _ inductionHypothesis => exact calls_cons posted (inductionHypothesis returned)
  | refused => cases returned

/-- The two results of a loop that has posted these messages. -/
def Agree (mq : MsgQueue) (posted : List Msg) : Except MsgQueue MsgQueue → Except (MemQueue Msg) (MemQueue Msg) → Prop
  | .ok mq', .ok queue' | .error mq', .error queue' => mq'.posted = mq.posted ++ posted ∧ mq'.Represents queue'
  | _, _ => False

theorem Represents.post_true (represents : mq.Represents queue) {msg : Msg} {queue' : MemQueue Msg}
    (ends : Ends queue (.post msg) (.posted true) queue') :
    ∃ mq', mq.post msg = some mq' ∧ mq'.posted = mq.posted ++ [msg] ∧ mq'.Represents queue' := by
  obtain ⟨answered, represents⟩ := represents.ends ends
  by_cases room : mq.size < mq.capacity
  · have posted : mq.post msg = some { mq with posted := mq.posted ++ [msg] } := if_pos room
    simp only [call, posted] at represents
    exact ⟨_, posted, rfl, represents⟩
  · have refused : mq.post msg = none := if_neg room
    simp [call, refused] at answered

theorem Represents.post_false (represents : mq.Represents queue) {msg : Msg} {queue' : MemQueue Msg}
    (ends : Ends queue (.post msg) (.posted false) queue') : mq.post msg = none ∧ mq.Represents queue' := by
  obtain ⟨answered, represents⟩ := represents.ends ends
  by_cases room : mq.size < mq.capacity
  · have posted : mq.post msg = some { mq with posted := mq.posted ++ [msg] } := if_pos room
    simp [call, posted] at answered
  · have refused : mq.post msg = none := if_neg room
    simp only [call, refused] at represents
    exact ⟨refused, represents⟩

/-- The loop does here what it does on the memory queue. -/
theorem Represents.loop (represents : mq.Represents queue)
    (loop : ArchiveLoop marketId modified ids r queue posted result) :
    mq.Agree posted (archiveLoop marketId modified ids r mq) result := by
  induction loop generalizing mq with
  | @last r _ _ posted done =>
    obtain ⟨mq', here, messages, represents⟩ := represents.post_true posted
    have round : mq.doArchiveTrade marketId ((ids.drop r.stepOffset).take r.stepSize) modified = some mq' := here
    rw [archiveLoop]
    simp only [round, done, if_true]
    exact ⟨messages, represents⟩
  | @more r _ _ msgs result posted unfinished rest inductionHypothesis =>
    obtain ⟨mq', here, messages, represents⟩ := represents.post_true posted
    have round : mq.doArchiveTrade marketId ((ids.drop r.stepOffset).take r.stepSize) modified = some mq' := here
    rw [archiveLoop]
    simp only [round, unfinished]
    have later := inductionHypothesis represents
    -- What the rest posts follows the message of this round.
    cases looped : archiveLoop marketId modified ids r.next mq' <;> cases result <;> rw [looped] at later
    all_goals first
      | exact later.elim
      | exact ⟨by rw [later.1, messages, List.append_assoc]; rfl, later.2⟩
  | @refused r _ _ refused =>
    obtain ⟨here, represents⟩ := represents.post_false refused
    have round : mq.doArchiveTrade marketId ((ids.drop r.stepOffset).take r.stepSize) modified = none := here
    rw [archiveLoop]
    simp only [round]
    exact ⟨(List.append_nil _).symm, represents⟩

/-- Where every post returns, the loop comes to its end. -/
theorem loop_returns {I : MemQueue Msg → Prop} (marketId modified : Int) (ids : List Int)
    (returns : ∀ queue msg, I queue → ∃ done queue', Ends queue (.post msg) (.posted done) queue' ∧ (done → I queue'))
    (holds : I queue) (n : Nat) (r : Range) (rest : n = r.size - r.offset) :
    ∃ posted result, ArchiveLoop marketId modified ids r queue posted result := by
  induction n using Nat.strong_induction_on generalizing queue r with
  | _ n inductionHypothesis =>
    obtain ⟨answer, queue', ends, kept⟩ := returns queue (archiveMsg marketId modified ids r) holds
    cases answer with
    | false => exact ⟨_, _, .refused ends⟩
    | true =>
      by_cases done : r.next.done
      · exact ⟨_, _, .last ends done⟩
      · have further : r.offset + maxIds < r.size := not_le.mp fun le => done (decide_eq_true le)
        have width : maxIds = 29 := rfl
        have fewer : r.next.size - r.next.offset < n := by
          show r.size - (r.offset + maxIds) < n
          omega
        obtain ⟨posted, result, loop⟩ := inductionHypothesis _ fewer (kept rfl) r.next rfl
        exact ⟨_, _, .more ends done loop⟩

theorem Represents.post_returns (represents : mq.Represents queue) (msg : Msg) :
    ∃ done queue', Ends queue (.post msg) (.posted done) queue' ∧ (done → ∃ mq' : MsgQueue, mq'.Represents queue') := by
  obtain ⟨answer, queue', ends⟩ : ∃ answer queue', Ends queue (.post msg) answer queue' :=
    MemQueue.ends_of_prompt represents.holding.prompt
  obtain ⟨answered, after⟩ := represents.ends ends
  cases posted : mq.post msg with
  | none =>
    simp only [call, posted] at answered
    exact ⟨false, queue', answered ▸ ends, nofun⟩
  | some mq' =>
    simp only [call, posted] at answered
    exact ⟨true, queue', answered ▸ ends, fun _ => ⟨_, after⟩⟩

/-- On a memory queue that `MsgQueue` stands for, archives keep their promise. -/
theorem Represents.inBlocks (represents : mq.Represents queue) : InBlocks queue := by
  intro marketId modified ids some_ nonzero
  obtain ⟨roomy, full⟩ := archive_blocks mq marketId modified some_ nonzero
  have reserve := represents.reserve
  have steps : Range.steps { size := ids.length, offset := 0 } = ids.length ⌈/⌉ maxIds :=
    (Nat.ceilDiv_eq_add_pred_div _ _).symm
  constructor
  · by_cases short : queue.reserve < (Range.steps { size := ids.length, offset := 0 } : Nat)
    -- It throws at once.
    · exact ⟨[], .error queue, by rw [Archive, if_pos short]; exact ⟨rfl, rfl⟩⟩
    · obtain ⟨posted, result, loop⟩ := loop_returns (I := fun queue => ∃ mq : MsgQueue, mq.Represents queue) marketId modified ids
        (fun _ msg holds => holds.elim fun _ represents => represents.post_returns msg) ⟨mq, represents⟩ _ _ rfl
      exact ⟨posted, result, by rw [Archive, if_neg short]; exact loop⟩
  · intro posted result archived
    rw [Archive, steps] at archived
    constructor
    · intro room
      rw [if_neg (not_lt.mpr room)] at archived
      obtain ⟨blocks, done, count, block, whole⟩ := roomy (by omega)
      -- The idealised loop ends without a throw, and so does this one, with the same messages.
      have agree := represents.loop archived
      have looped : mq.archive marketId ids modified =
          archiveLoop marketId modified ids { size := ids.length, offset := 0 } mq := if_neg (by rw [steps]; omega)
      rw [← looped, done] at agree
      cases result with
      | error queue' => exact agree.elim
      | ok queue' =>
        have messages := List.append_cancel_left agree.1
        exact ⟨blocks, queue', rfl, archived.calls rfl, messages.symm, count, block, whole⟩
    · intro short
      rw [if_pos short] at archived
      exact ⟨archived.2, archived.1⟩

end Loop

/-! ## Queues that number fewer elements than they have -/

section Numbered

variable {asked posts : Nat} {queue : MemQueue Msg} {r : Range} {posted : List Msg}
  {result : Except (MemQueue Msg) (MemQueue Msg)}

/-- A loop that has more rounds to go than there are numbered elements ends in a throw. -/
theorem ArchiveLoop.throws (loop : ArchiveLoop marketId modified ids r queue posted result) (large : 2 ≤ asked)
    (numbered : Numbered asked posts queue) (within : posts ≤ asked) (rounds : r.offset + maxIds * (asked - posts) < r.size) :
    (∃ queue', result = .error queue') ∧ posted.length = asked - posts := by
  induction loop generalizing posts with
  | @last r _ _ ends done =>
    have past : r.size ≤ r.offset + maxIds := of_decide_eq_true done
    obtain ⟨room, -⟩ | ⟨-, refused, -⟩ := numbered.post_ends large within ends
    -- The last round would leave no ids, but there are more than the numbered elements take.
    · have least : maxIds * 1 ≤ maxIds * (asked - posts) := Nat.mul_le_mul_left _ (by omega)
      omega
    · cases refused
  | @more r _ _ msgs result ends unfinished rest inductionHypothesis =>
    obtain ⟨room, -, rfl⟩ | ⟨-, refused, -⟩ := numbered.post_ends large within ends
    · have fewer : maxIds * (asked - posts) = maxIds + maxIds * (asked - (posts + 1)) := by
        rw [show asked - posts = asked - (posts + 1) + 1 by omega, Nat.mul_succ, Nat.add_comm]
      obtain ⟨threw, length⟩ := inductionHypothesis (numbered.posted room _) room
        (by show r.offset + maxIds + maxIds * (asked - (posts + 1)) < r.size; omega)
      exact ⟨threw, by rw [List.length_cons, length]; omega⟩
    · cases refused
  | refused ends =>
    obtain ⟨-, posted, -⟩ | ⟨last, -, -⟩ := numbered.post_ends large within ends
    · cases posted
    · exact ⟨⟨_, rfl⟩, by rw [last]; exact (Nat.sub_self _).symm⟩

/-- A batch of one block more than there are numbered elements. -/
def tooMany (asked : Nat) : List Int := List.replicate (maxIds * asked + 1) 7

theorem steps_tooMany (asked : Nat) : (tooMany asked).length ⌈/⌉ maxIds = asked + 1 := by
  have width : maxIds = 29 := rfl
  rw [tooMany, List.length_replicate, Nat.ceilDiv_eq_add_pred_div, width, Nat.div_eq_iff (by decide)]
  omega

theorem reserve_numbered (numbered : Numbered asked 0 queue) : ((asked + 1 : Nat) : Int) ≤ queue.reserve := by
  have short := numbered.short
  rw [MemQueue.reserve, MemQueue.size, numbered.rpos, numbered.wpos]
  omega

/-- The promise is not kept for that batch. -/
theorem not_inBlocks (large : 2 ≤ asked) (numbered : Numbered asked 0 queue) : ¬ InBlocks queue := by
  intro promised
  have room := reserve_numbered numbered
  obtain ⟨⟨posted, result, archived⟩, kept⟩ := promised 0 0 (tooMany asked) (by simp [tooMany])
    (fun id member => by rw [List.eq_of_mem_replicate member]; decide)
  have steps : Range.steps { size := (tooMany asked).length, offset := 0 } = asked + 1 :=
    (Nat.ceilDiv_eq_add_pred_div _ _).symm.trans (steps_tooMany asked)
  obtain ⟨blocks, queue', returned, -⟩ := (kept posted result archived).1 (by rw [steps_tooMany]; exact room)
  rw [Archive, steps, if_neg (not_lt.mpr room)] at archived
  obtain ⟨⟨queue'', threw⟩, -⟩ := archived.throws large numbered (Nat.zero_le _)
    (by simp only [tooMany, List.length_replicate, Nat.sub_zero]; omega)
  cases returned.symm.trans threw

end Numbered

/-- Archives keep their promise in every state of a queue exactly when it was asked for a power of two up to `2 ^ 30`. -/
theorem archive_blocks_iff (asked : UInt64) (large : 2 ≤ asked.toNat) (zero : Msg) :
    (∃ start, MemQueue.make asked zero = some start ∧
      ∀ made results queue, Calls start made results queue → InBlocks queue) ↔ ∃ k ≤ 30, asked.toNat = 2 ^ k := by
  constructor
  · rintro ⟨start, made, promised⟩
    by_contra other
    cases rounded : MemCtx.nextPow2 asked with
    | none => rw [MemQueue.make, MemQueue.ring, RingSize.make, rounded] at made; cases made
    | some p =>
      cases made.symm.trans (MemQueue.make_eq rounded)
      exact not_inBlocks large (MemQueue.make_other large other rounded) (promised [] [] _ .nil)
  · rintro ⟨k, small, power⟩
    obtain ⟨start, made, represents⟩ := represents_make (MemQueue.one_le_exponent large power) small power zero
    exact ⟨start, made, fun _ _ _ run => (represents.calls run).2.inBlocks⟩

/-- In a queue of four elements that holds a message, thirty ids take two more. -/
theorem archive_thirty : ∃ start queue posted result, MemQueue.make 4 (.updateMarket 0 0) = some start ∧
    Calls start [.post (.updateMarket 1 0)] [.posted true] queue ∧
    Archive queue 1 0 (List.replicate 30 7) posted result ∧ posted.length = 2 := by
  obtain ⟨start, made, promised⟩ :=
    (archive_blocks_iff 4 (by decide +kernel) (.updateMarket 0 0)).mpr ⟨2, by decide, by decide +kernel⟩
  obtain ⟨start', made', represents⟩ :=
    @represents_make 4 2 (by decide) (by decide) (by decide +kernel) (.updateMarket 0 0)
  cases made.symm.trans made'
  obtain ⟨answer, queue, ends⟩ : ∃ answer queue, Ends start (.post (.updateMarket 1 0)) answer queue :=
    MemQueue.ends_of_prompt represents.holding.prompt
  obtain ⟨answered, after⟩ := represents.ends ends
  cases (show answer = .posted true from answered)
  have run : Calls start [.post (.updateMarket 1 0)] [.posted true] queue := .snoc .nil ends
  obtain ⟨⟨posted, result, archived⟩, kept⟩ := promised _ _ queue run 1 0 (List.replicate 30 7) (by decide) (by decide)
  have room : (((List.replicate 30 (7 : Int)).length ⌈/⌉ maxIds : Nat) : Int) ≤ queue.reserve := by
    rw [← after.reserve]
    decide
  obtain ⟨blocks, queue', -, -, messages, count, -⟩ := (kept posted result archived).1 room
  refine ⟨start, queue, posted, result, made, run, archived, ?_⟩
  rw [messages, List.length_map, count]
  decide

/-- A queue that is asked for three elements has four, and an archive that needs four messages posts three and throws. -/
theorem archive_half_posted : ∃ start queue posted, MemQueue.make 3 (.updateMarket 0 0) = some start ∧
    start.reserve = 4 ∧ (List.replicate 88 (7 : Int)).length ⌈/⌉ maxIds = 4 ∧
    Archive start 1 0 (List.replicate 88 7) posted (.error queue) ∧ posted.length = 3 ∧ ¬ InBlocks start := by
  have rounded : MemCtx.nextPow2 3 = some 4 := by decide +kernel
  have numbered : Numbered 3 0 (MemQueue.ofSize 4 3 (Msg.updateMarket 0 0)) :=
    MemQueue.numbered_ofSize (by decide) (by decide) (by decide) _
  obtain ⟨posted, result, loop⟩ := loop_returns
    (I := fun queue => ∃ posts ≤ 3, Numbered 3 posts queue) 1 0 (tooMany 3)
    (fun queue msg holds => by
      obtain ⟨posts, within, numbered⟩ := holds
      obtain ⟨answer, queue', ends⟩ := numbered.post_returns (by decide) within msg
      obtain ⟨room, rfl, rfl⟩ | ⟨last, rfl, rfl⟩ := numbered.post_ends (by decide) within ends
      · exact ⟨true, _, ends, fun _ => ⟨posts + 1, room, numbered.posted room msg⟩⟩
      · exact ⟨false, _, ends, nofun⟩)
    ⟨0, by decide, numbered⟩ _ { size := (tooMany 3).length, offset := 0 } rfl
  obtain ⟨⟨queue, threw⟩, length⟩ := loop.throws (by decide) numbered (by decide) (by decide)
  rw [threw] at loop
  have reserve : (MemQueue.ofSize 4 3 (Msg.updateMarket 0 0)).reserve = 4 := rfl
  refine ⟨.ofSize 4 3 _, queue, posted, MemQueue.make_eq rounded, reserve, by decide, ?_, length,
    not_inBlocks (by decide) numbered⟩
  rw [Archive, if_neg (by rw [reserve]; decide)]
  exact loop

end MsgQueue

end Swirly
