import Swirly.Db.SqliteModel
import Swirly.Lib.Chronicle
import Swirly.Verified.Indexes
import Swirly.Verified.RowKeys

/-!
# Live trades in the database

The live trades are the trades that are journaled and in no block of archived ids; so are the rows that the trade `SELECT`
returns.  The blocks of a list, each ended by its first zero, come to the list.
-/

namespace Swirly

open Function

def Msg.tradeKey : Msg → Option IdKey
  | .createExec body => if body.state = .trade then some (idKey body.marketId body.id) else none
  | _ => none

/-- A block archives trades that have been journaled, and that no block has archived. -/
def Msg.Archives (before : List Msg) : Msg → Prop
  | .archiveTrade m ids _ => ∃ block, ids = MsgQueue.padIds block ∧
      ∀ id ∈ block, id ≠ 0 ∧ idKey m id ∈ before.filterMap Msg.tradeKey ∧ idKey m id ∉ before.flatMap Msg.archived
  | _ => True

/-- The padding ends the block. -/
theorem takeWhile_padIds {block : List Int} (nonzero : ∀ id ∈ block, id ≠ 0) :
    (MsgQueue.padIds block).takeWhile (· ≠ 0) = block := by
  have padding : (List.replicate (maxIds - block.length) (0 : Int)).takeWhile (· ≠ 0) = [] := by
    cases maxIds - block.length <;> simp [List.replicate_succ]
  rw [MsgQueue.padIds, List.takeWhile_append_of_pos (by simpa using nonzero), padding, List.append_nil]

theorem mem_padIds {block : List Int} {id : Int} (nonzero : id ≠ 0) : id ∈ MsgQueue.padIds block ↔ id ∈ block := by
  simp [MsgQueue.padIds, nonzero]

namespace SqliteJourn

theorem find_archive (db : Db) (m modified id : Int) (k : IdKey) :
    (archive db m modified id).execs.find k = if k = idKey m id then
      (db.execs.find k).map fun row => { row with archive := some modified } else db.execs.find k := by
  rw [archive]
  split
  next absent =>
    split
    next here => rw [here, absent]; rfl
    next => rfl
  next row found =>
    rw [OrdMap.find_put]
    split
    next here => rw [here, found]; rfl
    next => rfl

/-- After the update of a block, the rows of its ids carry its time. -/
theorem find_archiveTrade (db : Db) (m : Int) (ids : List Int) (modified : Int) (k : IdKey) :
    (archiveTrade db m ids modified).execs.find k = if k ∈ (ids.takeWhile (· ≠ 0)).map (idKey m) then
      (db.execs.find k).map fun row => { row with archive := some modified } else db.execs.find k := by
  rw [archiveTrade]
  induction ids.takeWhile (· ≠ 0) generalizing db with
  | nil => rfl
  | cons id taken inductionHypothesis =>
    rw [List.foldl_cons, inductionHypothesis, find_archive]
    by_cases here : k = idKey m id
    · cases db.execs.find k <;> simp [here]
    · simp [here]

end SqliteJourn

/-! ## The rows -/

variable {db db' : Db} {msg : Msg} {msgs more : List Msg}

/-- What the messages leave in `exec_t`. -/
structure Rows (msgs : List Msg) (db : Db) : Prop where
  inserted : ∀ body, .createExec body ∈ msgs → ∃ row seqId, db.execs.find (idKey body.marketId body.id) = some row ∧
    row.unarchived = { SqliteJourn.execRow body with seqId }
  origin : ∀ k, (db.execs.find k).isSome → ∃ body, .createExec body ∈ msgs ∧ idKey body.marketId body.id = k
  archive : ∀ k row, db.execs.find k = some row → (row.archive = none ↔ k ∉ msgs.flatMap Msg.archived)
  time : ∀ m ids modified, .archiveTrade m ids modified ∈ msgs → ∀ id ∈ ids, id ≠ 0 →
    ∃ row, db.execs.find (idKey m id) = some row ∧ row.archive = some modified

theorem Rows.empty : Rows [] Db.empty where
  inserted _ member := by cases member
  origin _ present := by cases present
  archive _ _ found := by cases found
  time _ _ _ member := by cases member

/-- A message about a market. -/
theorem Rows.congr (rows : Rows msgs db) (execs : db'.execs = db.execs) (noExec : ∀ body, msg ≠ .createExec body)
    (noArchive : ∀ m ids modified, msg ≠ .archiveTrade m ids modified) : Rows (msgs ++ [msg]) db' := by
  have archived : (msgs ++ [msg]).flatMap Msg.archived = msgs.flatMap Msg.archived := by
    cases msg with
    | createMarket | updateMarket => simp [Msg.archived]
    | createExec body => exact absurd rfl (noExec body)
    | archiveTrade m ids modified => exact absurd rfl (noArchive m ids modified)
  refine ⟨fun body member => ?_, fun k present => ?_, fun k row found => ?_, fun m ids modified member => ?_⟩
  · rw [execs]
    exact rows.inserted body ((List.mem_append.mp member).resolve_right fun last =>
      noExec body (List.mem_singleton.mp last).symm)
  · rw [execs] at present
    obtain ⟨body, member, key⟩ := rows.origin k present
    exact ⟨body, List.mem_append_left _ member, key⟩
  · rw [execs] at found
    rw [archived]
    exact rows.archive k row found
  · rw [execs]
    exact rows.time m ids modified ((List.mem_append.mp member).resolve_right fun last =>
      noArchive m ids modified (List.mem_singleton.mp last).symm)

/-- A key that a block archives is that of a row. -/
theorem Rows.present (rows : Rows msgs db) {k : IdKey} (archived : k ∈ msgs.flatMap Msg.archived) :
    (db.execs.find k).isSome := by
  obtain ⟨msg, member, key⟩ := List.mem_flatMap.mp archived
  cases msg with
  | archiveTrade m ids modified =>
    obtain ⟨id, inside, rfl⟩ := List.mem_map.mp key
    obtain ⟨listed, nonzero⟩ := List.mem_filter.mp inside
    obtain ⟨row, found, -⟩ := rows.time m ids modified member id listed (of_decide_eq_true nonzero)
    rw [found]
    rfl
  | createMarket | updateMarket | createExec => cases key

/-- A row is that of its message. -/
theorem Rows.found (rows : Rows msgs db) {k : IdKey} {row : ExecRow} (found : db.execs.find k = some row) :
    ∃ body, .createExec body ∈ msgs ∧ idKey body.marketId body.id = k ∧ row.accnt = toStringView body.accnt ∧
      row.marketId = body.marketId ∧ row.id = body.id ∧ row.state = body.state := by
  obtain ⟨body, told, key⟩ := rows.origin k (by rw [found]; rfl)
  obtain ⟨own, seqId, there, same⟩ := rows.inserted body told
  obtain rfl : row = own := Option.some.inj (found.symm.trans (key ▸ there))
  have field {α : Type} (f : ExecRow → α) : f row.unarchived = f { SqliteJourn.execRow body with seqId } := congrArg f same
  exact ⟨body, told, key, field ExecRow.accnt, field ExecRow.marketId, field ExecRow.id, field ExecRow.state⟩

theorem Rows.createExec {body : CreateExec} (rows : Rows msgs db)
    (written : SqliteJourn.write db (.createExec body) = some db') : Rows (msgs ++ [.createExec body]) db' := by
  obtain ⟨fresh, execs, -⟩ := Db.insertExec_execs (show db.insertExec (SqliteJourn.execRow body) = some db' from written)
  rw [show (SqliteJourn.execRow body).key = idKey body.marketId body.id from rfl] at fresh execs
  have others : ∀ {k : IdKey}, (db.execs.find k).isSome → db'.execs.find k = db.execs.find k := by
    intro k present
    rw [execs, OrdMap.find_put_ne _ _ fun here => ?_]
    rw [here, fresh] at present
    cases present
  refine ⟨fun other member => ?_, fun k present => ?_, fun k row found => ?_, fun m ids modified member id listed nonzero => ?_⟩
  · cases List.mem_append.mp member with
    | inl before =>
      obtain ⟨row, seqId, found, same⟩ := rows.inserted other before
      exact ⟨row, seqId, (others (by rw [found]; rfl)).trans found, same⟩
    | inr last =>
      obtain rfl : other = body := Msg.createExec.inj (List.mem_singleton.mp last)
      refine ⟨{ SqliteJourn.execRow other with seqId := some (db.nextSeq (SqliteJourn.execRow other).accnt) }, some _, ?_, rfl⟩
      rw [execs, OrdMap.find_put_self]
  · rw [execs, OrdMap.find_put] at present
    split at present
    next here => exact ⟨body, List.mem_append_right _ (List.mem_singleton_self _), here.symm⟩
    next =>
      obtain ⟨other, member, key⟩ := rows.origin k present
      exact ⟨other, List.mem_append_left _ member, key⟩
  · rw [List.flatMap_append, show [Msg.createExec body].flatMap Msg.archived = [] from rfl, List.append_nil]
    rw [execs, OrdMap.find_put] at found
    split at found
    next here =>
      cases found
      -- The trade would have been there when it was archived.
      refine iff_of_true rfl fun archived => ?_
      have present := rows.present archived
      rw [here, fresh] at present
      cases present
    next => exact rows.archive k row found
  · have before := (List.mem_append.mp member).resolve_right fun last => nomatch List.mem_singleton.mp last
    obtain ⟨row, found, time⟩ := rows.time m ids modified before id listed nonzero
    exact ⟨row, (others (by rw [found]; rfl)).trans found, time⟩

theorem Rows.archiveTrade {m modified : Int} {ids : List Int} (rows : Rows msgs db)
    (archives : (Msg.archiveTrade m ids modified).Archives msgs) :
    Rows (msgs ++ [.archiveTrade m ids modified]) (SqliteJourn.archiveTrade db m ids modified) := by
  obtain ⟨block, rfl, fits⟩ := archives
  have taken := takeWhile_padIds fun id member => (fits id member).1
  have archived : (msgs ++ [Msg.archiveTrade m (MsgQueue.padIds block) modified]).flatMap Msg.archived =
      msgs.flatMap Msg.archived ++ block.map (idKey m) := by
    have nonzero : (block.filter fun id => id ≠ 0) = block := List.filter_eq_self.mpr fun id member =>
      decide_eq_true (fits id member).1
    rw [List.flatMap_append, List.flatMap_singleton, Msg.archived, MsgQueue.filter_padIds, nonzero]
  have find := SqliteJourn.find_archiveTrade db m (MsgQueue.padIds block) modified
  rw [taken] at find
  refine ⟨fun body member => ?_, fun k present => ?_, fun k row found => ?_, fun n ids t member id listed nonzero => ?_⟩
  · have before := (List.mem_append.mp member).resolve_right fun last => by cases List.mem_singleton.mp last
    obtain ⟨row, seqId, found, same⟩ := rows.inserted body before
    rw [find, found]
    split
    next => exact ⟨_, seqId, rfl, same⟩
    next => exact ⟨row, seqId, rfl, same⟩
  · have before : (db.execs.find k).isSome := by
      rw [find] at present
      split at present
      next => rwa [Option.isSome_map] at present
      next => exact present
    obtain ⟨body, member, key⟩ := rows.origin k before
    exact ⟨body, List.mem_append_left _ member, key⟩
  · rw [archived, List.mem_append, not_or]
    rw [find] at found
    split at found
    next here =>
      obtain ⟨old, -, rfl⟩ := Option.map_eq_some_iff.mp found
      exact iff_of_false (by rintro ⟨⟩) fun kept => kept.2 here
    next there =>
      rw [rows.archive k row found]
      exact (and_iff_left there).symm
  · rw [find]
    cases List.mem_append.mp member with
    | inl before =>
      obtain ⟨row, found, time⟩ := rows.time n ids t before id listed nonzero
      rw [if_neg fun here => ?_]
      · exact ⟨row, found, time⟩
      · -- A trade that is archived already is not in the block.
        obtain ⟨i, inside, key⟩ := List.mem_map.mp here
        refine (fits i inside).2.2 (key ▸ List.mem_flatMap.mpr ⟨_, before, ?_⟩)
        exact List.mem_map_of_mem (List.mem_filter.mpr ⟨listed, decide_eq_true nonzero⟩)
    | inr last =>
      obtain ⟨rfl, rfl, rfl⟩ := Msg.archiveTrade.inj (List.mem_singleton.mp last)
      have inside := (mem_padIds nonzero).mp listed
      rw [if_pos (List.mem_map_of_mem inside)]
      obtain ⟨msg, told, key⟩ := List.mem_filterMap.mp (fits id inside).2.1
      cases msg with
      | createExec body =>
        simp only [Msg.tradeKey] at key
        split at key
        next =>
          obtain ⟨row, seqId, found, -⟩ := rows.inserted body told
          rw [← Option.some.inj key, found]
          exact ⟨_, rfl, rfl⟩
        next => cases key
      | createMarket | updateMarket | archiveTrade => cases key

/-- The rows after all messages. -/
theorem Rows.run {Allowed : Db → Msg → Prop} (run : Run SqliteJourn.write Allowed Db.empty msgs db)
    (orderly : Chronicle Msg.Archives msgs) : Rows msgs db := by
  refine run.invariant_history (I := fun msgs db => Chronicle Msg.Archives msgs → Rows msgs db)
    (fun msgs db msg db' kept _ written orderly => ?_) (fun _ => .empty) orderly
  have rows := kept orderly.initial
  cases msg with
  | createMarket id instr settlDay state =>
    refine rows.congr ?_ (by simp) (by simp)
    simp only [SqliteJourn.write, SqliteJourn.createMarket] at written
    split at written
    next => cases written
    next => cases written; rfl
  | updateMarket id state =>
    refine rows.congr ?_ (by simp) (by simp)
    cases written
    rw [SqliteJourn.updateMarket]
    split <;> rfl
  | createExec body => exact rows.createExec written
  | archiveTrade m ids modified =>
    cases written
    exact rows.archiveTrade orderly.last

/-! ## The live trades -/

/-- Archiving by reference is for a live trade of the session. -/
def Op.ArchivesOwn (app : App) : Op → Prop
  | .archiveExec a e _ => (app.sess a).trades.find (app.exec e).key = some e
  | _ => True

instance (app : App) (op : Op) : Decidable (op.ArchivesOwn app) :=
  match op with
  | .archiveExec a e _ => inferInstanceAs (Decidable ((app.sess a).trades.find (app.exec e).key = some e))
  | .sess .. | .createMarket .. | .updateMarket .. | .createOrder .. | .changeOrder .. | .createTrade ..
  | .archiveTrade .. | .archiveTrades .. | .pop => .isTrue trivial

namespace App

variable {app app' app₀ : App} {op : Op} {news : List Exec} {es : List ExecPtr}

/-- The trades that are stored are those that have been journaled, apart from their stamps. -/
structure TradesPosted (app : App) : Prop where
  posted : ∀ e, app.Trade e → ∃ x : Exec, x.unstamped = (app.exec e).unstamped ∧
    .createExec (MsgQueue.execBody x) ∈ app.mq.posted
  stored : ∀ body, .createExec body ∈ app.mq.posted → body.state = .trade →
    ∃ e x, app.Trade e ∧ x.unstamped = (app.exec e).unstamped ∧ body = MsgQueue.execBody x

theorem TradesPosted.idle (trades : app.TradesPosted) (idle : app.Idle app') : app'.TradesPosted := by
  obtain ⟨msgs, posted, silent⟩ := idle.silent
  obtain ⟨exec, trade⟩ := Trade.congr idle.execs
  refine ⟨fun e tradeE => ?_, fun body member state => ?_⟩
  · obtain ⟨x, same, told⟩ := trades.posted e ((trade e).mp tradeE)
    rw [exec, posted]
    exact ⟨x, same, List.mem_append_left _ told⟩
  · rw [posted] at member
    obtain ⟨e, x, tradeE, same, made⟩ :=
      trades.stored body ((List.mem_append.mp member).resolve_right (silent body)) state
    exact ⟨e, x, (trade e).mpr tradeE, by rw [exec, same], made⟩

theorem TradesPosted.filed (trades : app.TradesPosted) (filed : Filed app app' news es) : app'.TradesPosted := by
  have posted : app'.mq.posted = app.mq.posted ++ news.map fun x => .createExec (MsgQueue.execBody x) :=
    congrArg MsgQueue.posted filed.journaled
  refine ⟨fun e trade => ?_, fun body member state => ?_⟩
  · rw [posted]
    cases filed.classify trade.present with
    | inl old =>
      obtain ⟨-, present, same⟩ := old
      have state : (app.exec e).state = .trade := by
        rw [← trade.state, Exec.eq_posn same]
        rfl
      obtain ⟨x, before, told⟩ := trades.posted e ⟨present, state⟩
      exact ⟨x, before.trans same.symm, List.mem_append_left _ told⟩
    | inr new =>
      obtain ⟨i, x, rfl, at_i, same⟩ := new
      exact ⟨x, same.symm, List.mem_append_right _ (List.mem_map_of_mem (List.mem_of_getElem? at_i))⟩
  · rw [posted] at member
    cases List.mem_append.mp member with
    | inl before =>
      obtain ⟨e, x, trade, same, made⟩ := trades.stored body before state
      obtain ⟨y, found⟩ := Option.isSome_iff_exists.mp trade.present
      obtain ⟨live, kept⟩ := filed.old (OrdMap.lt_fresh found)
      refine ⟨e, x, ⟨live.trans trade.present, ?_⟩, same.trans kept.symm, made⟩
      rw [Exec.eq_posn kept]
      exact trade.state
    | inr new =>
      obtain ⟨x, inside, made⟩ := List.mem_map.mp new
      obtain rfl : MsgQueue.execBody x = body := Msg.createExec.inj made
      obtain ⟨i, at_i⟩ := List.mem_iff_getElem?.mp inside
      obtain ⟨present, lots, cost, stored⟩ := filed.stored at_i
      refine ⟨_, x, ⟨present, ?_⟩, ?_, rfl⟩
      · rw [stored]
        exact state
      · rw [stored]
        rfl

theorem TradesPosted.step (inv : app.Inv) (trades : app.TradesPosted) (stepped : app.step op = some app') :
    app'.TradesPosted := by
  cases (step_filing inv stepped).cases with
  | inl idle => exact trades.idle idle
  | inr reported =>
    obtain ⟨news, es, m, filed, -⟩ := reported
    exact trades.filed filed

/-- The blocks of a step archive live trades. -/
theorem archives_blocks {m modified : Int} {blocks : List (List Int)} (msgs : List Msg) (orderly : Chronicle Msg.Archives msgs)
    (live : ∀ id ∈ blocks.flatten, id ≠ 0 ∧ idKey m id ∈ msgs.filterMap Msg.tradeKey ∧ idKey m id ∉ msgs.flatMap Msg.archived)
    (nodup : blocks.flatten.Nodup) : Chronicle Msg.Archives (msgs ++ archiveMsgs m modified blocks) := by
  induction blocks generalizing msgs with
  | nil => rwa [archiveMsgs, List.map_nil, List.append_nil]
  | cons block blocks inductionHypothesis =>
    rw [List.flatten_cons] at live nodup
    obtain ⟨-, nodup, apart⟩ := List.nodup_append.mp nodup
    obtain ⟨own, later⟩ := List.forall_mem_append.mp live
    have next : Chronicle Msg.Archives (msgs ++ [.archiveTrade m (MsgQueue.padIds block) (msSinceEpoch modified)]) :=
      orderly.snoc ⟨block, rfl, own⟩
    have split : archiveMsgs m modified (block :: blocks) =
        [.archiveTrade m (MsgQueue.padIds block) (msSinceEpoch modified)] ++ archiveMsgs m modified blocks := rfl
    rw [split, ← List.append_assoc]
    refine inductionHypothesis _ next (fun id member => ?_) nodup
    obtain ⟨nonzero, told, kept⟩ := later id member
    refine ⟨nonzero, ?_, ?_⟩
    · rw [List.filterMap_append]
      exact List.mem_append_left _ told
    · rw [List.flatMap_append, List.mem_append, not_or]
      refine ⟨kept, fun here => ?_⟩
      rw [List.flatMap_singleton, Msg.archived, MsgQueue.filter_padIds] at here
      obtain ⟨i, inside, key⟩ := List.mem_map.mp here
      exact apart i (List.mem_filter.mp inside).1 id member (idKey_inj.mp key).2

/-- Messages that archive nothing. -/
theorem archives_append {msgs more : List Msg} (orderly : Chronicle Msg.Archives msgs)
    (others : ∀ msg ∈ more, ∀ m ids modified, msg ≠ .archiveTrade m ids modified) : Chronicle Msg.Archives (msgs ++ more) := by
  refine orderly.append fun before msg after split => ?_
  have other := others msg (by rw [split]; exact List.mem_append_right _ List.mem_cons_self)
  cases msg with
  | archiveTrade m ids modified => exact absurd rfl (other m ids modified)
  | createMarket | updateMarket | createExec => trivial

/-- What a run keeps of its trades. -/
structure Archiving (app : App) : Prop where
  inv : app.Inv
  sound : app.TradesSound
  indexed : app.TradesIndexed
  posted : app.TradesPosted
  issued : Issued app.mq.posted app
  announced : Announced app.mq.posted app
  orderly : Chronicle Msg.Archives app.mq.posted

/-- The trade that is archived is a live one. -/
theorem Archiving.live (archiving : app.Archiving) (own : op.ArchivesOwn app) {a : Symbol} {m id : Int}
    (owner : (∃ k e, (app.view.trades a).find k = some e ∧ (k = idKey m id ∨ (app.exec e).key = idKey m id)) ∨
      ∃ e now, op = .archiveExec a e now ∧ (app.exec e).key = idKey m id) :
    id ≠ 0 ∧ idKey m id ∈ app.mq.posted.filterMap Msg.tradeKey ∧ idKey m id ∉ app.mq.posted.flatMap Msg.archived := by
  have found : ∃ e, (app.view.trades a).find (idKey m id) = some e := by
    cases owner with
    | inl listed =>
      obtain ⟨k, e, found, either⟩ := listed
      obtain ⟨-, -, key⟩ := archiving.sound.indexed a k e found
      cases either with
      | inl same => exact ⟨e, same ▸ found⟩
      | inr same => exact ⟨e, same ▸ key.symm ▸ found⟩
    | inr given =>
      obtain ⟨e, now, rfl, key⟩ := given
      exact ⟨e, key ▸ own⟩
  obtain ⟨e, found⟩ := found
  obtain ⟨trade, -, key, kept⟩ := (archiving.indexed.find a _ e).mp found
  refine ⟨?_, ?_, kept⟩
  · have bounded := (archiving.sound.bounded e trade).1
    rw [(idKey_inj.mp key).2] at bounded
    omega
  · obtain ⟨x, same, told⟩ := archiving.posted.posted e trade
    refine List.mem_filterMap.mpr ⟨_, told, ?_⟩
    have whole := Exec.eq_posn same
    have state : (MsgQueue.execBody x).state = .trade := by
      rw [whole]
      exact trade.state
    rw [Msg.tradeKey, if_pos state, ← key, whole]
    rfl

theorem Archiving.step (archiving : app.Archiving) (inMarket : op.InMarket app) (own : op.ArchivesOwn app)
    (stepped : app.step op = some app') : app'.Archiving := by
  obtain ⟨inv, sound, indexed, posted, issued, announced, orderly⟩ := archiving
  have posting := step_posting inv inMarket stepped
  have messages : ∃ more, app'.mq.posted = app.mq.posted ++ more ∧ Chronicle Msg.Archives (app.mq.posted ++ more) := by
    cases posting with
    | same mq grown => exact ⟨[], by rw [mq, List.append_nil], by rwa [List.append_nil]⟩
    | opened unlisted listed same grown => exact ⟨_, same.posted, archives_append orderly (by simp)⟩
    | updated same grown => exact ⟨_, same.posted, archives_append orderly (by simp)⟩
    | allotted allots => exact ⟨_, congrArg MsgQueue.posted allots.journaled, archives_append orderly (by simp)⟩
    | archived same owner nodup grown =>
      refine ⟨_, same.posted, archives_blocks _ orderly (fun id member => ?_) nodup⟩
      exact Archiving.live ⟨inv, sound, indexed, posted, issued, announced, orderly⟩ own (owner id member)
    | popped pops mq grown => exact ⟨[], by rw [mq, MsgQueue.posted_pop, List.append_nil], by rwa [List.append_nil]⟩
  obtain ⟨more, same, next⟩ := messages
  exact
    { inv := inv.step stepped
      sound := sound.step inv stepped
      indexed := indexed.step inv sound (fun a e now archives => by
        subst archives
        exact (sound.indexed a _ e own).2.1) stepped
      posted := posted.step inv stepped
      issued := by
        rw [same]
        exact issued.step inv inMarket stepped same
      announced := by
        rw [same]
        exact announced.step inv inMarket stepped same
      orderly := by
        rw [same]
        exact next }

theorem archiving_make (capacity maxExecs : Nat) : (App.make capacity maxExecs).Archiving where
  inv := .make capacity maxExecs
  sound := tradesSound_make capacity maxExecs
  indexed := tradesIndexed_make capacity maxExecs
  posted := ⟨(fun _ trade => by cases trade.present), (fun _ member => by cases member)⟩
  issued := ⟨(fun _ member => by cases member), List.nodup_nil, (fun _ member => by cases member)⟩
  announced := ⟨List.nodup_nil, (fun _ member => by cases member)⟩
  orderly := .nil

/-- The rows show the live trades, and when the others were archived. -/
structure Persisted (app : App) (db : Db) : Prop where
  selected : ∀ rows, db.SelectsTrades rows → ∀ accnt m id,
    (∃ row ∈ rows, (row.accnt, row.marketId, row.id) = (accnt, m, id)) ↔
      ∃ a e, toStringView a.buf = accnt ∧ (app.sess a).trades.find (idKey m id) = some e
  archived : ∀ m ids modified, .archiveTrade m ids modified ∈ app.mq.posted → ∀ id ∈ ids, id ≠ 0 →
    ∃ row, db.execs.find (idKey m id) = some row ∧ row.state = .trade ∧ row.archive = some modified

/-- The row of a live trade, and the live trade of a row. -/
theorem Archiving.persisted (archiving : app.Archiving) {db : Db} (rows : Rows app.mq.posted db) : Persisted app db where
  selected := by
    intro selected selects accnt m id
    constructor
    · intro shown
      obtain ⟨row, member, same⟩ := shown
      obtain ⟨inside, state, kept⟩ : row ∈ db.execs.entries.map Prod.snd ∧ row.state = .trade ∧ row.archive = none := by
        simpa using List.mem_filter.mp (selects.mem_iff.mp member)
      obtain ⟨⟨k, r⟩, entry, rfl⟩ := List.mem_map.mp inside
      have found : db.execs.find k = some r := OrdMap.mem_entries.mp entry
      obtain ⟨body, told, key, accnt', market', id', state'⟩ := rows.found found
      obtain ⟨e, x, trade, unstamped, rfl⟩ := archiving.posted.stored body told (state'.symm.trans state)
      obtain ⟨rfl, rfl, rfl⟩ : r.accnt = accnt ∧ r.marketId = m ∧ r.id = id := by simpa using same
      have exec := Exec.eq_posn unstamped.symm
      refine ⟨(app.exec e).accnt, e, ?_, (archiving.indexed.find _ _ e).mpr ⟨trade, rfl, ?_, ?_⟩⟩
      · rw [accnt', exec]
        rfl
      · rw [market', id', exec]
        rfl
      · rw [market', id', key]
        exact (rows.archive k r found).mp kept
    · intro live
      obtain ⟨a, e, rfl, found⟩ := live
      obtain ⟨trade, rfl, key, kept⟩ := (archiving.indexed.find a _ e).mp found
      obtain ⟨x, same, told⟩ := archiving.posted.posted e trade
      have exec := Exec.eq_posn same.symm
      have key' : idKey x.marketId x.id = idKey m id := by
        rw [← key, exec]
        rfl
      obtain ⟨r, seqId, there, row⟩ := rows.inserted _ told
      have found' : db.execs.find (idKey m id) = some r := key' ▸ there
      have field {α : Type} (f : ExecRow → α) :
          f r.unarchived = f { SqliteJourn.execRow (MsgQueue.execBody x) with seqId } := congrArg f row
      have state : r.state = .trade := by
        rw [show r.state = x.state from field ExecRow.state, ← trade.state, exec]
        rfl
      refine ⟨r, selects.mem_iff.mpr (List.mem_filter.mpr ⟨?_, ?_⟩), ?_⟩
      · exact List.mem_map_of_mem (OrdMap.mem_entries.mpr found')
      · simpa using ⟨state, (rows.archive _ r found').mpr kept⟩
      · obtain ⟨rfl, rfl⟩ := idKey_inj.mp key'
        rw [show r.accnt = toStringView x.accnt.buf from field ExecRow.accnt,
          show r.marketId = x.marketId from field ExecRow.marketId, show r.id = x.id from field ExecRow.id, exec]
        rfl
  archived := by
    intro m ids modified member id listed nonzero
    obtain ⟨row, found, time⟩ := rows.time m ids modified member id listed nonzero
    refine ⟨row, found, ?_, time⟩
    obtain ⟨body, told, key, -, -, -, state⟩ := rows.found found
    obtain ⟨before, after, split, block, rfl, fits⟩ := archiving.orderly.of_mem member
    -- The block names a trade, and no other execution has its key.
    obtain ⟨-, isTrade, -⟩ := fits id ((mem_padIds nonzero).mp listed)
    obtain ⟨msg, earlier, tradeKey⟩ := List.mem_filterMap.mp isTrade
    cases msg with
    | createExec other =>
      simp only [Msg.tradeKey] at tradeKey
      split at tradeKey
      next isTrade =>
        obtain ⟨r, seqId, there, same⟩ := rows.inserted other (by rw [split]; exact List.mem_append_left _ earlier)
        obtain rfl : row = r := Option.some.inj (found.symm.trans (Option.some.inj tradeKey ▸ there))
        calc row.state = row.unarchived.state := rfl
          _ = other.state := by rw [same]; rfl
          _ = .trade := isTrade
      next => cases tradeKey
    | createMarket | updateMarket | archiveTrade => cases tradeKey

/-- Over every run whose calls name orders of their market and live trades, the journal is written and the rows that the
trade `SELECT` returns are the live trades; the row of an archived trade has the time of its message. -/
theorem trades_persisted {capacity maxExecs : Nat} {ops : List Op}
    (run : Run App.step (fun app op => op.InMarket app ∧ op.ArchivesOwn app) (App.make capacity maxExecs) ops app) :
    ∃ db, Run SqliteJourn.write (fun _ _ => True) Db.empty app.mq.posted db ∧ Persisted app db := by
  have archiving : app.Archiving := run.invariant
    (fun app op app' archiving allowed stepped => archiving.step allowed.1 allowed.2 stepped) (archiving_make capacity maxExecs)
  obtain ⟨db, written, -⟩ := archiving.issued.distinct.written archiving.announced.nodup
  exact ⟨db, written, archiving.persisted (.run written archiving.orderly)⟩

/-- Trades of two markets with the same ids, of which some are archived by their ids. -/
theorem trades_persisted_some :
    let a : Symbol := .assign (bytes "MARAYL")
    let b : Symbol := .assign (bytes "GOSAYL")
    let m := toMarketId 1 0
    let n := toMarketId 2 0
    ∃ app db, Run App.step (fun app op => op.InMarket app ∧ op.ArchivesOwn app) (App.make 16 16)
        [.createMarket 1 (.assign (bytes "EURUSD")) 0 0 0, .createMarket 2 (.assign (bytes "GBPUSD")) 0 0 0,
          .createOrder a m [] .sell 10 5 0 2 0, .createOrder b m [] .buy 3 5 0 3 0,
          .createTrade a n [] .buy 4 7 .none b 4, .createTrade a n [] .buy 2 7 .none default 4,
          .archiveTrades a n [1, 3] 5000000, .archiveTrade b m 4 6000000] app ∧
      Run SqliteJourn.write (fun _ _ => True) Db.empty app.mq.posted db ∧ Persisted app db ∧
      (app.sess a).trades.entries.map Prod.fst = [idKey m 3] ∧ (app.sess b).trades.entries.map Prod.fst = [idKey n 2] := by
  intro a b m n
  have made : ∃ app ∈ Run.exec App.step (fun app op => op.InMarket app ∧ op.ArchivesOwn app) (App.make 16 16)
      [.createMarket 1 (.assign (bytes "EURUSD")) 0 0 0, .createMarket 2 (.assign (bytes "GBPUSD")) 0 0 0,
        .createOrder a m [] .sell 10 5 0 2 0, .createOrder b m [] .buy 3 5 0 3 0,
        .createTrade a n [] .buy 4 7 .none b 4, .createTrade a n [] .buy 2 7 .none default 4,
        .archiveTrades a n [1, 3] 5000000, .archiveTrade b m 4 6000000],
      (app.sess a).trades.entries.map Prod.fst = [idKey m 3] ∧ (app.sess b).trades.entries.map Prod.fst = [idKey n 2] := by
    decide
  obtain ⟨app, done, own, other⟩ := made
  obtain ⟨db, written, persisted⟩ := trades_persisted (.of_exec done)
  exact ⟨app, db, .of_exec done, written, persisted, own, other⟩

end App

end Swirly
