import Swirly.Verified.Journaled

/-!
# The rows of executions

What the journal leaves in `exec_t`: a row for each execution that was journaled, with its number in the sequence of its
account.  Archiving a trade touches nothing of this.
-/

namespace Swirly

/-- The row apart from its archive time. -/
def ExecRow.unarchived (row : ExecRow) : ExecRow := { row with archive := none }

/-- What does not read the archive time. -/
theorem ExecRow.of_unarchived {α : Type} {row old : ExecRow} (same : row.unarchived = old.unarchived) (f : ExecRow → α)
    (blind : ∀ row, f row.unarchived = f row) : f row = f old := by
  rw [← blind row, same, blind old]

namespace Db

variable {db db' : Db} {new : ExecRow}

theorem execs_beforeInsertOnExec1 (db : Db) (new : ExecRow) :
    (db.beforeInsertOnExec1 new).execs = db.execs ∧ (db.beforeInsertOnExec1 new).accnts = db.accnts := by
  rw [beforeInsertOnExec1]
  split
  next => split <;> exact ⟨rfl, rfl⟩
  next => exact ⟨rfl, rfl⟩

theorem execs_beforeInsertOnExec2 (done : db.beforeInsertOnExec2 new = some db') :
    db'.execs = db.execs ∧ db'.accnts = db.accnts := by
  rw [beforeInsertOnExec2] at done
  split at done
  next =>
    cases done
    exact ⟨rfl, rfl⟩
  next =>
    split at done
    next =>
      simp only at done
      split at done
      next => cases done
      next =>
        cases done
        exact ⟨rfl, rfl⟩
    next =>
      cases done
      exact ⟨rfl, rfl⟩

theorem execs_beforeInsertOnExec3 (db : Db) (new : ExecRow) :
    (db.beforeInsertOnExec3 new).execs = db.execs ∧ (db.beforeInsertOnExec3 new).accnts = db.accnts := by
  rw [beforeInsertOnExec3]
  split
  next => exact ⟨rfl, rfl⟩
  next => split <;> exact ⟨rfl, rfl⟩

/-- The next number of an account. -/
def nextSeq (db : Db) (accnt : Bytes) : Int := (db.accnts.find accnt).getD 0 + 1

/-- The row is new, and has the next number of its account. -/
theorem insertExec_execs (inserted : db.insertExec new = some db') :
    db.execs.find new.key = none ∧
      db'.execs = db.execs.put new.key { new with seqId := some (db.nextSeq new.accnt) } ∧
      db'.accnts = db.accnts.put new.accnt (db.nextSeq new.accnt) := by
  rw [insertExec] at inserted
  split at inserted
  next => cases inserted
  next db₁ second =>
    obtain ⟨execs₀, accnts₀⟩ := db.execs_beforeInsertOnExec1 new
    obtain ⟨execs₁, accnts₁⟩ := execs_beforeInsertOnExec2 second
    obtain ⟨execs₂, accnts₂⟩ := db₁.execs_beforeInsertOnExec3 new
    simp only at inserted
    split at inserted
    next => cases inserted
    next absent =>
      cases inserted
      rw [execs₂, execs₁, execs₀] at absent
      refine ⟨by simpa using absent, ?_, ?_⟩
      · simp [afterInsertOnExec1, nextSeq, execs₂, execs₁, execs₀, accnts₂, accnts₁, accnts₀, OrdMap.put_put]
      · simp [afterInsertOnExec1, nextSeq, accnts₂, accnts₁, accnts₀]

theorem insertExec_markets (inserted : db.insertExec new = some db') :
    db'.markets = (db.beforeInsertOnExec1 new).markets := by
  have second : ∀ db db' : Db, db.beforeInsertOnExec2 new = some db' → db'.markets = db.markets := by
    intro db db' done
    simp only [beforeInsertOnExec2] at done
    split at done
    next => cases done; rfl
    next =>
      split at done
      next =>
        split at done
        next => cases done
        next => cases done; rfl
      next => cases done; rfl
  have third : ∀ db : Db, (db.beforeInsertOnExec3 new).markets = db.markets := by
    intro db
    simp only [beforeInsertOnExec3]
    split
    next => rfl
    next => split <;> rfl
  simp only [insertExec] at inserted
  split at inserted
  next => cases inserted
  next between done =>
    split at inserted
    next => cases inserted
    next =>
      cases inserted
      exact (third between).trans (second _ _ done)

/-- An insertion fails only for a key that is in use. -/
theorem insertExec_isSome (fresh : db.execs.find new.key = none)
    (first : ∀ id, new.orderId = some id → new.state = .new → db.orders.find (newOrderRow new id).key = none) :
    (db.insertExec new).isSome := by
  have second : ∃ db₁, (db.beforeInsertOnExec1 new).beforeInsertOnExec2 new = some db₁ := by
    rw [beforeInsertOnExec2]
    cases own : new.orderId with
    | none => exact ⟨_, rfl⟩
    | some id =>
      by_cases isNew : new.state = .new
      · simp [isNew, first id own isNew]
      · simp [isNew]
  obtain ⟨db₁, second⟩ := second
  have absent : (db₁.beforeInsertOnExec3 new).execs.find new.key = none := by
    rw [(db₁.execs_beforeInsertOnExec3 new).1, (execs_beforeInsertOnExec2 second).1, (db.execs_beforeInsertOnExec1 new).1, fresh]
  simp [insertExec, second, absent]

end Db

/-- The execution of the account that a message journals, by its key. -/
def Msg.reportOf (accnt : Bytes) : Msg → Option IdKey
  | .createExec body => if toStringView body.accnt = accnt then some (idKey body.marketId body.id) else none
  | _ => none

/-- The rows of an account are numbered as they were journaled. -/
structure Sequenced (db : Db) (accnt : Bytes) (keys : List IdKey) : Prop where
  count : (db.accnts.find accnt).getD 0 = keys.length
  listed : ∀ (i : Nat) k, keys[i]? = some k → ∃ row, db.execs.find k = some row ∧ row.accnt = accnt ∧ row.seqId = some (i + 1 : Int)
  owner : ∀ k row, db.execs.find k = some row → row.accnt = accnt → k ∈ keys
  key : ∀ k row, db.execs.find k = some row → row.key = k

namespace Sequenced

variable {db db' : Db} {accnt : Bytes} {keys : List IdKey}

theorem empty (accnt : Bytes) : Sequenced Db.empty accnt [] where
  count := rfl
  listed i k found := by simp at found
  owner k row found := by cases found
  key k row found := by cases found

/-- Archiving is not seen. -/
theorem congr (sequenced : Sequenced db accnt keys) (accnts : db'.accnts = db.accnts)
    (execs : ∀ k, (db'.execs.find k).map ExecRow.unarchived = (db.execs.find k).map ExecRow.unarchived) :
    Sequenced db' accnt keys := by
  have back : ∀ k row, db'.execs.find k = some row → ∃ old, db.execs.find k = some old ∧ old.unarchived = row.unarchived := by
    intro k row found
    have same := execs k
    rw [found] at same
    exact Option.map_eq_some_iff.mp same.symm
  exact
    { count := by rw [accnts, sequenced.count]
      listed := fun i k listed => by
        obtain ⟨old, found, own, seq⟩ := sequenced.listed i k listed
        have same := execs k
        rw [found] at same
        obtain ⟨row, present, equal⟩ := Option.map_eq_some_iff.mp same
        have accnt' : row.accnt = old.accnt := ExecRow.of_unarchived equal ExecRow.accnt fun _ => rfl
        have seq' : row.seqId = old.seqId := ExecRow.of_unarchived equal ExecRow.seqId fun _ => rfl
        exact ⟨row, present, accnt'.trans own, seq'.trans seq⟩
      owner := fun k row found own => by
        obtain ⟨old, present, equal⟩ := back k row found
        have accnt' : old.accnt = row.accnt := ExecRow.of_unarchived equal ExecRow.accnt fun _ => rfl
        exact sequenced.owner k old present (accnt'.trans own)
      key := fun k row found => by
        obtain ⟨old, present, equal⟩ := back k row found
        have key' : old.key = row.key := ExecRow.of_unarchived equal ExecRow.key fun _ => rfl
        exact key'.symm.trans (sequenced.key k old present) }

theorem insert (sequenced : Sequenced db accnt keys) {new : ExecRow} (inserted : db.insertExec new = some db') :
    Sequenced db' accnt (if new.accnt = accnt then keys ++ [new.key] else keys) := by
  obtain ⟨absent, execs, accnts⟩ := Db.insertExec_execs inserted
  have fresh : ∀ k row, db.execs.find k = some row → k ≠ new.key := fun k row found same => by
    rw [same, absent] at found
    cases found
  have key : ∀ k row, db'.execs.find k = some row → row.key = k := by
    intro k row found
    rw [execs, OrdMap.find_put] at found
    split at found
    next here =>
      cases found
      exact here.symm
    next => exact sequenced.key k row found
  by_cases own : new.accnt = accnt
  · subst own
    rw [if_pos rfl]
    exact
      { count := by
          rw [accnts, OrdMap.find_put_self, Option.getD_some, Db.nextSeq, sequenced.count, List.length_append]
          rfl
        listed := fun i k listed => by
          rw [execs, OrdMap.find_put]
          by_cases last : i < keys.length
          · rw [List.getElem?_append_left last] at listed
            obtain ⟨row, found, own, seq⟩ := sequenced.listed i k listed
            rw [if_neg (fresh k row found)]
            exact ⟨row, found, own, seq⟩
          · rw [List.getElem?_append_right (by omega), List.getElem?_singleton] at listed
            split at listed
            next here =>
              obtain rfl : new.key = k := Option.some.inj listed
              rw [if_pos rfl]
              refine ⟨_, rfl, rfl, ?_⟩
              show some (Db.nextSeq db new.accnt) = _
              rw [Db.nextSeq, sequenced.count, show i = keys.length by omega]
            next => cases listed
        owner := fun k row found own => by
          rw [execs, OrdMap.find_put] at found
          split at found
          next here => simp [here]
          next => exact List.mem_append_left _ (sequenced.owner k row found own)
        key }
  · rw [if_neg own]
    exact
      { count := by rw [accnts, OrdMap.find_put_ne _ _ (Ne.symm own), sequenced.count]
        listed := fun i k listed => by
          obtain ⟨row, found, owned, seq⟩ := sequenced.listed i k listed
          rw [execs, OrdMap.find_put_ne _ _ (fresh k row found)]
          exact ⟨row, found, owned, seq⟩
        owner := fun k row found owned => by
          rw [execs, OrdMap.find_put] at found
          split at found
          next here =>
            cases found
            exact absurd owned own
          next => exact sequenced.owner k row found owned
        key }

theorem nodup (sequenced : Sequenced db accnt keys) : keys.Nodup := by
  rw [List.nodup_iff_getElem?_ne_getElem?]
  intro i j before small same
  obtain ⟨row, found, -, seq⟩ := sequenced.listed i keys[i] (List.getElem?_eq_getElem (by omega))
  obtain ⟨row', found', -, seq'⟩ := sequenced.listed j keys[j] (List.getElem?_eq_getElem small)
  rw [List.getElem?_eq_getElem (by omega), List.getElem?_eq_getElem small] at same
  rw [Option.some.inj same, found'] at found
  cases found
  rw [seq] at seq'
  have number : (i : Int) + 1 = j + 1 := Option.some.inj seq'
  omega

end Sequenced

namespace SqliteJourn

variable {db db' : Db}

theorem execs_archive (db : Db) (marketId modified id : Int) (k : IdKey) :
    ((archive db marketId modified id).execs.find k).map ExecRow.unarchived = (db.execs.find k).map ExecRow.unarchived := by
  rw [archive]
  split
  next => rfl
  next row found =>
    rw [OrdMap.find_put]
    split
    next here =>
      rw [here, found]
      rfl
    next => rfl

theorem execs_archiveTrade (db : Db) (marketId : Int) (ids : List Int) (modified : Int) :
    (∀ k, ((archiveTrade db marketId ids modified).execs.find k).map ExecRow.unarchived =
      (db.execs.find k).map ExecRow.unarchived) ∧
    (archiveTrade db marketId ids modified).accnts = db.accnts := by
  rw [archiveTrade]
  induction ids.takeWhile (· ≠ 0) generalizing db with
  | nil => exact ⟨fun _ => rfl, rfl⟩
  | cons id ids inductionHypothesis =>
    obtain ⟨execs, accnts⟩ := inductionHypothesis (archive db marketId modified id)
    refine ⟨fun k => (execs k).trans (execs_archive db marketId modified id k), accnts.trans ?_⟩
    rw [archive]
    split <;> rfl

theorem markets_archiveTrade (db : Db) (m : Int) (ids : List Int) (modified : Int) :
    (archiveTrade db m ids modified).markets = db.markets := by
  rw [archiveTrade]
  generalize ids.takeWhile (· ≠ 0) = taken
  induction taken generalizing db with
  | nil => rfl
  | cons id taken inductionHypothesis =>
    rw [List.foldl_cons, inductionHypothesis, archive]
    split <;> rfl

/-- Each message is about at most one execution of the account. -/
theorem write_sequenced {accnt : Bytes} {keys : List IdKey} {msg : Msg} (sequenced : Sequenced db accnt keys)
    (written : write db msg = some db') : Sequenced db' accnt (keys ++ (msg.reportOf accnt).toList) := by
  have silent : keys = keys ++ (none : Option IdKey).toList := (List.append_nil keys).symm
  cases msg with
  | createMarket id instr settlDay state =>
    simp only [write, createMarket] at written
    split at written
    next => cases written
    next =>
      cases written
      exact silent ▸ sequenced.congr rfl fun _ => rfl
  | updateMarket id state =>
    cases written
    have same : (updateMarket db id state).execs = db.execs ∧ (updateMarket db id state).accnts = db.accnts := by
      rw [updateMarket]
      split <;> exact ⟨rfl, rfl⟩
    exact silent ▸ sequenced.congr same.2 fun k => by rw [same.1]
  | createExec body =>
    have inserted := sequenced.insert written
    simp only [Msg.reportOf]
    split
    next own => rwa [if_pos (show (execRow body).accnt = accnt from own)] at inserted
    next other =>
      rw [if_neg (show (execRow body).accnt ≠ accnt from other)] at inserted
      exact silent ▸ inserted
  | archiveTrade marketId ids modified =>
    cases written
    obtain ⟨execs, accnts⟩ := execs_archiveTrade db marketId ids modified
    exact silent ▸ sequenced.congr accnts execs

/-- What the whole journal leaves. -/
theorem run_sequenced {Allowed : Db → Msg → Prop} {msgs : List Msg} (accnt : Bytes) (run : Run write Allowed Db.empty msgs db) :
    Sequenced db accnt (msgs.filterMap (Msg.reportOf accnt)) := by
  refine run.invariant_history (I := fun msgs db => Sequenced db accnt (msgs.filterMap (Msg.reportOf accnt)))
    (fun msgs db msg db' sequenced _ written => ?_) (.empty accnt)
  rw [List.filterMap_append]
  have last : [msg].filterMap (Msg.reportOf accnt) = (msg.reportOf accnt).toList := by
    cases same : msg.reportOf accnt <;> simp [same]
  rw [last]
  exact write_sequenced sequenced written

end SqliteJourn

namespace Sequenced

variable {db : Db} {accnt : Bytes} {keys : List IdKey} {since : Int} {rows : List ExecRow}

/-- The number that the row of a key has. -/
def seqOf (db : Db) (k : IdKey) : Int := ((db.execs.find k).bind ExecRow.seqId).getD 0

theorem seqOf_eq (sequenced : Sequenced db accnt keys) {i : Nat} {k : IdKey} (listed : keys[i]? = some k) : seqOf db k = i + 1 := by
  obtain ⟨row, found, -, seq⟩ := sequenced.listed i k listed
  rw [seqOf, found, Option.bind_some, seq, Option.getD_some]

theorem nodup_rows (sequenced : Sequenced db accnt keys) : ((db.execs.entries.map Prod.snd).map ExecRow.key).Nodup := by
  have same : (db.execs.entries.map Prod.snd).map ExecRow.key = db.execs.entries.map Prod.fst := by
    rw [List.map_map]
    exact List.map_congr_left fun e member => sequenced.key e.1 e.2 (OrdMap.mem_entries.mp member)
  rw [same]
  exact db.execs.nodup_keys

/-- The rows of an account come latest first, whatever comes between them. -/
theorem delivered (sequenced : Sequenced db accnt keys) (selected : db.SelectsExecs since rows)
    (window : ∀ k row, db.execs.find k = some row → row.accnt = accnt → msSinceEpoch since < row.created) :
    (rows.filter fun row => row.accnt = accnt).map ExecRow.key = keys.reverse := by
  obtain ⟨perm, latest⟩ := selected
  have stored : ∀ row ∈ rows, db.execs.find row.key = some row := by
    intro row member
    obtain ⟨⟨k, _⟩, entry, rfl⟩ := List.mem_map.mp (List.mem_filter.mp (perm.mem_iff.mp member)).1
    have found := OrdMap.mem_entries.mp entry
    rwa [sequenced.key k _ found]
  have members : ∀ k, k ∈ (rows.filter fun row => row.accnt = accnt).map ExecRow.key ↔ k ∈ keys := by
    intro k
    constructor
    · intro member
      obtain ⟨row, inside, rfl⟩ := List.mem_map.mp member
      obtain ⟨inside, own⟩ := List.mem_filter.mp inside
      exact sequenced.owner _ row (stored row inside) (of_decide_eq_true own)
    · intro member
      obtain ⟨i, listed⟩ := List.mem_iff_getElem?.mp member
      obtain ⟨row, found, own, -⟩ := sequenced.listed i k listed
      refine List.mem_map.mpr ⟨row, List.mem_filter.mpr ⟨perm.mem_iff.mpr ?_, decide_eq_true own⟩, sequenced.key k row found⟩
      refine List.mem_filter.mpr ⟨?_, decide_eq_true (window k row found own)⟩
      exact List.mem_map.mpr ⟨(k, row), OrdMap.mem_entries.mpr found, rfl⟩
  have nodup : ((rows.filter fun row => row.accnt = accnt).map ExecRow.key).Nodup := by
    have all : (rows.map ExecRow.key).Nodup :=
      (perm.map ExecRow.key).nodup_iff.mpr (sequenced.nodup_rows.sublist (List.filter_sublist.map _))
    exact all.sublist (List.filter_sublist.map _)
  -- Both lists hold the keys of the account, the highest number first.
  refine List.Perm.eq_of_pairwise (fun k j member member' (after : seqOf db j ≤ seqOf db k) before => ?_) ?_ ?_
    ((List.perm_ext_iff_of_nodup nodup (List.nodup_reverse.mpr sequenced.nodup)).mpr fun k => by
      rw [members, List.mem_reverse])
  · obtain ⟨i, listed⟩ := List.mem_iff_getElem?.mp ((members k).mp member)
    obtain ⟨i', listed'⟩ := List.mem_iff_getElem?.mp (List.mem_reverse.mp member')
    rw [sequenced.seqOf_eq listed, sequenced.seqOf_eq listed'] at after before
    obtain rfl : i = i' := by omega
    rw [listed] at listed'
    exact Option.some.inj listed'
  · rw [List.pairwise_map]
    refine (latest.filter _).imp_of_mem fun {row later} member member' before => ?_
    have here := stored row (List.mem_filter.mp member).1
    have there := stored later (List.mem_filter.mp member').1
    rwa [seqOf, seqOf, here, there]
  · rw [List.pairwise_reverse, List.pairwise_iff_getElem]
    intro i j small small' before
    rw [sequenced.seqOf_eq (List.getElem?_eq_getElem small), sequenced.seqOf_eq (List.getElem?_eq_getElem small')]
    omega

end Sequenced

end Swirly
