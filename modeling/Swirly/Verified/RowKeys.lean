import Swirly.Verified.Posting
import Swirly.Verified.Sequence

/-!
# Keys of rows

A message is written unless a row with the key of a new row is there already.  The keys that a run gives to its messages
are all different, so that its whole journal is written.
-/

namespace Swirly

open Function

/-- The key of the execution that the message inserts. -/
def Msg.execKey : Msg → Option IdKey
  | .createExec body => some (idKey body.marketId body.id)
  | _ => none

/-- The key of the order that the first trigger inserts with it. -/
def Msg.orderKey : Msg → Option IdKey
  | .createExec body => if body.state = .new ∧ body.orderId ≠ 0 then some (idKey body.marketId body.orderId) else none
  | _ => none

def Msg.marketKey : Msg → Option Int
  | .createMarket id .. => some id
  | _ => none

/-- An order has the key of its first execution. -/
def Msg.OrderFirst (msg : Msg) : Prop := ∀ k ∈ msg.orderKey, msg.execKey = some k

variable {db db' : Db} {msg : Msg} {msgs more : List Msg}

/-- The rows that are there have been inserted. -/
structure Holds (msgs : List Msg) (db : Db) : Prop where
  execs : ∀ k, (db.execs.find k).isSome ↔ k ∈ msgs.filterMap Msg.execKey
  orders : ∀ k, (db.orders.find k).isSome ↔ k ∈ msgs.filterMap Msg.orderKey
  markets : ∀ n, (db.markets.find n).isSome ↔ n ∈ msgs.filterMap Msg.marketKey

/-- The rows that the message inserts are not there. -/
structure Fresh (db : Db) (msg : Msg) : Prop where
  exec : ∀ k ∈ msg.execKey, db.execs.find k = none
  order : ∀ k ∈ msg.orderKey, db.orders.find k = none
  market : ∀ n ∈ msg.marketKey, db.markets.find n = none

theorem orderKey_createExec (body : CreateExec) : (Msg.createExec body).orderKey =
    if (SqliteJourn.execRow body).state = .new then
      ((SqliteJourn.execRow body).orderId).map (idKey body.marketId) else none := by
  show (if body.state = .new ∧ body.orderId ≠ 0 then _ else _) = if body.state = .new then (maybeNull body.orderId).map _ else _
  by_cases new : body.state = .new
  · by_cases zero : body.orderId = 0 <;> simp [new, zero, maybeNull]
  · simp [new]

/-- The keys after an execution is inserted. -/
theorem insertExec_keys {new : ExecRow} (inserted : db.insertExec new = some db') :
    (∀ k, (db'.execs.find k).isSome ↔ (db.execs.find k).isSome ∨ new.key = k) ∧
    (∀ k, (db'.orders.find k).isSome ↔ (db.orders.find k).isSome ∨
      (new.state = .new ∧ new.orderId.map (idKey new.marketId) = some k)) ∧
    ∀ n, (db'.markets.find n).isSome = (db.markets.find n).isSome := by
  refine ⟨fun k => ?_, fun k => ?_, fun n => ?_⟩
  · obtain ⟨-, execs, -⟩ := Db.insertExec_execs inserted
    rw [execs, OrdMap.find_put]
    by_cases here : k = new.key
    · simp [here]
    · simp [here, Ne.symm here]
  · cases own : new.orderId with
    | none =>
      rw [Db.insertExec_foreign inserted own]
      simp
    | some id =>
      by_cases isNew : new.state = .new
      · have key : (Db.newOrderRow new id).key = idKey new.marketId id := rfl
        rw [(Db.insertExec_new inserted own isNew).2, OrdMap.find_put, key]
        by_cases here : k = idKey new.marketId id
        · simp [here, isNew]
        · simp [here, Ne.symm here]
      · rw [Db.insertExec_later inserted own isNew, OrdMap.find_map, Option.isSome_map]
        simp [isNew]
  · rw [Db.insertExec_markets inserted, Db.beforeInsertOnExec1]
    split
    next =>
      split
      next => rfl
      next row found =>
        rw [OrdMap.find_put]
        split
        next here => rw [here, found]; rfl
        next => rfl
    next => rfl

theorem Holds.empty : Holds [] Db.empty where
  execs _ := iff_of_false nofun List.not_mem_nil
  orders _ := iff_of_false nofun List.not_mem_nil
  markets _ := iff_of_false nofun List.not_mem_nil

/-- A message that inserts nothing. -/
theorem Holds.congr (holds : Holds msgs db) (execs : ∀ k, (db'.execs.find k).isSome = (db.execs.find k).isSome)
    (orders : db'.orders = db.orders) (markets : ∀ n, (db'.markets.find n).isSome = (db.markets.find n).isSome)
    (nothing : msg.execKey = none ∧ msg.orderKey = none ∧ msg.marketKey = none) : Holds (msgs ++ [msg]) db' where
  execs k := by rw [execs, holds.execs]; simp [nothing.1]
  orders k := by rw [orders, holds.orders]; simp [nothing.2.1]
  markets n := by rw [markets, holds.markets]; simp [nothing.2.2]

/-- What a write adds to the keys. -/
theorem Holds.write (holds : Holds msgs db) (written : SqliteJourn.write db msg = some db') : Holds (msgs ++ [msg]) db' := by
  cases msg with
  | createMarket id instr settlDay state =>
    simp only [SqliteJourn.write, SqliteJourn.createMarket] at written
    split at written
    next => cases written
    next =>
      cases written
      refine ⟨fun k => ?_, fun k => ?_, fun n => ?_⟩
      · rw [show (db.execs.find k).isSome = true ↔ _ from holds.execs k]
        simp [Msg.execKey]
      · rw [show (db.orders.find k).isSome = true ↔ _ from holds.orders k]
        simp [Msg.orderKey]
      · rw [OrdMap.find_put, List.filterMap_append, List.mem_append, ← holds.markets]
        by_cases here : n = id <;> simp [Msg.marketKey, here]
  | updateMarket id state =>
    cases written
    rw [SqliteJourn.updateMarket]
    split
    next => exact holds.congr (fun _ => rfl) rfl (fun _ => rfl) ⟨rfl, rfl, rfl⟩
    next row found =>
      refine holds.congr (fun _ => rfl) rfl (fun n => ?_) ⟨rfl, rfl, rfl⟩
      rw [OrdMap.find_put]
      split
      next here => rw [here, found]; rfl
      next => rfl
  | createExec body =>
    obtain ⟨execs, orders, markets⟩ := insertExec_keys (show db.insertExec (SqliteJourn.execRow body) = some db' from written)
    refine ⟨fun k => ?_, fun k => ?_, fun n => ?_⟩
    · rw [execs, holds.execs, List.filterMap_append, List.mem_append]
      refine or_congr_right ?_
      rw [List.filterMap_cons_some (show (Msg.createExec body).execKey = some (idKey body.marketId body.id) from rfl)]
      exact ⟨fun same => List.mem_singleton.mpr same.symm, fun member => (List.mem_singleton.mp member).symm⟩
    · rw [orders, holds.orders, List.filterMap_append, List.mem_append]
      refine or_congr_right ?_
      rw [List.mem_filterMap]
      simp only [List.mem_singleton, exists_eq_left, orderKey_createExec]
      by_cases isNew : (SqliteJourn.execRow body).state = .new
      · rw [if_pos isNew]
        exact and_iff_right isNew
      · rw [if_neg isNew]
        exact iff_of_false (fun both => isNew both.1) (by simp)
    · rw [markets, holds.markets]
      simp [Msg.marketKey]
  | archiveTrade m ids modified =>
    cases written
    refine holds.congr (fun k => ?_) (SqliteJourn.orders_archiveTrade _ _ _ _)
      (fun n => by rw [SqliteJourn.markets_archiveTrade]) ⟨rfl, rfl, rfl⟩
    have same := congrArg Option.isSome ((SqliteJourn.execs_archiveTrade db m ids modified).1 k)
    rwa [Option.isSome_map, Option.isSome_map] at same

/-- A message is written when its keys are not in use. -/
theorem write_isSome (fresh : Fresh db msg) : (SqliteJourn.write db msg).isSome := by
  cases msg with
  | createMarket id instr settlDay state =>
    simp [SqliteJourn.write, SqliteJourn.createMarket, fresh.market id rfl]
  | createExec body =>
    refine Db.insertExec_isSome (fresh.exec _ rfl) fun id own isNew => ?_
    refine fresh.order _ ?_
    rw [orderKey_createExec, if_pos isNew, own]
    rfl
  | updateMarket | archiveTrade => rfl

/-- The keys of a sequence of executions are all different, and an order has that of its first execution. -/
structure Distinct (msgs : List Msg) : Prop where
  execs : (msgs.filterMap Msg.execKey).Nodup
  orders : ∀ msg ∈ msgs, msg.OrderFirst

theorem Distinct.initial (distinct : Distinct (msgs ++ more)) : Distinct msgs where
  execs := by
    have execs := distinct.execs
    rw [List.filterMap_append] at execs
    exact execs.of_append_left
  orders msg member := distinct.orders msg (List.mem_append_left _ member)

theorem mem_execKeys (distinct : Distinct msgs) {k : IdKey} (member : k ∈ msgs.filterMap Msg.orderKey) :
    k ∈ msgs.filterMap Msg.execKey := by
  obtain ⟨msg, inside, key⟩ := List.mem_filterMap.mp member
  exact List.mem_filterMap.mpr ⟨msg, inside, distinct.orders msg inside k key⟩

/-- Orders have the keys of some of the executions. -/
theorem Distinct.orderKeys (distinct : Distinct msgs) : (msgs.filterMap Msg.orderKey).Nodup := by
  refine List.Nodup.sublist ?_ distinct.execs
  have orders := distinct.orders
  clear distinct
  induction msgs with
  | nil => exact .slnil
  | cons msg msgs inductionHypothesis =>
    obtain ⟨first, later⟩ := List.forall_mem_cons.mp orders
    cases key : msg.orderKey with
    | none =>
      rw [List.filterMap_cons_none key]
      refine (inductionHypothesis later).trans ?_
      exact (List.sublist_cons_self msg msgs).filterMap _
    | some k =>
      rw [List.filterMap_cons_some key, List.filterMap_cons_some (first k key)]
      exact (inductionHypothesis later).cons_cons k

/-- The last of the messages finds its keys free. -/
theorem Distinct.absent (distinct : Distinct (msgs ++ [msg])) (holds : Holds msgs db) :
    (∀ k ∈ msg.execKey, db.execs.find k = none) ∧ ∀ k ∈ msg.orderKey, db.orders.find k = none := by
  have unused : ∀ k ∈ msg.execKey, k ∉ msgs.filterMap Msg.execKey := by
    intro k key member
    have execs := distinct.execs
    rw [List.filterMap_append, List.nodup_append] at execs
    exact execs.2.2 k member k (List.mem_filterMap.mpr ⟨msg, List.mem_singleton_self _, key⟩) rfl
  constructor
  · intro k key
    rw [← Option.not_isSome_iff_eq_none, holds.execs]
    exact unused k key
  · intro k key
    rw [← Option.not_isSome_iff_eq_none, holds.orders]
    intro member
    have first := distinct.orders msg (List.mem_append_right _ (List.mem_singleton_self _)) k key
    exact unused k first (mem_execKeys distinct.initial member)

/-- Messages with different keys are all written. -/
theorem Distinct.written (distinct : Distinct msgs) (markets : (msgs.filterMap Msg.marketKey).Nodup) :
    ∃ db, Run SqliteJourn.write (fun _ _ => True) Db.empty msgs db ∧ Holds msgs db := by
  induction msgs using List.reverseRecOn with
  | nil => exact ⟨_, .nil, .empty⟩
  | append_singleton msgs msg inductionHypothesis =>
    rw [List.filterMap_append, List.nodup_append] at markets
    obtain ⟨earlier, -, apart⟩ := markets
    obtain ⟨db, run, holds⟩ := inductionHypothesis distinct.initial earlier
    obtain ⟨exec, order⟩ := distinct.absent holds
    have market : ∀ n ∈ msg.marketKey, db.markets.find n = none := by
      intro n key
      rw [← Option.not_isSome_iff_eq_none, holds.markets]
      intro member
      exact apart n member n (List.mem_filterMap.mpr ⟨msg, List.mem_singleton_self _, key⟩) rfl
    obtain ⟨db', written⟩ := Option.isSome_iff_exists.mp (write_isSome ⟨exec, order, market⟩)
    exact ⟨db', .snoc run trivial written, holds.write written⟩

/-! ## The keys that a run gives -/

namespace App

variable {app app' : App} {op : Op} {m : Int} {news : List Exec}

/-- The executions have keys that were given out, each to one of them. -/
structure Issued (msgs : List Msg) (app : App) : Prop where
  bounded : ∀ body, .createExec body ∈ msgs → 1 ≤ body.id ∧ body.id ≤ app.view.maxId body.marketId
  distinct : Distinct msgs

/-- Messages that are not about executions. -/
theorem Issued.congr (issued : Issued msgs app) (grown : ∀ n, app.view.maxId n ≤ app'.view.maxId n)
    (nothing : ∀ msg ∈ more, msg.execKey = none ∧ msg.orderKey = none) : Issued (msgs ++ more) app' where
  bounded body member := by
    cases List.mem_append.mp member with
    | inl before =>
      obtain ⟨positive, small⟩ := issued.bounded body before
      exact ⟨positive, small.trans (grown _)⟩
    | inr new => cases (nothing _ new).1
  distinct := by
    have execs : more.filterMap Msg.execKey = [] := List.filterMap_eq_nil_iff.mpr fun msg member => (nothing msg member).1
    refine ⟨?_, fun msg member => ?_⟩
    · rw [List.filterMap_append, execs, List.append_nil]
      exact issued.distinct.execs
    · cases List.mem_append.mp member with
      | inl before => exact issued.distinct.orders msg before
      | inr new =>
        intro k key
        rw [(nothing msg new).2] at key
        cases key

/-- The reports of a step have new ids. -/
theorem Issued.allots (issued : Issued msgs app) (start : 0 ≤ app.view.maxId m) (allots : Allots app m news app') :
    Issued (msgs ++ news.map fun x => .createExec (MsgQueue.execBody x)) app' where
  bounded body member := by
    rw [allots.maxId]
    cases List.mem_append.mp member with
    | inl before =>
      obtain ⟨positive, small⟩ := issued.bounded body before
      exact ⟨positive, small.trans (grown_update (by omega) _)⟩
    | inr new =>
      obtain ⟨x, inside, made⟩ := List.mem_map.mp new
      obtain rfl : MsgQueue.execBody x = body := Msg.createExec.inj made
      obtain ⟨i, small, rfl⟩ := List.mem_iff_getElem.mp inside
      have id := allots.ids i _ (List.getElem?_eq_getElem small)
      have market := allots.market _ inside
      show 1 ≤ news[i].id ∧ news[i].id ≤ update app.view.maxId m _ news[i].marketId
      rw [market, update_self, id]
      omega
  distinct := by
    have keys : (news.map fun x => Msg.createExec (MsgQueue.execBody x)).filterMap Msg.execKey =
        news.map fun x => idKey x.marketId x.id := by
      rw [List.filterMap_map, ← List.filterMap_eq_map]
      rfl
    refine ⟨?_, fun msg member => ?_⟩
    · rw [List.filterMap_append, keys]
      refine issued.distinct.execs.append ?_ fun k old new => ?_
      · rw [List.nodup_iff_getElem?_ne_getElem?]
        intro i j before small same
        rw [List.length_map] at small
        rw [List.getElem?_map, List.getElem?_map, List.getElem?_eq_getElem (show i < news.length by omega),
          List.getElem?_eq_getElem small] at same
        have ids := (idKey_inj.mp (Option.some.inj same)).2
        rw [allots.ids i _ (List.getElem?_eq_getElem _), allots.ids j _ (List.getElem?_eq_getElem small)] at ids
        omega
      · obtain ⟨msg, member, key⟩ := List.mem_filterMap.mp old
        obtain ⟨x, inside, made⟩ := List.mem_map.mp new
        cases msg with
        | createExec body =>
          obtain ⟨market, id⟩ := idKey_inj.mp ((Option.some.inj key).trans made.symm)
          have bounded := (issued.bounded body member).2
          obtain ⟨i, small, rfl⟩ := List.mem_iff_getElem.mp inside
          rw [market, id, allots.market _ inside, allots.ids i _ (List.getElem?_eq_getElem small)] at bounded
          omega
        | createMarket | updateMarket | archiveTrade => cases key
    · cases List.mem_append.mp member with
      | inl before => exact issued.distinct.orders msg before
      | inr new =>
        obtain ⟨x, inside, rfl⟩ := List.mem_map.mp new
        intro k key
        simp only [Msg.orderKey] at key
        split at key
        next first =>
          obtain rfl := Option.some.inj key
          have own : x.orderId = x.id := allots.orderId x inside first.1
          exact congrArg (fun id => some (idKey x.marketId id)) own.symm
        next => cases key

theorem Lists.isSome (lists : Lists app op app') (n : Int) (listed : (app.listing n).isSome) : (app'.listing n).isSome := by
  cases lists with
  | kept listing posn => rwa [listing]
  | created creates returns listing posn =>
    rw [listing, update_apply]
    split
    next => rfl
    next => exact listed

/-- A step gives its executions keys of their own. -/
theorem Issued.step (inv : app.Inv) (issued : Issued msgs app) (inMarket : op.InMarket app)
    (stepped : app.step op = some app') (posted : app'.mq.posted = app.mq.posted ++ more) : Issued (msgs ++ more) app' := by
  cases step_posting inv inMarket stepped with
  | same mq grown =>
    obtain rfl : more = [] := by simpa [mq] using posted
    exact issued.congr grown (by simp)
  | opened unlisted new same grown =>
    obtain rfl := List.append_cancel_left (posted.symm.trans same.posted)
    exact issued.congr grown (by simp [Msg.execKey, Msg.orderKey])
  | updated same grown =>
    obtain rfl := List.append_cancel_left (posted.symm.trans same.posted)
    exact issued.congr grown (by simp [Msg.execKey, Msg.orderKey])
  | @allotted n news allots =>
    have same : app'.mq.posted = app.mq.posted ++ news.map fun x => .createExec (MsgQueue.execBody x) :=
      congrArg MsgQueue.posted allots.journaled
    obtain rfl := List.append_cancel_left (posted.symm.trans same)
    exact issued.allots (inv.ids.nonneg n) allots
  | archived same owner nodup grown =>
    obtain rfl := List.append_cancel_left (posted.symm.trans same.posted)
    refine issued.congr grown fun msg member => ?_
    obtain ⟨ids, -, rfl⟩ := List.mem_map.mp member
    exact ⟨rfl, rfl⟩
  | popped pops mq grown =>
    obtain rfl : more = [] := by simpa [mq] using posted
    exact issued.congr grown (by simp)

/-- The markets that have been announced, each once, exist. -/
structure Announced (msgs : List Msg) (app : App) : Prop where
  nodup : (msgs.filterMap Msg.marketKey).Nodup
  listed : ∀ n ∈ msgs.filterMap Msg.marketKey, (app.listing n).isSome

theorem Announced.congr (announced : Announced msgs app) (listed : ∀ n, (app.listing n).isSome → (app'.listing n).isSome)
    (nothing : ∀ msg ∈ more, msg.marketKey = none) : Announced (msgs ++ more) app' := by
  have keys : (msgs ++ more).filterMap Msg.marketKey = msgs.filterMap Msg.marketKey := by
    rw [List.filterMap_append, List.filterMap_eq_nil_iff.mpr nothing, List.append_nil]
  refine ⟨?_, fun n member => ?_⟩
  · rw [keys]
    exact announced.nodup
  · rw [keys] at member
    exact listed n (announced.listed n member)

theorem Announced.step (inv : app.Inv) (announced : Announced msgs app) (inMarket : op.InMarket app)
    (stepped : app.step op = some app') (posted : app'.mq.posted = app.mq.posted ++ more) : Announced (msgs ++ more) app' := by
  have listed := (step_lists inv stepped).isSome
  cases step_posting inv inMarket stepped with
  | same mq grown =>
    obtain rfl : more = [] := by simpa [mq] using posted
    exact announced.congr listed (by simp)
  | @opened n instr settlDay state unlisted new same grown =>
    obtain rfl := List.append_cancel_left (posted.symm.trans same.posted)
    have keys : (msgs ++ [Msg.createMarket n instr settlDay state]).filterMap Msg.marketKey = msgs.filterMap Msg.marketKey ++ [n] := by
      simp [Msg.marketKey]
    refine ⟨?_, fun k member => ?_⟩
    · rw [keys]
      refine announced.nodup.append (List.nodup_singleton n) fun k old last => ?_
      -- The market did not exist before.
      have known := announced.listed k old
      rw [List.mem_singleton.mp last, unlisted] at known
      cases known
    · rw [keys] at member
      cases List.mem_append.mp member with
      | inl before => exact listed k (announced.listed k before)
      | inr last => rwa [List.mem_singleton.mp last]
  | updated same grown =>
    obtain rfl := List.append_cancel_left (posted.symm.trans same.posted)
    exact announced.congr listed (by simp [Msg.marketKey])
  | allotted allots =>
    obtain rfl := List.append_cancel_left (posted.symm.trans (congrArg MsgQueue.posted allots.journaled))
    exact announced.congr listed (by simp [Msg.marketKey])
  | archived same owner nodup grown =>
    obtain rfl := List.append_cancel_left (posted.symm.trans same.posted)
    refine announced.congr listed fun msg member => ?_
    obtain ⟨ids, -, rfl⟩ := List.mem_map.mp member
    rfl
  | popped pops mq grown =>
    obtain rfl : more = [] := by simpa [mq] using posted
    exact announced.congr listed (by simp)

end App

end Swirly
