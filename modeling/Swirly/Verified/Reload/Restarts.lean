import Swirly.Lib.Chronicle
import Swirly.Lib.Run
import Swirly.Swirlyd.Restart
import Swirly.Verified.Reload.Loaded
import Swirly.Verified.RowKeys

/-!
# Ids over restarts

A load sets the counter of a market to the greatest id of its rows.  The executions that are waiting in a queue file at
that moment have greater ids, which the new run gives out again.  Where none is waiting, no id is given out twice.
-/

namespace Swirly

variable {db db' : Db} {msg : Msg} {msgs more : List Msg}

/-- The open and the executed lots of the row make up its lots, unless nothing is open. -/
def Msg.Balanced : Msg → Prop
  | .createExec body => body.resdLots ≠ 0 → body.resdLots + body.execLots = body.lots
  | _ => True

/-- An execution comes after its market. -/
def Msg.Homed (before : List Msg) : Msg → Prop
  | .createExec body => body.marketId ∈ before.filterMap Msg.marketKey
  | _ => True

/-! ## The tables -/

/-- Rows are filed under their keys, and the open orders can be loaded. -/
structure Tidy (db : Db) : Prop where
  orders : ∀ k row, db.orders.find k = some row → row.key = k ∧ (row.resdLots ≠ 0 → row.resdLots + row.execLots = row.lots)
  execs : ∀ k row, db.execs.find k = some row → row.key = k

theorem Tidy.empty : Tidy Db.empty where
  orders _ _ found := by cases found
  execs _ _ found := by cases found

theorem Tidy.createExec {body : CreateExec} (tidy : Tidy db) (balanced : (Msg.createExec body).Balanced)
    (written : SqliteJourn.write db (.createExec body) = some db') : Tidy db' := by
  obtain ⟨new, row⟩ : ∃ new, new = SqliteJourn.execRow body := ⟨_, rfl⟩
  have inserted : db.insertExec new = some db' := row ▸ written
  have balance : new.resdLots ≠ 0 → new.resdLots + new.execLots = new.lots := row ▸ balanced
  constructor
  · intro k r found
    cases own : new.orderId with
    | none =>
      rw [Db.insertExec_foreign inserted own] at found
      exact tidy.orders k r found
    | some id =>
      by_cases isNew : new.state = .new
      · rw [(Db.insertExec_new inserted own isNew).2, OrdMap.find_put] at found
        split at found
        next here =>
          cases found
          exact ⟨here.symm, balance⟩
        next => exact tidy.orders k r found
      · rw [Db.insertExec_later inserted own isNew, OrdMap.find_map] at found
        obtain ⟨old, before, rfl⟩ := Option.map_eq_some_iff.mp found
        obtain ⟨key, open_⟩ := tidy.orders k old before
        split
        next => exact ⟨key, balance⟩
        next => exact ⟨key, open_⟩
  · intro k r found
    rw [(Db.insertExec_execs inserted).2.1, OrdMap.find_put] at found
    split at found
    next here =>
      cases found
      exact here.symm
    next => exact tidy.execs k r found

theorem Tidy.write (tidy : Tidy db) (balanced : msg.Balanced) (written : SqliteJourn.write db msg = some db') : Tidy db' := by
  cases msg with
  | createMarket id instr settlDay state =>
    simp only [SqliteJourn.write, SqliteJourn.createMarket] at written
    split at written
    next => cases written
    next =>
      cases written
      exact ⟨tidy.orders, tidy.execs⟩
  | updateMarket id state =>
    cases written
    rw [SqliteJourn.updateMarket]
    split
    next => exact tidy
    next => exact ⟨tidy.orders, tidy.execs⟩
  | createExec body => exact tidy.createExec balanced written
  | archiveTrade m ids modified =>
    cases written
    refine ⟨fun k row found => ?_, fun k row found => ?_⟩
    · rw [SqliteJourn.orders_archiveTrade] at found
      exact tidy.orders k row found
    · have same := (SqliteJourn.execs_archiveTrade db m ids modified).1 k
      rw [found] at same
      obtain ⟨old, before, kept⟩ := Option.map_eq_some_iff.mp same.symm
      rw [← tidy.execs k old before]
      exact (ExecRow.of_unarchived kept ExecRow.key fun _ => rfl).symm

/-- A statement that fails leaves the rows as they are; only a market can be there already. -/
theorem Holds.refused (holds : Holds msgs db) (exec : ∀ k ∈ msg.execKey, db.execs.find k = none)
    (order : ∀ k ∈ msg.orderKey, db.orders.find k = none) (refused : SqliteJourn.write db msg = none) :
    Holds (msgs ++ [msg]) db := by
  cases msg with
  | createMarket id instr settlDay state =>
    have present : (db.markets.find id).isSome := by
      simp only [SqliteJourn.write, SqliteJourn.createMarket] at refused
      split at refused
      next present => exact present
      next => cases refused
    refine ⟨fun k => ?_, fun k => ?_, fun n => ?_⟩
    · rw [holds.execs]
      simp [Msg.execKey]
    · rw [holds.orders]
      simp [Msg.orderKey]
    · rw [holds.markets, List.filterMap_append, List.mem_append]
      refine (or_iff_left_of_imp fun last => ?_).symm
      rw [List.mem_singleton.mp last]
      exact (holds.markets id).mp present
  | createExec body =>
    have fresh : Fresh db (.createExec body) := ⟨exec, order, (fun n key => by cases key)⟩
    have done := write_isSome fresh
    rw [refused] at done
    cases done
  | updateMarket | archiveTrade => cases refused

theorem Tidy.mem_ids (tidy : Tidy db) (m id : Int) :
    id ∈ ((db.execs.entries.map Prod.snd).filter fun row => row.marketId = m).map ExecRow.id ↔
      (db.execs.find (idKey m id)).isSome := by
  rw [List.mem_map]
  constructor
  · intro listed
    obtain ⟨row, member, rfl⟩ := listed
    obtain ⟨inside, market⟩ := List.mem_filter.mp member
    obtain ⟨⟨k, r⟩, entry, rfl⟩ := List.mem_map.mp inside
    have found := OrdMap.mem_entries.mp entry
    have key : idKey r.marketId r.id = k := tidy.execs k r found
    rw [show r.marketId = m from of_decide_eq_true market] at key
    rw [key, found]
    rfl
  · intro present
    obtain ⟨row, found⟩ := Option.isSome_iff_exists.mp present
    obtain ⟨market, id⟩ := idKey_inj.mp (tidy.execs _ row found)
    refine ⟨row, List.mem_filter.mpr ⟨?_, decide_eq_true market⟩, id⟩
    exact List.mem_map_of_mem (OrdMap.mem_entries.mpr found)

/-- `MAX(e.id)` bounds the ids of the rows. -/
theorem Tidy.le_maxId (tidy : Tidy db) {m id : Int} (present : (db.execs.find (idKey m id)).isSome) : id ≤ db.maxId m := by
  have member := (tidy.mem_ids m id).mpr present
  rw [Db.maxId]
  generalize ((db.execs.entries.map Prod.snd).filter fun row => row.marketId = m).map ExecRow.id = ids at member
  cases greatest : ids.max? with
  | none =>
    rw [List.max?_eq_none_iff.mp greatest] at member
    cases member
  | some id' => exact (List.max?_eq_some_iff.mp greatest).2 id member

theorem Tidy.maxId_nonneg (tidy : Tidy db) {m : Int} (positive : ∀ id, (db.execs.find (idKey m id)).isSome → 1 ≤ id) :
    0 ≤ db.maxId m := by
  have members := tidy.mem_ids m
  rw [Db.maxId]
  generalize ((db.execs.entries.map Prod.snd).filter fun row => row.marketId = m).map ExecRow.id = ids at members
  cases greatest : ids.max? with
  | none => exact le_rfl
  | some id =>
    have bound := positive id ((members id).mp (List.max?_eq_some_iff.mp greatest).1)
    exact le_trans (by decide) bound

/-- The oldest of the messages leaves the queue. -/
theorem MsgQueue.pop_pending {mq : MsgQueue} (waiting : mq.pending = msg :: more) :
    mq.pop.pending = more ∧ mq.pop.popped ≤ mq.pop.posted.length := by
  have small : mq.popped < mq.posted.length := by
    have length := congrArg List.length waiting
    rw [pending, List.length_drop, List.length_cons] at length
    omega
  rw [pop, if_pos small]
  refine ⟨?_, small⟩
  calc mq.posted.drop (mq.popped + 1) = mq.pending.tail := List.tail_drop.symm
    _ = more := by rw [waiting, List.tail_cons]

/-! ## Runs -/

namespace Service

variable {s s' : Service}

/-- The messages that the journal thread has taken or that are waiting for it. -/
def posted (s : Service) : List Msg := s.journ ++ s.app.mq.pending

/-- Calls name orders of their market, and no execution waits in the queue file while the tables are read. -/
def Event.Orderly (s : Service) : Event → Prop
  | call op => op.InMarket s.app
  | write => True
  | restart kept _ _ _ _ _ _ _ _ => kept → ∀ msg ∈ s.app.mq.pending, msg.execKey = none

instance (s : Service) (event : Event) : Decidable (event.Orderly s) :=
  match event with
  | .call op => inferInstanceAs (Decidable (op.InMarket s.app))
  | .write => .isTrue trivial
  | .restart kept _ _ _ _ _ _ _ _ => inferInstanceAs (Decidable (kept → ∀ msg ∈ s.app.mq.pending, msg.execKey = none))

structure Inv (s : Service) : Prop where
  app : s.app.Inv
  popped : s.app.mq.popped ≤ s.app.mq.posted.length
  holds : Holds s.journ s.db
  tidy : Tidy s.db
  issued : App.Issued s.posted s.app
  homed : Chronicle Msg.Homed s.posted
  listed : ∀ n, (s.app.listing n).isSome → n ∈ s.posted.filterMap Msg.marketKey
  balanced : ∀ msg ∈ s.posted, msg.Balanced

end Service

namespace App

variable {app app' : App} {op : Op}

/-- The messages of a step. -/
theorem Posting.homed (posting : Posting app op app') {before : List Msg} (posts : app'.mq.posted = app.mq.posted ++ more)
    (orderly : Chronicle Msg.Homed before) (listed : ∀ n, (app.listing n).isSome → n ∈ before.filterMap Msg.marketKey) :
    Chronicle Msg.Homed (before ++ more) ∧ ∀ msg ∈ more, msg.Balanced := by
  have others : (∀ msg ∈ more, msg.execKey = none) → Chronicle Msg.Homed (before ++ more) ∧ ∀ msg ∈ more, msg.Balanced := by
    intro others
    refine ⟨orderly.append fun prior msg after split => ?_, fun msg member => ?_⟩
    · have other := others msg (by rw [split]; exact List.mem_append_right _ List.mem_cons_self)
      cases msg with
      | createExec body => cases other
      | createMarket | updateMarket | archiveTrade => trivial
    · have other := others msg member
      cases msg with
      | createExec body => cases other
      | createMarket | updateMarket | archiveTrade => trivial
  cases posting with
  | same mq =>
    obtain rfl : more = [] := by simpa [mq] using posts
    exact others (by simp)
  | opened _ _ same =>
    obtain rfl := List.append_cancel_left (posts.symm.trans same.posted)
    exact others (by simp [Msg.execKey])
  | updated same =>
    obtain rfl := List.append_cancel_left (posts.symm.trans same.posted)
    exact others (by simp [Msg.execKey])
  | @allotted n news allots =>
    obtain rfl := List.append_cancel_left (posts.symm.trans (congrArg MsgQueue.posted allots.journaled))
    refine ⟨orderly.append fun prior msg after split => ?_, fun msg member => ?_⟩
    · have member : msg ∈ news.map fun x => Msg.createExec (MsgQueue.execBody x) := by
        rw [split]
        exact List.mem_append_right _ List.mem_cons_self
      obtain ⟨x, inside, rfl⟩ := List.mem_map.mp member
      show x.marketId ∈ (before ++ prior).filterMap Msg.marketKey
      rw [allots.market x inside, List.filterMap_append]
      exact List.mem_append_left _ (listed n allots.known)
    · obtain ⟨x, inside, rfl⟩ := List.mem_map.mp member
      exact allots.balanced x inside
  | archived same =>
    obtain rfl := List.append_cancel_left (posts.symm.trans same.posted)
    refine others fun msg member => ?_
    obtain ⟨ids, -, rfl⟩ := List.mem_map.mp member
    rfl
  | popped _ mq =>
    obtain rfl : more = [] := by simpa [mq] using posts
    exact others (by simp)

end App

namespace Service

variable {s s' : Service} {op : Op}

theorem Inv.call {app : App} (inv : s.Inv) (inMarket : op.InMarket s.app) (call : op ≠ .pop) (stepped : s.app.step op = some app) :
    Inv { s with app } := by
  have posting := App.step_posting inv.app inMarket stepped
  obtain ⟨more, posts⟩ := posting.posts call
  have pending : app.mq.pending = s.app.mq.pending ++ more := by
    rw [show app.mq = _ from posts, MsgQueue.pending, List.drop_append_of_le_length inv.popped]
    rfl
  have posted : ({ s with app } : Service).posted = s.posted ++ more := by
    show s.journ ++ app.mq.pending = _
    rw [pending, ← List.append_assoc]
    rfl
  obtain ⟨homed, balanced⟩ := posting.homed posts.posted inv.homed inv.listed
  exact
    { app := inv.app.step stepped
      popped := by
        show app.mq.popped ≤ app.mq.posted.length
        rw [show app.mq = _ from posts, List.length_append]
        exact Nat.le_add_right_of_le inv.popped
      holds := inv.holds
      tidy := inv.tidy
      issued := by
        rw [posted]
        exact App.Issued.step inv.app inv.issued inMarket stepped posts.posted
      homed := by rwa [posted]
      listed := fun n listed => by
        rw [posted, List.filterMap_append, List.mem_append]
        cases known : s.app.listing n with
        | some _ => exact .inl (inv.listed n (by rw [known]; rfl))
        | none =>
          obtain ⟨instr, settlDay, state, member⟩ := App.created_posts inv.app stepped posts.posted known listed
          exact .inr (List.mem_filterMap.mpr ⟨_, member, rfl⟩)
      balanced := fun msg member => by
        rw [posted] at member
        exact (List.mem_append.mp member).elim (inv.balanced msg) (balanced msg) }

/-- A message is written, or it is about a market that is there. -/
theorem Inv.write (inv : s.Inv) (written : s.write = some s') : s'.Inv := by
  unfold Service.write at written
  split at written
  next =>
    cases waiting : s.app.mq.pending with
    | nil =>
      rw [waiting] at written
      cases written
    | cons msg rest =>
      simp only [waiting] at written
      obtain ⟨pending, popped⟩ := MsgQueue.pop_pending waiting
      have posted : s.posted = (s.journ ++ [msg]) ++ rest := by
        rw [Service.posted, waiting, List.append_assoc]
        rfl
      have distinct : Distinct ((s.journ ++ [msg]) ++ rest) := posted ▸ inv.issued.distinct
      obtain ⟨exec, order⟩ := distinct.initial.absent inv.holds
      have balanced : msg.Balanced := inv.balanced msg (posted ▸ List.mem_append_left _ (List.mem_append_right _ (List.mem_singleton_self _)))
      -- The message moves from the queue to the journal, whatever becomes of the statement.
      have moved : ∀ db journaling, Holds (s.journ ++ [msg]) db → Tidy db →
          Inv { db, app := { s.app with mq := s.app.mq.pop }, journaling, journ := s.journ ++ [msg] } := by
        intro db journaling holds tidy
        have same : ({ db, app := { s.app with mq := s.app.mq.pop }, journaling, journ := s.journ ++ [msg] } : Service).posted =
            s.posted := by
          rw [posted, Service.posted, pending]
        exact
          { app := inv.app.step (show s.app.step .pop = some _ from rfl)
            popped
            holds
            tidy
            issued := by
              rw [same]
              exact ⟨inv.issued.bounded, inv.issued.distinct⟩
            homed := by
              rw [same]
              exact inv.homed
            listed := fun n listed => by
              rw [same]
              exact inv.listed n listed
            balanced := fun msg member => by
              rw [same] at member
              exact inv.balanced msg member }
      cases done : SqliteJourn.write s.db msg with
      | some db =>
        rw [done] at written
        cases written
        exact moved db _ (inv.holds.write done) (inv.tidy.write balanced done)
      | none =>
        rw [done] at written
        cases written
        exact moved s.db false (inv.holds.refused exec order done) inv.tidy
  next => cases written

/-- What the tables hold of an execution. -/
theorem Inv.exec (inv : s.Inv) {m id : Int} (present : (s.db.execs.find (idKey m id)).isSome) :
    1 ≤ id ∧ (s.db.markets.find m).isSome := by
  obtain ⟨msg, member, key⟩ := List.mem_filterMap.mp ((inv.holds.execs _).mp present)
  cases msg with
  | createExec body =>
    obtain ⟨rfl, rfl⟩ := idKey_inj.mp (Option.some.inj key)
    refine ⟨(inv.issued.bounded body (List.mem_append_left _ member)).1, ?_⟩
    obtain ⟨before, after, split, market⟩ := (Chronicle.initial inv.homed).of_mem member
    rw [inv.holds.markets, split, List.filterMap_append]
    exact List.mem_append_left _ market
  | createMarket | updateMarket | archiveTrade => cases key

/-- An order that is read has the key of an execution. -/
theorem Inv.order (inv : s.Inv) {k : IdKey} {row : OrderRow} (found : s.db.orders.find k = some row) :
    row.key = k ∧ (s.db.execs.find (idKey row.marketId row.id)).isSome := by
  obtain ⟨key, -⟩ := inv.tidy.orders k row found
  refine ⟨key, ?_⟩
  rw [show idKey row.marketId row.id = k from key, inv.holds.execs]
  exact mem_execKeys inv.issued.distinct.initial ((inv.holds.orders k).mp (by rw [found]; rfl))

/-- The tables can be loaded. -/
theorem Inv.sensible (inv : s.Inv) {orders : List OrderRow} (selected : s.db.SelectsOrders orders) (execs trades : List ExecRow)
    (posns : List (PosnPtr × Posn)) : App.Sensible (s.db.model orders execs trades posns) := by
  have rows : ∀ row ∈ orders, 0 < row.resdLots ∧ ∃ k, s.db.orders.find k = some row := by
    intro row member
    obtain ⟨inside, open_⟩ := List.mem_filter.mp (selected.mem_iff.mp member)
    obtain ⟨⟨k, r⟩, entry, rfl⟩ := List.mem_map.mp inside
    exact ⟨of_decide_eq_true open_, k, OrdMap.mem_entries.mp entry⟩
  exact
    { nodup := by
        rw [Db.model, Db.readMarkets, List.map_map]
        exact s.db.markets.nodup_keys
      empty := List.forall_mem_map.mpr fun _ _ => ⟨rfl, rfl⟩
      counters := List.forall_mem_map.mpr fun e _ => inv.tidy.maxId_nonneg fun id present => (inv.exec present).1
      keys := by
        rw [Db.model, List.map_map]
        have keys : (s.db.orders.entries.map Prod.snd).map OrderRow.key = s.db.orders.entries.map Prod.fst := by
          rw [List.map_map]
          exact List.map_congr_left fun e member => (inv.tidy.orders e.1 e.2 (OrdMap.mem_entries.mp member)).1
        have distinct : (orders.map OrderRow.key).Nodup := by
          rw [(selected.map OrderRow.key).nodup_iff]
          refine (List.filter_sublist.map OrderRow.key).nodup ?_
          rw [keys]
          exact s.db.orders.nodup_keys
        exact distinct
      open_ := List.forall_mem_map.mpr fun row member => (rows row member).1.ne'
      balance := List.forall_mem_map.mpr fun row member => by
        obtain ⟨open_, k, found⟩ := rows row member
        exact (inv.tidy.orders k row found).2 open_.ne'
      positive := List.forall_mem_map.mpr fun row member => by
        obtain ⟨-, k, found⟩ := rows row member
        exact (inv.exec (inv.order found).2).1
      bounded := List.forall_mem_map.mpr fun row member => by
        obtain ⟨-, k, found⟩ := rows row member
        have present := (inv.order found).2
        obtain ⟨market, known⟩ := Option.isSome_iff_exists.mp (inv.exec present).2
        refine ⟨s.db.market row.marketId market, ?_, inv.tidy.le_maxId present⟩
        exact List.mem_map.mpr ⟨(row.marketId, market), OrdMap.mem_entries.mpr known, rfl⟩ }

/-- The engine after a restart, when its queue is empty or holds no execution. -/
theorem Inv.restart (app : App) (waiting : List Msg) {rest : List Msg} (inv : s.Inv) (loaded : app.Inv) (queue : app.mq.pending = waiting)
    (popped : app.mq.popped ≤ app.mq.posted.length) (split : s.app.mq.pending = waiting ++ rest)
    (quiet : ∀ msg ∈ waiting, msg.execKey = none)
    (markets : ∀ n, (app.markets.find n).isSome ↔ (s.db.markets.find n).isSome)
    (maxId : ∀ n, (s.db.markets.find n).isSome → app.view.maxId n = s.db.maxId n) :
    Inv { s with app, journaling := true } := by
  have posted : s.posted = (s.journ ++ waiting) ++ rest := by rw [Service.posted, split, List.append_assoc]
  have own : ({ s with app, journaling := true } : Service).posted = s.journ ++ waiting := by
    rw [Service.posted, queue]
  have issued : Distinct ((s.journ ++ waiting) ++ rest) := posted ▸ inv.issued.distinct
  have homed : Chronicle Msg.Homed ((s.journ ++ waiting) ++ rest) := posted ▸ inv.homed
  exact
    { app := loaded
      popped := popped
      holds := inv.holds
      tidy := inv.tidy
      issued := by
        rw [own]
        refine ⟨fun body member => ?_, issued.initial⟩
        cases List.mem_append.mp member with
        | inl before =>
          have present : (s.db.execs.find (idKey body.marketId body.id)).isSome :=
            (inv.holds.execs _).mpr (List.mem_filterMap.mpr ⟨_, before, rfl⟩)
          obtain ⟨positive, known⟩ := inv.exec present
          rw [maxId _ known]
          exact ⟨positive, inv.tidy.le_maxId present⟩
        | inr waits => cases quiet _ waits
      homed := by
        rw [own]
        exact homed.initial
      listed := fun n listed => by
        rw [own, List.filterMap_append, List.mem_append, ← inv.holds.markets, ← markets]
        rw [App.listing, Option.isSome_map] at listed
        exact .inl listed
      balanced := fun msg member => by
        rw [own] at member
        exact inv.balanced msg (posted ▸ List.mem_append_left _ member) }

theorem Inv.step {event : Event} (inv : s.Inv) (orderly : event.Orderly s) (stepped : s.step event = some s') : s'.Inv := by
  cases event with
  | call op =>
    simp only [Service.step] at stepped
    split at stepped
    next => cases stepped
    next call =>
      obtain ⟨app, done, rfl⟩ := Option.map_eq_some_iff.mp stepped
      exact inv.call orderly call done
  | write => exact inv.write stepped
  | restart kept capacity maxExecs now busDay orders execs trades posns =>
    simp only [Service.step] at stepped
    split at stepped
    next selected =>
      obtain ⟨app, done, rfl⟩ := Option.map_eq_some_iff.mp stepped
      obtain ⟨app', loaded, inv', mq, markets, maxId⟩ :=
        (inv.sensible selected.1 execs trades posns).load capacity maxExecs now busDay
      obtain rfl : app' = app := Option.some.inj (loaded.symm.trans done)
      have known : ∀ n, (app'.markets.find n).isSome ↔ (s.db.markets.find n).isSome := by
        intro n
        rw [markets, Db.model, Db.readMarkets, List.map_map]
        exact OrdMap.mem_keys
      have counters : ∀ n, (s.db.markets.find n).isSome → app'.view.maxId n = s.db.maxId n := by
        intro n present
        obtain ⟨row, found⟩ := Option.isSome_iff_exists.mp present
        exact maxId (n, s.db.market n row) (List.mem_map.mpr ⟨(n, row), OrdMap.mem_entries.mpr found, rfl⟩)
      cases kept with
      | true =>
        exact Inv.restart { app' with mq := s.app.mq } s.app.mq.pending inv ⟨inv'.live, inv'.complete, inv'.ids, inv'.matches_, inv'.execs_⟩
          rfl inv.popped (List.append_nil _).symm (orderly rfl) known counters
      | false =>
        exact Inv.restart app' [] inv inv' (by rw [mq]; rfl) (by rw [mq]; rfl) rfl (by simp) known counters
    next => cases stepped

theorem inv_make (capacity maxExecs : Nat) : (make capacity maxExecs).Inv where
  app := .make capacity maxExecs
  popped := le_rfl
  holds := .empty
  tidy := .empty
  issued := ⟨(fun _ member => by cases member), List.nodup_nil, (fun _ member => by cases member)⟩
  homed := .nil
  listed _ present := by cases present
  balanced _ member := by cases member

/-- No two executions that the journal thread writes have the same key, and neither do their orders. -/
structure Unique (s : Service) : Prop where
  execs : (s.journ.filterMap Msg.execKey).Nodup
  orders : (s.journ.filterMap Msg.orderKey).Nodup

/-- Over every history whose restarts find no execution in the queue file. -/
theorem ids_unique {capacity maxExecs : Nat} {events : List Event}
    (run : Run Service.step (fun s event => event.Orderly s) (make capacity maxExecs) events s) : s.Unique := by
  have inv : s.Inv := run.invariant (fun _ _ _ inv orderly stepped => inv.step orderly stepped) (inv_make capacity maxExecs)
  have distinct : Distinct s.journ := inv.issued.distinct.initial
  exact ⟨distinct.execs, distinct.orderKeys⟩

/-- Two restarts: one that loses a new order with its message, and one that finds an update of the market waiting. -/
theorem ids_unique_twice :
    let a : Symbol := .assign (bytes "MARAYL")
    let m := toMarketId 1 0
    let later := 2 * App.oneWeek
    ∃ s, Run Service.step (fun s event => event.Orderly s) (make 16 16)
        [.call (.createMarket 1 (.assign (bytes "EURUSD")) 0 0 0), .write, .call (.createOrder a m [] .sell 10 5 0 1 0), .write,
          .call (.changeOrder a m .cancel (.id 1) 2), .write, .call (.createOrder a m [] .sell 9 6 0 3 0),
          .restart false 16 16 later 0 [] [] [] [], .call (.createOrder a m [] .sell 8 7 0 4 0), .write,
          .call (.changeOrder a m .cancel (.id 3) 5), .write, .call (.updateMarket m 1),
          .restart true 16 16 later 0 [] [] [] [], .write, .call (.createOrder a m [] .buy 7 4 0 6 0), .write] s ∧
      s.Unique ∧ s.journ.filterMap Msg.execKey = [idKey m 1, idKey m 2, idKey m 3, idKey m 4, idKey m 5] := by
  intro a m later
  have made : ∃ s ∈ Run.exec Service.step (fun s event => event.Orderly s) (make 16 16)
      [.call (.createMarket 1 (.assign (bytes "EURUSD")) 0 0 0), .write, .call (.createOrder a m [] .sell 10 5 0 1 0), .write,
        .call (.changeOrder a m .cancel (.id 1) 2), .write, .call (.createOrder a m [] .sell 9 6 0 3 0),
        .restart false 16 16 later 0 [] [] [] [], .call (.createOrder a m [] .sell 8 7 0 4 0), .write,
        .call (.changeOrder a m .cancel (.id 3) 5), .write, .call (.updateMarket m 1),
        .restart true 16 16 later 0 [] [] [] [], .write, .call (.createOrder a m [] .buy 7 4 0 6 0), .write],
      s.journ.filterMap Msg.execKey = [idKey m 1, idKey m 2, idKey m 3, idKey m 4, idKey m 5] := by decide
  obtain ⟨s, done, keys⟩ := made
  exact ⟨s, .of_exec done, ids_unique (.of_exec done), keys⟩

/-- An order waits in the queue file while the engine is loaded, and the next order gets its id: the second statement
fails, and ends the journal thread. -/
theorem id_given_twice :
    let a : Symbol := .assign (bytes "MARAYL")
    let m := toMarketId 1 0
    ∃ s, Run Service.step (fun _ _ => True) (make 16 16)
        [.call (.createMarket 1 (.assign (bytes "EURUSD")) 0 0 0), .write, .call (.createOrder a m [] .sell 10 5 0 1 0),
          .restart true 16 16 0 0 [] [] [] [], .write, .call (.createOrder a m [] .sell 8 7 0 2 0), .write] s ∧
      s.journ.filterMap Msg.execKey = [idKey m 1, idKey m 1] ∧ s.journ.filterMap Msg.orderKey = [idKey m 1, idKey m 1] ∧
      s.journaling = false ∧ ¬ s.Unique := by
  intro a m
  have made : ∃ s ∈ Run.exec Service.step (fun _ _ => True) (make 16 16)
      [.call (.createMarket 1 (.assign (bytes "EURUSD")) 0 0 0), .write, .call (.createOrder a m [] .sell 10 5 0 1 0),
        .restart true 16 16 0 0 [] [] [] [], .write, .call (.createOrder a m [] .sell 8 7 0 2 0), .write],
      s.journ.filterMap Msg.execKey = [idKey m 1, idKey m 1] ∧ s.journ.filterMap Msg.orderKey = [idKey m 1, idKey m 1] ∧
      s.journaling = false := by decide
  obtain ⟨s, done, execs, orders, ended⟩ := made
  refine ⟨s, .of_exec done, execs, orders, ended, fun unique => ?_⟩
  have nodup := unique.execs
  rw [execs] at nodup
  simp at nodup

end Service

end Swirly
