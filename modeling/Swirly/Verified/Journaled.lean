import Swirly.Verified.OrderLedger
import Swirly.Verified.Reload.Book

/-!
# The journaled orders

The triggers of `exec_t` alone write the rows of orders.  While `before_insert_on_exec3`, which selects rows by the id of
the order, meets none of another market, there is a row for each order, and the order `Select` returns the live ones.
-/

namespace Swirly

open Function

namespace Db

variable {db db' : Db} {new : ExecRow} {id : Int}

@[simp] theorem orders_beforeInsertOnExec1 (db : Db) (new : ExecRow) : (db.beforeInsertOnExec1 new).orders = db.orders := by
  rw [beforeInsertOnExec1]
  split
  next => split <;> rfl
  next => rfl

/-- The triggers that write orders. -/
theorem insertExec_orders (inserted : db.insertExec new = some db') :
    ∃ db₁, (db.beforeInsertOnExec1 new).beforeInsertOnExec2 new = some db₁ ∧
      db'.orders = (db₁.beforeInsertOnExec3 new).orders := by
  rw [insertExec] at inserted
  split at inserted
  next => cases inserted
  next db₁ second =>
    simp only at inserted
    split at inserted
    next => cases inserted
    next =>
      cases inserted
      exact ⟨db₁, second, rfl⟩

theorem insertExec_foreign (inserted : db.insertExec new = some db') (foreign : new.orderId = none) :
    db'.orders = db.orders := by
  obtain ⟨db₁, second, orders⟩ := insertExec_orders inserted
  simp only [beforeInsertOnExec2, foreign, Option.some.injEq] at second
  rw [orders, ← second]
  simp [beforeInsertOnExec3, foreign]

theorem insertExec_new (inserted : db.insertExec new = some db') (own : new.orderId = some id) (first : new.state = .new) :
    db.orders.find (newOrderRow new id).key = none ∧
      db'.orders = db.orders.put (newOrderRow new id).key (newOrderRow new id) := by
  obtain ⟨db₁, second, orders⟩ := insertExec_orders inserted
  simp only [beforeInsertOnExec2, own, if_pos first, orders_beforeInsertOnExec1] at second
  split at second
  next => cases second
  next absent =>
    cases second
    refine ⟨by simpa using absent, ?_⟩
    rw [orders]
    simp [beforeInsertOnExec3, own, first]

theorem insertExec_later (inserted : db.insertExec new = some db') (own : new.orderId = some id) (later : new.state ≠ .new) :
    db'.orders = db.orders.map fun row => if row.id = id then updateOrderRow new row else row := by
  obtain ⟨db₁, second, orders⟩ := insertExec_orders inserted
  simp only [beforeInsertOnExec2, own, if_neg later, Option.some.injEq] at second
  rw [orders, ← second]
  simp [beforeInsertOnExec3, own, later]

end Db

/-- The `WHERE` clause of `before_insert_on_exec3` selects no order of another market. -/
def Msg.Apart (db : Db) : Msg → Prop
  | .createExec body =>
    body.state ≠ .new → ∀ x ∈ db.orders.entries, x.2.id = body.orderId → x.2.marketId = body.marketId
  | _ => True

instance (db : Db) (msg : Msg) : Decidable (msg.Apart db) :=
  match msg with
  | .createExec body =>
    inferInstanceAs (Decidable (body.state ≠ .new → ∀ x ∈ db.orders.entries, x.2.id = body.orderId → x.2.marketId = body.marketId))
  | .createMarket .. | .updateMarket .. | .archiveTrade .. => .isTrue trivial

namespace SqliteJourn

open MsgQueue

variable {db db' : Db}

theorem orders_archive (db : Db) (marketId modified id : Int) : (archive db marketId modified id).orders = db.orders := by
  rw [archive]
  split <;> rfl

theorem orders_archiveTrade (db : Db) (marketId : Int) (ids : List Int) (modified : Int) :
    (archiveTrade db marketId ids modified).orders = db.orders := by
  rw [archiveTrade]
  induction ids.takeWhile (· ≠ 0) generalizing db with
  | nil => rfl
  | cons id ids inductionHypothesis => exact (inductionHypothesis _).trans (orders_archive db marketId modified id)

/-- Only executions are about orders. -/
theorem write_orders {msg : Msg} (other : ∀ body, msg ≠ .createExec body) (written : write db msg = some db') :
    db'.orders = db.orders := by
  cases msg with
  | createMarket id instr settlDay state =>
    simp only [write, createMarket] at written
    split at written
    next => cases written
    next => cases written; rfl
  | updateMarket id state =>
    cases written
    rw [updateMarket]
    split <;> rfl
  | createExec body => exact absurd rfl (other body)
  | archiveTrade marketId ids modified =>
    cases written
    exact orders_archiveTrade db marketId ids modified

/-- Messages that are not about orders. -/
theorem run_orders {msgs : List Msg} (run : Run write Msg.Apart db msgs db')
    (others : ∀ msg ∈ msgs, (∀ body, msg ≠ .createExec body) ∨ ∃ x : Exec, msg = .createExec (execBody x) ∧ x.orderId = 0) :
    db'.orders = db.orders := by
  induction run with
  | nil => rfl
  | @snoc msgs t u msg _ _ written inductionHypothesis =>
    obtain ⟨before, last⟩ := List.forall_mem_append.mp others
    rw [← inductionHypothesis before]
    cases last msg (List.mem_singleton_self _) with
    | inl other => exact write_orders other written
    | inr foreign =>
      obtain ⟨x, rfl, none_order⟩ := foreign
      exact Db.insertExec_foreign written (if_pos none_order)

end SqliteJourn

/-! ## Rows of orders -/

/-- The row of an order that its first report creates. -/
theorem Order.row_create {o : Order} {now : Int} (created : o.created = now) (modified : o.modified = now) :
    Db.newOrderRow (SqliteJourn.execRow (MsgQueue.execBody (.make o o.id now))) o.id = o.row := by
  have ref : toStringView (pstrcpy maxRef o.ref.data) = toStringView o.ref.data := toStringView_pstrcpy o.ref.bounded
  simp only [Db.newOrderRow, SqliteJourn.execRow, MsgQueue.execBody, Exec.make, row, ref, created, modified]
  rfl

/-- A later report makes the change of the order in its row. -/
theorem Order.row_step {o : Order} {x : Exec} (shows : x.Shows (o.step x)) (notNew : x.state ≠ .new) (some_ : x.state ≠ .none) :
    (o.step x).row = Db.updateOrderRow (SqliteJourn.execRow (MsgQueue.execBody x)) o.row := by
  have kept : (o.step x).accnt = o.accnt ∧ (o.step x).marketId = o.marketId ∧ (o.step x).instr = o.instr ∧
      (o.step x).settlDay = o.settlDay ∧ (o.step x).id = o.id ∧ (o.step x).ref = o.ref ∧ (o.step x).side = o.side ∧
      (o.step x).ticks = o.ticks ∧ (o.step x).minLots = o.minLots ∧ (o.step x).created = o.created ∧
      (o.step x).modified = x.created := by
    simp only [step]
    cases state : x.state with
    | none => exact absurd state some_
    | new => exact absurd state notNew
    | revise | cancel | trade => exact ⟨rfl, rfl, rfl, rfl, rfl, rfl, rfl, rfl, rfl, rfl, rfl⟩
  obtain ⟨accnt, marketId, instr, settlDay, id, ref, side, ticks, minLots, created, modified⟩ := kept
  simp only [row, Db.updateOrderRow, SqliteJourn.execRow, MsgQueue.execBody, accnt, marketId, instr, settlDay, id, ref, side,
    ticks, minLots, created, modified, shows.state, shows.lots, shows.resdLots, shows.execLots, shows.execCost, shows.lastLots,
    shows.lastTicks]

/-- The table has a row for each order. -/
structure Mirrors (db : Db) (live : OrderPtr → Prop) (orders : OrderPtr → Order) : Prop where
  row : ∀ p, live p → db.orders.find (orders p).key = some (orders p).row
  owner : ∀ k row, db.orders.find k = some row → ∃ p, live p ∧ (orders p).key = k

/-- Orders have ids of their own. -/
structure Keyed (live : OrderPtr → Prop) (orders : OrderPtr → Order) : Prop where
  positive : ∀ p, live p → 0 < (orders p).id
  unique : ∀ p q, live p → live q → (orders p).key = (orders q).key → p = q

section Mirrors

variable {db db' : Db} {live : OrderPtr → Prop} {orders orders' : OrderPtr → Order} {x : Exec} {q : OrderPtr}

theorem Keyed.congr (keyed : Keyed live orders) (same : ∀ p, (orders' p).Same (orders p)) : Keyed live orders' where
  positive p present := by
    rw [(same p).id]
    exact keyed.positive p present
  unique p q presentP presentQ key := keyed.unique p q presentP presentQ (by rwa [(same p).key, (same q).key] at key)

theorem Mirrors.congr (mirrors : Mirrors db live orders) (same : db'.orders = db.orders) : Mirrors db' live orders where
  row p present := by
    rw [same]
    exact mirrors.row p present
  owner k row found := mirrors.owner k row (same ▸ found)

/-- Every row is that of an order. -/
theorem Mirrors.row_of_find (mirrors : Mirrors db live orders) {k : IdKey} {row : OrderRow} (found : db.orders.find k = some row) :
    row.key = k ∧ ∃ p, live p ∧ row = (orders p).row := by
  obtain ⟨p, present, key⟩ := mirrors.owner k row found
  obtain rfl : row = (orders p).row := Option.some.inj (found.symm.trans (key ▸ mirrors.row p present))
  exact ⟨key, p, present, rfl⟩

/-- No row is there twice. -/
theorem Mirrors.rows_nodup (mirrors : Mirrors db live orders) : (db.orders.entries.map Prod.snd).Nodup := by
  refine .of_map OrderRow.key ?_
  have keys : (db.orders.entries.map Prod.snd).map OrderRow.key = db.orders.entries.map Prod.fst := by
    rw [List.map_map]
    exact List.map_congr_left fun x member => (mirrors.row_of_find (OrdMap.mem_entries.mp member)).1
  rw [keys]
  exact db.orders.nodup_keys

/-- The order of an execution, as the journal binds it. -/
theorem orderId_execRow (positive : 0 < x.orderId) : (SqliteJourn.execRow (MsgQueue.execBody x)).orderId = some x.orderId :=
  if_neg positive.ne'

theorem Mirrors.create {o : Order} {now : Int} (mirrors : Mirrors db live orders) (created : o.created = now)
    (modified : o.modified = now) (new : o.state = .new) (positive : 0 < o.id)
    (written : SqliteJourn.write db (.createExec (MsgQueue.execBody (.make o o.id now))) = some db') (fresh : ¬ live q) :
    Mirrors db' (fun p => live p ∨ p = q) (update orders q o) := by
  obtain ⟨absent, inserted⟩ := Db.insertExec_new written (orderId_execRow (x := .make o o.id now) positive) new
  have row : Db.newOrderRow (SqliteJourn.execRow (MsgQueue.execBody (.make o o.id now))) o.id = o.row :=
    Order.row_create created modified
  rw [show (Exec.make o o.id now).orderId = o.id from rfl, row] at absent inserted
  rw [show o.row.key = o.key from rfl] at absent inserted
  exact
    { row := fun p present => by
        rw [inserted, OrdMap.find_put]
        by_cases here : p = q
        · rw [here, update_self, if_pos rfl]
        · have old := mirrors.row p (present.resolve_right here)
          have differ : (orders p).key ≠ o.key := fun same => by
            rw [same, absent] at old
            cases old
          rw [update_of_ne here, if_neg differ]
          exact old
      owner := fun k row found => by
        rw [inserted, OrdMap.find_put] at found
        split at found
        next here => exact ⟨q, .inr rfl, by rw [update_self]; exact here.symm⟩
        next =>
          obtain ⟨p, present, key⟩ := mirrors.owner k row found
          exact ⟨p, .inl present, by rw [update_of_ne fun here : p = q => fresh (here ▸ present)]; exact key⟩ }

theorem Mirrors.report (mirrors : Mirrors db live orders) (keyed : Keyed live orders) (present : live q)
    (shows : x.Shows ((orders q).step x)) (notNew : x.state ≠ .new) (some_ : x.state ≠ .none)
    (apart : (Msg.createExec (MsgQueue.execBody x)).Apart db)
    (written : SqliteJourn.write db (.createExec (MsgQueue.execBody x)) = some db') :
    Mirrors db' live (update orders q ((orders q).step x)) := by
  have same : ((orders q).step x).Same (orders q) := Order.step_same _ _
  have id : x.orderId = (orders q).id := shows.orderId.trans same.id
  have market : x.marketId = (orders q).marketId := shows.marketId.trans same.marketId
  have updated := Db.insertExec_later written (orderId_execRow (id ▸ keyed.positive q present)) notNew
  have sameKey : ∀ p, (update orders q ((orders q).step x) p).key = (orders p).key := by
    intro p
    rw [update_apply]
    split
    next here => rw [here, same.key]
    next => rfl
  exact
    { row := fun p presentP => by
        have old := mirrors.row p presentP
        rw [updated, OrdMap.find_map, sameKey, old, Option.map_some]
        congr 1
        by_cases here : p = q
        · rw [here, update_self, if_pos (show (orders q).row.id = x.orderId from id.symm)]
          exact (Order.row_step shows notNew some_).symm
        · have differ : (orders p).row.id ≠ x.orderId := fun sameId => by
            have sameMarket : (orders p).marketId = x.marketId := apart notNew _ (OrdMap.mem_entries.mpr old) sameId
            refine here (keyed.unique p q presentP present (idKey_inj.mpr ⟨?_, ?_⟩))
            · exact sameMarket.trans market
            · exact sameId.trans id
          rw [update_of_ne here, if_neg differ]
      owner := fun k row found => by
        rw [updated, OrdMap.find_map] at found
        obtain ⟨row, found, -⟩ := Option.map_eq_some_iff.mp found
        obtain ⟨p, presentP, key⟩ := mirrors.owner k row found
        exact ⟨p, presentP, (sameKey p).trans key⟩ }

/-- The reports after the first one of an order. -/
theorem Mirrors.replays {xs : List (Exec × OrderPtr)} (mirrors : Mirrors db live orders) (keyed : Keyed live orders)
    (replays : Replays orders xs orders') (present : ∀ x ∈ xs, live x.2)
    (later : ∀ x ∈ xs, x.1.state ≠ .new ∧ x.1.state ≠ .none)
    (run : Run SqliteJourn.write Msg.Apart db (xs.map fun x => .createExec (MsgQueue.execBody x.1)) db') :
    Mirrors db' live orders' := by
  induction replays generalizing db with
  | nil =>
    obtain rfl := run.eq_of_nil
    exact mirrors
  | @cons orders _ x q xs shows _ inductionHypothesis =>
    obtain ⟨db₁, apart, written, rest⟩ := run.of_cons
    obtain ⟨presentFirst, present⟩ := List.forall_mem_cons.mp present
    obtain ⟨⟨notNew, some_⟩, later⟩ := List.forall_mem_cons.mp later
    refine inductionHypothesis (mirrors.report keyed presentFirst shows notNew some_ apart written) (keyed.congr fun p => ?_)
      present later rest
    rw [update_apply]
    split
    next here => rw [here]; exact Order.step_same _ _
    next => exact .refl _

end Mirrors

/-! ## The journal of a run -/

namespace App

variable {app app' : App} {op : Op}

/-- Whatever database the journal leads to, it has a row for each order. -/
def Mirrored (app : App) : Prop :=
  ∀ db, Run SqliteJourn.write Msg.Apart Db.empty app.mq.posted db →
    Mirrors db (fun p => (app.heap.orders.find p).isSome) app.plain

theorem mirrored_make (capacity maxExecs : Nat) : (App.make capacity maxExecs).Mirrored := by
  intro db run
  obtain rfl := run.eq_of_nil
  exact
    { row := fun p present => by cases present
      owner := fun k row found => by cases found }

theorem Inv.keyed (inv : app.Inv) : Keyed (fun p => (app.heap.orders.find p).isSome) app.plain where
  positive := inv.ids.positive
  unique p q presentP presentQ key := inv.ids.unique p q presentP presentQ key

/-- No step but these is about orders. -/
theorem Mirrored.unmoved (mirrored : app.Mirrored) (unmoved : Unmoved app app') {msgs : List Msg}
    (posted : app'.mq.posted = app.mq.posted ++ msgs)
    (others : ∀ msg ∈ msgs, (∀ body, msg ≠ .createExec body) ∨
      ∃ x : Exec, msg = .createExec (MsgQueue.execBody x) ∧ x.orderId = 0) : app'.Mirrored := by
  intro db run
  rw [posted] at run
  obtain ⟨before, first, second⟩ := run.of_append
  have mirrors := (mirrored before first).congr (SqliteJourn.run_orders second others)
  rw [unmoved.plain, show (fun p => (app'.heap.orders.find p).isSome = true) = fun p => (app.heap.orders.find p).isSome = true
    from funext fun p => by rw [unmoved.live p]]
  exact mirrors

theorem Mirrored.step (inv : app.Inv) (inv' : app'.Inv) (mirrored : app.Mirrored) (moves : Moves app op app') :
    app'.Mirrored := by
  cases moves with
  | still unmoved idle =>
    obtain ⟨msgs, posted, silent⟩ := idle.silent
    exact mirrored.unmoved unmoved posted fun msg member => .inl fun body same => silent body (same ▸ member)
  | byHand unmoved filed foreign =>
    refine mirrored.unmoved unmoved (congrArg MsgQueue.posted filed.journaled) fun msg member => ?_
    obtain ⟨x, listed, rfl⟩ := List.mem_map.mp member
    exact .inr ⟨x, rfl, foreign x listed⟩
  | @created a m ref side lots ticks minLots now busDay o _ incoming live told =>
    obtain ⟨es, filed⟩ := told.filed
    intro db run
    rw [congrArg MsgQueue.posted filed.journaled, newMoves, List.map_cons, List.map_cons] at run
    obtain ⟨before, first, second⟩ := run.of_append
    obtain ⟨db₁, apart, written, rest⟩ := second.of_cons
    have absent : ¬ (app.heap.orders.find app.heap.orders.fresh).isSome := fun present => OrdMap.ne_fresh present rfl
    have positive : 0 < o.id := by
      rw [incoming]
      exact Int.lt_add_one_of_le (inv.ids.nonneg m)
    have made := (mirrored before first).create (by rw [incoming]; rfl) (by rw [incoming]; rfl) (by rw [incoming]; rfl)
      positive written absent
    have present : (fun p => (app.heap.orders.find p).isSome = true ∨ p = app.heap.orders.fresh) =
        fun p => (app'.heap.orders.find p).isSome = true := by
      funext p
      rw [live, Heap.find_newOrder]
      split
      next here => simp [here]
      next differ => simp [differ]
    rw [present] at made
    have keyed : Keyed (fun p => (app'.heap.orders.find p).isSome) (update app.plain app.heap.orders.fresh o) :=
      inv'.keyed.congr fun p => (told.replays.same p).symm
    have replays := told.replays
    rw [newMoves] at replays
    cases replays with
    | cons _ later =>
      rw [update_self, (incoming_step incoming).1, update_idem] at later
      refine made.replays keyed later (fun x member => told.present x (List.mem_cons_of_mem _ member)) (fun x member => ?_)
        (by rwa [List.map_map] at rest)
      rw [newMoves_trade x member]
      exact ⟨by rintro ⟨⟩, by rintro ⟨⟩⟩
  | @changed a m change target now ps _ held live told =>
    obtain ⟨es, filed⟩ := told.filed
    intro db run
    rw [congrArg MsgQueue.posted filed.journaled, List.map_map] at run
    obtain ⟨before, first, second⟩ := run.of_append
    have same : (fun p => (app'.heap.orders.find p).isSome = true) = fun p => (app.heap.orders.find p).isSome = true :=
      funext fun p => by rw [live p]
    have present := told.present
    rw [same]
    refine (mirrored before first).replays inv.keyed told.replays (fun x member => ?_) (fun x member => ?_) second
    · rw [← live]
      exact told.present x member
    · obtain ⟨-, j, made⟩ := mem_zip_reportsOf member
      rw [made]
      cases change with
      | revise lots => exact ⟨by rintro ⟨⟩, by rintro ⟨⟩⟩
      | cancel => exact ⟨by rintro ⟨⟩, by rintro ⟨⟩⟩

end App

/-! ## Reading orders back -/

/-- The text is what a reader up to the first NUL makes of it. -/
def Symbol.Textual (s : Symbol) : Prop := .assign (toStringView s.buf) = s

/-- The row and the columns that are `NULL` in place of zero leave nothing of the order out. -/
structure Order.Readable (o : Order) : Prop where
  accnt : o.accnt.Textual
  ref : toStringView o.ref.data = o.ref.data
  last : 0 < o.lastLots ∨ o.lastLots = 0 ∧ o.lastTicks = 0

/-- The orders agree in what the engine works with. -/
structure Order.Agrees (o o' : Order) : Prop where
  accnt : o.accnt = o'.accnt
  marketId : o.marketId = o'.marketId
  id : o.id = o'.id
  ref : o.ref = o'.ref
  state : o.state = o'.state
  side : o.side = o'.side
  lots : o.lots = o'.lots
  ticks : o.ticks = o'.ticks
  resdLots : o.resdLots = o'.resdLots
  execLots : o.execLots = o'.execLots
  execCost : o.execCost = o'.execCost
  lastLots : o.lastLots = o'.lastLots
  lastTicks : o.lastTicks = o'.lastTicks
  minLots : o.minLots = o'.minLots

namespace Order

variable {o o' : Order} {xs : List Exec}

theorem Readable.agrees (readable : o.Readable) : o.row.order.Agrees o where
  accnt := readable.accnt
  marketId := rfl
  id := rfl
  ref := by
    show StringBuf.assign ((maybeNullText (toStringView o.ref.data)).getD []) = o.ref
    rw [maybeNullText_getD, readable.ref]
    exact StringBuf.assign_self o.ref
  state := rfl
  side := rfl
  lots := rfl
  ticks := rfl
  resdLots := rfl
  execLots := rfl
  execCost := rfl
  lastLots := by
    show (if 0 < o.lastLots then some o.lastLots else none).getD 0 = o.lastLots
    rcases readable.last with traded | ⟨lots, -⟩
    · rw [if_pos traded, Option.getD_some]
    · rw [lots]
      rfl
  lastTicks := by
    show (if 0 < o.lastLots then some o.lastTicks else none).getD 0 = o.lastTicks
    rcases readable.last with traded | ⟨lots, ticks⟩
    · rw [if_pos traded, Option.getD_some]
    · rw [lots, ticks]
      rfl
  minLots := rfl

theorem Replay.readable (replay : o.Replay xs o') (start : o.Readable)
    (trades : ∀ x ∈ xs, x.state = .trade → 0 < x.lastLots) : o'.Readable := by
  induction replay with
  | nil => exact start
  | @cons o _ x xs _ _ inductionHypothesis =>
    obtain ⟨first, trades⟩ := List.forall_mem_cons.mp trades
    refine inductionHypothesis ?_ trades
    have same := step_same o x
    refine ⟨same.accnt.symm ▸ start.accnt, same.ref.symm ▸ start.ref, ?_⟩
    cases state : x.state with
    | none | new | revise | cancel => simpa [step, state, create, revise, cancel] using start.last
    | trade =>
      have positive := first state
      simp [step, state, trade, tradeSum, positive]

end Order

/-- The texts of a new order are C strings. -/
def Op.Textual : Op → Prop
  | createOrder a _ ref _ _ _ _ _ _ =>
    a.Textual ∧ toStringView (StringBuf.assign ref : Ref).data = (StringBuf.assign ref : Ref).data
  | _ => True

instance (op : Op) : Decidable op.Textual :=
  match op with
  | .createOrder a _ ref _ _ _ _ _ _ => inferInstanceAs (Decidable (Symbol.assign (toStringView a.buf) = a ∧
      toStringView (StringBuf.assign ref : Ref).data = (StringBuf.assign ref : Ref).data))
  | .sess .. | .createMarket .. | .updateMarket .. | .changeOrder .. | .createTrade .. | .archiveExec .. | .archiveTrade ..
  | .archiveTrades .. | .pop => .isTrue trivial

namespace App

variable {app app' : App} {op : Op} {db : Db}

/-- The database keeps all of every order. -/
def AllReadable (app : App) : Prop := ∀ p, (app.heap.orders.find p).isSome → (app.order p).Readable

theorem AllReadable.step (inv : app.Inv) (sound : app.view.Sound) (readable : app.AllReadable) (positive : op.Positive)
    (textual : op.Textual) (moves : Moves app op app') : app'.AllReadable := by
  have plain {p : OrderPtr} (readable : (app'.plain p).Readable) : (app'.order p).Readable :=
    ⟨readable.accnt, readable.ref, readable.last⟩
  have before {p : OrderPtr} (present : (app.heap.orders.find p).isSome) : (app.plain p).Readable :=
    ⟨(readable p present).accnt, (readable p present).ref, (readable p present).last⟩
  intro p present
  refine plain ?_
  cases moves with
  | still unmoved | byHand unmoved =>
    rw [unmoved.plain]
    exact before ((unmoved.live p).symm.trans present)
  | @created a m ref side lots ticks minLots now busDay o _ incoming live told =>
    have start : (update app.plain app.heap.orders.fresh o p).Readable := by
      rw [update_apply]
      split
      next =>
        rw [incoming]
        exact ⟨textual.1, textual.2, .inr ⟨rfl, rfl⟩⟩
      next differ =>
        rw [live, Heap.find_newOrder, if_neg differ] at present
        exact before present
    refine (told.replays.single p).readable start fun x member traded => ?_
    obtain ⟨y, inside, rfl⟩ := List.mem_map.mp member
    cases List.mem_cons.mp (List.mem_filter.mp inside).1 with
    | inl first => rw [first, incoming] at traded; cases traded
    | inr later =>
      have positive : 0 < lots := positive
      have fresh : o.resdLots = o.lots ∧ o.lots = lots := by rw [incoming]; exact ⟨rfl, rfl⟩
      obtain ⟨fills, -⟩ := Sound.fills (m := m) inv sound fresh.1 (by omega)
      obtain ⟨f, matched, made⟩ := List.mem_flatMap.mp later
      cases List.mem_pair.mp made with
      | inl maker => rw [maker]; exact fills f matched
      | inr taker => rw [taker]; exact fills f matched
  | @changed a m change target now ps _ held live told =>
    refine (told.replays.single p).readable (before ((live p).symm.trans present)) fun x member traded => ?_
    obtain ⟨y, inside, rfl⟩ := List.mem_map.mp member
    obtain ⟨-, j, made⟩ := mem_zip_reportsOf (List.mem_filter.mp inside).1
    rw [made] at traded
    cases change with
    | revise lots => cases traded
    | cancel => cases traded

/-- The rows that the order `Select` returns are the live orders. -/
def SelectsLive (app : App) (db : Db) : Prop :=
  ∀ rows, db.SelectsOrders rows → ∃ ps : List OrderPtr, ps.Nodup ∧ (∀ p, p ∈ ps ↔ ∃ m s, p ∈ (app.view.side m s).orders) ∧
    rows.Forall₂ (fun row p => row.order.Agrees (app.order p)) ps

theorem Mirrors.selectsLive (inv : app.Inv) (sound : app.view.AllSound) (readable : app.AllReadable)
    (mirrors : Mirrors db (fun p => (app.heap.orders.find p).isSome) app.plain) : app.SelectsLive db := by
  intro rows selected
  obtain ⟨live, open_⟩ : ∃ live : List OrderPtr, live = (app.heap.orders.entries.map Prod.fst).filter fun p =>
    0 < (app.order p).resdLots := ⟨_, rfl⟩
  have mem_live : ∀ p, p ∈ live ↔ (app.heap.orders.find p).isSome ∧ 0 < (app.order p).resdLots := by
    intro p
    rw [open_, List.mem_filter, OrdMap.mem_keys, decide_eq_true_iff]
  have same : ((db.orders.entries.map Prod.snd).filter fun row => 0 < row.resdLots).Perm
      (live.map fun p => (app.order p).row) := by
    refine (List.perm_ext_iff_of_nodup (mirrors.rows_nodup.filter _) ?_).mpr fun row => ?_
    · refine .map_on (fun p listed q also same => ?_) (open_ ▸ app.heap.orders.nodup_keys.filter _)
      exact inv.ids.unique p q ((mem_live p).mp listed).1 ((mem_live q).mp also).1 (congrArg OrderRow.key same)
    · constructor
      · intro member
        obtain ⟨inside, positive⟩ := List.mem_filter.mp member
        obtain ⟨⟨k, _⟩, entry, rfl⟩ := List.mem_map.mp inside
        obtain ⟨-, p, present, made⟩ := mirrors.row_of_find (OrdMap.mem_entries.mp entry)
        refine List.mem_map.mpr ⟨p, (mem_live p).mpr ⟨present, ?_⟩, made.symm⟩
        have positive := of_decide_eq_true positive
        rw [made] at positive
        exact positive
      · intro member
        obtain ⟨p, listed, rfl⟩ := List.mem_map.mp member
        obtain ⟨present, positive⟩ := (mem_live p).mp listed
        refine List.mem_filter.mpr ⟨List.mem_map.mpr ⟨_, OrdMap.mem_entries.mpr (mirrors.row p present), rfl⟩, ?_⟩
        exact decide_eq_true positive
  have made : List.Forall₂ (fun (row : OrderRow) p => row.order.Agrees (app.order p)) (live.map fun p => (app.order p).row) live :=
    List.forall₂_map_left_iff.mpr (List.forall₂_same.mpr fun p listed => (readable p ((mem_live p).mp listed).1).agrees)
  obtain ⟨ps, pairs, perm⟩ := List.perm_comp_forall₂ (selected.trans same) made
  refine ⟨ps, perm.nodup_iff.mpr (open_ ▸ app.heap.orders.nodup_keys.filter _), fun p => ?_, pairs⟩
  rw [perm.mem_iff, mem_live, listed_iff inv sound]

/-- The journal refines the book while no trigger meets an order of another market with the same id. -/
theorem select_refines {capacity maxExecs : Nat} {ops : List Op}
    (run : Run App.step (fun _ op => op.Positive ∧ op.Textual) (App.make capacity maxExecs) ops app)
    (journal : Run SqliteJourn.write Msg.Apart Db.empty app.mq.posted db) : app.SelectsLive db := by
  have kept : app.Inv ∧ app.view.AllSound ∧ app.AllReadable ∧ app.Mirrored := by
    refine run.invariant (I := fun t => t.Inv ∧ t.view.AllSound ∧ t.AllReadable ∧ t.Mirrored)
      (fun t op u kept allowed stepped => ?_)
      ⟨.make _ _, (fun _ present => by cases present), (fun _ present => by cases present), mirrored_make _ _⟩
    obtain ⟨inv, sound, readable, mirrored⟩ := kept
    obtain ⟨t₀, view, -, inv₀, effect, -⟩ := step_effect inv stepped
    have inv' := inv.step stepped
    have moves := step_moves inv stepped
    exact ⟨inv', effect.allSound inv₀ (view ▸ sound) allowed.1, readable.step inv sound.sound allowed.1 allowed.2 moves,
      mirrored.step inv inv' moves⟩
  obtain ⟨inv, sound, readable, mirrored⟩ := kept
  exact Mirrors.selectsLive inv sound readable (mirrored db journal)

/-- Two markets in which no order that trades or changes shares its id. -/
theorem select_refines_two :
    let a : Symbol := .assign (bytes "MARAYL")
    let b : Symbol := .assign (bytes "GOSAYL")
    let m := toMarketId 1 0
    let n := toMarketId 2 0
    ∃ app db, Run App.step (fun _ op => op.Positive ∧ op.Textual) (App.make 16 16)
        [.createMarket 1 (.assign (bytes "EURUSD")) 0 0 0, .createMarket 2 (.assign (bytes "GBPUSD")) 0 0 0,
          .createOrder a m (bytes "one") .sell 10 5 0 2 0, .createOrder b n [] .sell 7 6 0 3 0,
          .createOrder a n (bytes "two") .sell 4 9 0 4 0, .changeOrder a n (.revise 3) (.id 2) 5] app ∧
      Run SqliteJourn.write Msg.Apart Db.empty app.mq.posted db ∧ app.SelectsLive db ∧
      db.orders.entries.map (fun x => (x.2.marketId, x.2.id, x.2.resdLots)) = [(m, 1, 10), (n, 1, 7), (n, 2, 3)] := by
  intro a b m n
  have made : ∃ app ∈ Run.exec App.step (fun _ op => op.Positive ∧ op.Textual) (App.make 16 16)
      [.createMarket 1 (.assign (bytes "EURUSD")) 0 0 0, .createMarket 2 (.assign (bytes "GBPUSD")) 0 0 0,
        .createOrder a m (bytes "one") .sell 10 5 0 2 0, .createOrder b n [] .sell 7 6 0 3 0,
        .createOrder a n (bytes "two") .sell 4 9 0 4 0, .changeOrder a n (.revise 3) (.id 2) 5],
      ∃ db ∈ Run.exec SqliteJourn.write Msg.Apart Db.empty app.mq.posted,
        db.orders.entries.map (fun x => (x.2.marketId, x.2.id, x.2.resdLots)) = [(m, 1, 10), (n, 1, 7), (n, 2, 3)] := by
    decide
  obtain ⟨app, done, db, applied, rows⟩ := made
  exact ⟨app, db, .of_exec done, .of_exec applied, select_refines (.of_exec done) (.of_exec applied), rows⟩

/-- A revision in one market overwrites the order of another market that has the same id. -/
theorem select_of_other_market :
    let a : Symbol := .assign (bytes "MARAYL")
    let m := toMarketId 1 0
    let n := toMarketId 2 0
    ∃ app db, Run App.step (fun _ op => op.Positive ∧ op.Textual) (App.make 16 16)
        [.createMarket 1 (.assign (bytes "EURUSD")) 0 0 0, .createMarket 2 (.assign (bytes "GBPUSD")) 0 0 0,
          .createOrder a m [] .sell 10 5 0 2 0, .createOrder a n [] .sell 7 6 0 3 0,
          .changeOrder a m (.revise 8) (.id 1) 4] app ∧
      app.mq.posted.foldlM SqliteJourn.write Db.empty = some db ∧ ¬ app.SelectsLive db := by
  intro a m n
  have made : ∃ app ∈ Run.exec App.step (fun _ op => op.Positive ∧ op.Textual) (App.make 16 16)
      [.createMarket 1 (.assign (bytes "EURUSD")) 0 0 0, .createMarket 2 (.assign (bytes "GBPUSD")) 0 0 0,
        .createOrder a m [] .sell 10 5 0 2 0, .createOrder a n [] .sell 7 6 0 3 0, .changeOrder a m (.revise 8) (.id 1) 4],
      ∃ db ∈ app.mq.posted.foldlM SqliteJourn.write Db.empty,
        (∃ row ∈ (db.orders.entries.map Prod.snd).filter fun row => 0 < row.resdLots, row.marketId = n ∧ row.resdLots = 8) ∧
          ∀ x ∈ app.heap.orders.entries, ¬ (x.2.marketId = n ∧ x.2.resdLots = 8) := by decide
  obtain ⟨app, done, db, applied, ⟨row, inside, market, resdLots⟩, none_such⟩ := made
  have run : Run App.step (fun _ op => op.Positive ∧ op.Textual) (App.make 16 16) _ app := .of_exec done
  refine ⟨app, db, run, applied, fun selects => ?_⟩
  obtain ⟨ps, -, listed, pairs⟩ := selects _ (.refl _)
  obtain ⟨⟨i, bound⟩, rfl⟩ := List.mem_iff_get.mp inside
  obtain ⟨p, paired⟩ : ∃ p, p = ps.get ⟨i, pairs.length_eq ▸ bound⟩ := ⟨_, rfl⟩
  have agrees := pairs.get bound (pairs.length_eq ▸ bound)
  rw [← paired] at agrees
  obtain ⟨k, s, here⟩ := (listed p).mp (paired ▸ List.get_mem _ _)
  have present := ((Inv.make 16 16).run run).live.present here
  refine none_such (p, app.order p) (OrdMap.mem_entries.mpr (OrdMap.find_eq_some_get present)) ⟨?_, ?_⟩
  · exact agrees.marketId.symm.trans market
  · exact agrees.resdLots.symm.trans resdLots

end App

end Swirly
