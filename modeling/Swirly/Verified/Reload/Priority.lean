import Swirly.Swirlyd.Restart
import Swirly.Verified.Reload.LastTrade
import Swirly.Verified.RowKeys

/-!
# Priority over a reload

The journal keeps a row for each order, and one for each market, so that what `App::load` reads are the live orders: the
rebuilt book then has the priority of the live one exactly when the rows of a price come by id.
-/

namespace Swirly

namespace SqliteJourn

variable {Allowed : Db → Msg → Prop} {msgs : List Msg} {db : Db}

/-- A market that the messages create has a row. -/
theorem opens_written (run : Run write Allowed Db.empty msgs db) {n : Int} (opens : Opens n msgs) :
    (db.markets.find n).isSome := by
  obtain ⟨instr, settlDay, state, member⟩ := opens
  have holds : Holds msgs db :=
    run.invariant_history (I := Holds) (fun _ _ _ _ holds _ written => holds.write written) .empty
  exact (holds.markets n).mpr (List.mem_filterMap.mpr ⟨_, member, rfl⟩)

end SqliteJourn

namespace App

variable {app app' : App} {op : Op} {db : Db} {rows : List OrderRow}

/-- No step takes a message back. -/
theorem step_posted (inv : app.Inv) (stepped : app.step op = some app') : ∃ msgs, app'.mq.posted = app.mq.posted ++ msgs := by
  cases step_filing inv stepped with
  | idle idle =>
    obtain ⟨msgs, posted, -⟩ := idle.silent
    exact ⟨msgs, posted⟩
  | created _ _ filed | changed _ _ filed | oneSided _ _ filed | twoSided _ _ _ _ filed =>
    exact ⟨_, congrArg MsgQueue.posted filed.journaled⟩

/-- What a run keeps for its journal: a row for each order, and the creation of each market. -/
structure Journals (app : App) : Prop where
  inv : app.Inv
  mirrored : app.Mirrored
  opens : ∀ n, (app.listing n).isSome → Opens n app.mq.posted

theorem Journals.step (journals : app.Journals) (stepped : app.step op = some app') : app'.Journals := by
  obtain ⟨msgs, posted⟩ := step_posted journals.inv stepped
  have inv' := journals.inv.step stepped
  exact
    { inv := inv'
      mirrored := journals.mirrored.step journals.inv inv' (step_moves journals.inv stepped)
      opens := fun n => opens_step journals.inv (journals.opens n) posted stepped }

theorem journals_make (capacity maxExecs : Nat) : (App.make capacity maxExecs).Journals where
  inv := .make capacity maxExecs
  mirrored := mirrored_make capacity maxExecs
  opens n listed := by cases listed

/-- What the `Select` reads from the tables are the live orders with positive open lots, and their markets. -/
theorem Journals.delivers (journals : app.Journals)
    (journal : Run SqliteJourn.write Msg.Apart Db.empty app.mq.posted db) (selected : db.SelectsOrders rows)
    (execs trades : List ExecRow) (posns : List (PosnPtr × Posn)) :
    Delivers app rows (db.model rows execs trades posns) := by
  have mirrors := journals.mirrored db journal
  have inv := journals.inv
  constructor
  case orders => rfl
  case nodup => exact (selected.nodup_iff).mpr (mirrors.rows_nodup.filter _)
  case selected =>
    intro row
    rw [selected.mem_iff, List.mem_filter, decide_eq_true_iff, and_comm]
    refine and_congr_right fun positive => ?_
    constructor
    · intro inside
      obtain ⟨⟨k, _⟩, entry, rfl⟩ := List.mem_map.mp inside
      obtain ⟨-, p, present, made⟩ := mirrors.row_of_find (OrdMap.mem_entries.mp entry)
      rw [made] at positive
      -- An order with open lots is listed on its side.
      have listed := inv.complete p present positive.ne'
      exact ⟨_, _, List.mem_map.mpr ⟨p, listed, made.symm⟩⟩
    · rintro ⟨m, s, inside⟩
      obtain ⟨p, listed, rfl⟩ := List.mem_map.mp inside
      exact List.mem_map.mpr ⟨_, OrdMap.mem_entries.mpr (mirrors.row p (inv.live.present listed)), rfl⟩
  case markets =>
    intro n known
    have opens := journals.opens n (by rw [listing]; simpa using known)
    obtain ⟨row, found⟩ := Option.isSome_iff_exists.mp (SqliteJourn.opens_written journal opens)
    exact List.mem_map.mpr ⟨_, List.mem_map.mpr ⟨(n, row), OrdMap.mem_entries.mpr found, rfl⟩, rfl⟩
  case empty =>
    intro x member
    obtain ⟨e, -, rfl⟩ := List.mem_map.mp member
    exact ⟨rfl, rfl⟩

/-- A reload from a journal whose triggers meet no order of another market preserves the priority exactly when all live
orders have positive open lots, as the statement asks, and the rows of one market, side and price are delivered in the order
of their ids. -/
theorem load_samePriority_iff {capacity maxExecs : Nat} {ops : List Op}
    (run : Run App.step (fun _ _ => True) (App.make capacity maxExecs) ops app)
    (journal : Run SqliteJourn.write Msg.Apart Db.empty app.mq.posted db) (selected : db.SelectsOrders rows)
    (execs trades : List ExecRow) (posns : List (PosnPtr × Posn)) (capacity' maxExecs' : Nat) (now busDay : Int) :
    ∃ app', (App.make capacity' maxExecs').load (db.model rows execs trades posns) now busDay = some app' ∧
      (SamePriority app app' ↔ (∀ m s, ∀ row ∈ app.sideRows m s, 0 < row.resdLots) ∧ ById rows) := by
  have journals : app.Journals :=
    run.invariant (fun _ _ _ journals _ stepped => journals.step stepped) (journals_make capacity maxExecs)
  exact (journals.delivers journal selected execs trades posns).samePriority_iff run capacity' maxExecs' now busDay

/-- Two bids at one price and an offer in another market, whose rows come in the order of their ids. -/
theorem load_samePriority_bids :
    let a : Symbol := .assign (bytes "MARAYL")
    let m := toMarketId 1 0
    let n := toMarketId 2 0
    ∃ app db rows app', Run App.step (fun _ _ => True) (App.make 16 16)
        [.createMarket 1 (.assign (bytes "EURUSD")) 0 0 0, .createMarket 2 (.assign (bytes "GBPUSD")) 0 0 0,
          .createOrder a m [] .buy 10 100 0 7 0, .createOrder a m [] .buy 5 100 0 8 0,
          .createOrder a n [] .sell 3 50 0 9 0, .changeOrder a m (.revise 4) (.id 2) 10] app ∧
      Run SqliteJourn.write Msg.Apart Db.empty app.mq.posted db ∧ db.SelectsOrders rows ∧
      rows.map (fun row => (row.marketId, row.id, row.resdLots)) = [(m, 1, 10), (m, 2, 4), (n, 1, 3)] ∧
      (App.make 16 16).load (db.model rows [] [] []) 11 0 = some app' ∧ SamePriority app app' := by
  intro a m n
  have made : ∃ app ∈ Run.exec App.step (fun _ _ => True) (App.make 16 16)
      [.createMarket 1 (.assign (bytes "EURUSD")) 0 0 0, .createMarket 2 (.assign (bytes "GBPUSD")) 0 0 0,
        .createOrder a m [] .buy 10 100 0 7 0, .createOrder a m [] .buy 5 100 0 8 0,
        .createOrder a n [] .sell 3 50 0 9 0, .changeOrder a m (.revise 4) (.id 2) 10],
      ∃ db ∈ Run.exec SqliteJourn.write Msg.Apart Db.empty app.mq.posted,
        (∀ e ∈ app.heap.orders.entries, 0 < e.2.resdLots) ∧ db.SelectsOrders (db.orders.entries.map Prod.snd) ∧
        (db.orders.entries.map Prod.snd).map (fun row => (row.marketId, row.id, row.resdLots)) =
          [(m, 1, 10), (m, 2, 4), (n, 1, 3)] ∧ ById (db.orders.entries.map Prod.snd) := by decide
  obtain ⟨app, done, db, applied, open_, selected, columns, byId⟩ := made
  have run := Run.of_exec done
  have journal := Run.of_exec applied
  obtain ⟨app', loaded, agrees⟩ := load_samePriority_iff run journal selected [] [] [] 16 16 11 0
  refine ⟨app, db, _, app', run, journal, selected, columns, loaded, agrees.mpr ⟨fun k s row member => ?_, byId⟩⟩
  obtain ⟨p, listed, rfl⟩ := List.mem_map.mp member
  have present := ((Inv.make 16 16).run run).live.present listed
  exact open_ (p, app.order p) (OrdMap.mem_entries.mpr (OrdMap.find_eq_some_get present))

/-- Two bids at one price, whose rows come in the order of their open lots, as from the index `order_resd_idx`. -/
theorem load_by_resdLots :
    let a : Symbol := .assign (bytes "MARAYL")
    let m := toMarketId 1 0
    ∃ app db rows app', Run App.step (fun _ _ => True) (App.make 16 16)
        [.createMarket 1 (.assign (bytes "EURUSD")) 0 0 0, .createOrder a m [] .buy 10 100 0 7 0,
          .createOrder a m [] .buy 5 100 0 8 0] app ∧
      Run SqliteJourn.write Msg.Apart Db.empty app.mq.posted db ∧ db.SelectsOrders rows ∧
      rows.map OrderRow.resdLots = [5, 10] ∧
      (App.make 16 16).load (db.model rows [] [] []) 9 0 = some app' ∧
      (app.sideRows m .buy).map OrderRow.id = [1, 2] ∧ (app'.sideRows m .buy).map OrderRow.id = [2, 1] ∧
      ¬ SamePriority app app' := by
  intro a m
  have made : ∃ app ∈ Run.exec App.step (fun _ _ => True) (App.make 16 16)
      [.createMarket 1 (.assign (bytes "EURUSD")) 0 0 0, .createOrder a m [] .buy 10 100 0 7 0,
        .createOrder a m [] .buy 5 100 0 8 0],
      ∃ db ∈ Run.exec SqliteJourn.write Msg.Apart Db.empty app.mq.posted,
      ∃ app' ∈ (App.make 16 16).load (db.model (db.orders.entries.map Prod.snd).reverse [] [] []) 9 0,
        db.SelectsOrders (db.orders.entries.map Prod.snd).reverse ∧
        (db.orders.entries.map Prod.snd).reverse.map OrderRow.resdLots = [5, 10] ∧
        (app.sideRows m .buy).map OrderRow.id = [1, 2] ∧ (app'.sideRows m .buy).map OrderRow.id = [2, 1] := by decide
  obtain ⟨app, done, db, applied, app', loaded, selected, resdLots, before, after⟩ := made
  refine ⟨app, db, _, app', .of_exec done, .of_exec applied, selected, resdLots, loaded, before, after, fun same => ?_⟩
  rw [same.rows, before] at after
  cases after

end App

end Swirly
