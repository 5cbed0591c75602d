import Swirly.Lob.Sess

/-!
# The database

The tables of `etc/sql/schema.sqlite` that the journal writes, and the triggers of `exec_t`.  A table is a map from its
primary key; an operation returns `none` where a row with the key of a new row is there already, so that the statement
fails and leaves the tables as they were.  The connection does not enforce foreign keys (`sqlite_enable_fkey` is off).

Text columns hold the bytes of the text, times are in milliseconds, a column that may be `NULL` is an `Option`, and the
columns of enumerations keep their type, with `LiqInd::None` for `NULL`.  Of `accnt_t` only `max_id` is read.
-/

namespace Swirly

structure MarketRow where
  instr : Bytes
  settlDay : Option Int
  state : Nat
  lastLots : Option Int
  lastTicks : Option Int
  lastTime : Option Int
  deriving DecidableEq

structure OrderRow where
  accnt : Bytes
  marketId : Int
  instr : Bytes
  settlDay : Option Int
  id : Int
  ref : Option Bytes
  state : State
  side : Side
  lots : Int
  ticks : Int
  resdLots : Int
  execLots : Int
  execCost : Int
  lastLots : Option Int
  lastTicks : Option Int
  minLots : Int
  created : Int
  modified : Int
  deriving DecidableEq

structure ExecRow where
  accnt : Bytes
  marketId : Int
  instr : Bytes
  settlDay : Option Int
  id : Int
  orderId : Option Int
  ref : Option Bytes
  seqId : Option Int
  state : State
  side : Side
  lots : Int
  ticks : Int
  resdLots : Int
  execLots : Int
  execCost : Int
  lastLots : Option Int
  lastTicks : Option Int
  minLots : Int
  matchId : Option Int
  posnLots : Int
  posnCost : Int
  liqInd : LiqInd
  cpty : Option Bytes
  created : Int
  archive : Option Int
  deriving DecidableEq

def OrderRow.key (row : OrderRow) : IdKey := idKey row.marketId row.id

def ExecRow.key (row : ExecRow) : IdKey := idKey row.marketId row.id

structure Db where
  markets : OrdMap Int MarketRow
  orders : OrdMap IdKey OrderRow
  execs : OrdMap IdKey ExecRow
  /-- `max_id` by symbol. -/
  accnts : OrdMap Bytes Int
  deriving DecidableEq

namespace Db

/-- The tables as the schema creates them. -/
def empty : Db := { markets := ∅, orders := ∅, execs := ∅, accnts := ∅ }

/-! ## Triggers -/

/-- The market's last trade. -/
def beforeInsertOnExec1 (db : Db) (new : ExecRow) : Db :=
  if new.state = .trade then
    match db.markets.find new.marketId with
    | none => db
    | some row =>
      { db with markets := db.markets.put new.marketId { row with
          lastLots := new.lastLots, lastTicks := new.lastTicks, lastTime := some new.created } }
  else db

/-- The row that `before_insert_on_exec2` inserts. -/
def newOrderRow (new : ExecRow) (orderId : Int) : OrderRow :=
  { accnt := new.accnt, marketId := new.marketId, instr := new.instr, settlDay := new.settlDay, id := orderId,
    ref := new.ref, state := new.state, side := new.side, lots := new.lots, ticks := new.ticks,
    resdLots := new.resdLots, execLots := new.execLots, execCost := new.execCost, lastLots := new.lastLots,
    lastTicks := new.lastTicks, minLots := new.minLots, created := new.created, modified := new.created }

def beforeInsertOnExec2 (db : Db) (new : ExecRow) : Option Db :=
  match new.orderId with
  | none => some db
  | some orderId =>
    if new.state = .new then
      let row := newOrderRow new orderId
      if (db.orders.find row.key).isSome then none else some { db with orders := db.orders.put row.key row }
    else some db

/-- What `before_insert_on_exec3` sets in a row that its `WHERE` clause selects. -/
def updateOrderRow (new : ExecRow) (row : OrderRow) : OrderRow :=
  { row with
    state := new.state
    lots := new.lots
    resdLots := new.resdLots
    execLots := new.execLots
    execCost := new.execCost
    lastLots := new.lastLots
    lastTicks := new.lastTicks
    modified := new.created }

def beforeInsertOnExec3 (db : Db) (new : ExecRow) : Db :=
  match new.orderId with
  | none => db
  | some orderId =>
    -- `WHERE id = NEW.order_id`: the market is not compared.
    if new.state ≠ .new then
      { db with orders := db.orders.map fun row => if row.id = orderId then updateOrderRow new row else row }
    else db

/-- The account's sequence. -/
def afterInsertOnExec1 (db : Db) (new : ExecRow) : Db :=
  let maxId := (db.accnts.find new.accnt).getD 0 + 1
  { db with
    accnts := db.accnts.put new.accnt maxId
    execs := db.execs.put new.key { new with seqId := some maxId } }

/-- `INSERT INTO exec_t`. -/
def insertExec (db : Db) (new : ExecRow) : Option Db :=
  match (db.beforeInsertOnExec1 new).beforeInsertOnExec2 new with
  | none => none
  | some db =>
    let db := db.beforeInsertOnExec3 new
    if (db.execs.find new.key).isSome then none
    else some ({ db with execs := db.execs.put new.key new }.afterInsertOnExec1 new)

end Db

end Swirly
