import Swirly.Db.Schema
import Swirly.Fin.Market

/-!
# Reading the tables

The `SELECT` statements of `db/Sql.hxx` and the reads of `db/SqliteModel.cpp`.  A `NULL` is read as zero or as the empty
text.
-/

namespace Swirly

/-- `to_time` of a count of milliseconds. -/
def toTime (ms : Int) : Int := ms * 1000000

/-- `Order::make` of the columns. -/
def OrderRow.order (row : OrderRow) : Order :=
  { accnt := .assign row.accnt, marketId := row.marketId, instr := .assign row.instr, settlDay := row.settlDay.getD 0,
    id := row.id, ref := .assign (row.ref.getD []), side := row.side, lots := row.lots, created := toTime row.created,
    state := row.state, ticks := row.ticks, resdLots := row.resdLots, execLots := row.execLots,
    execCost := row.execCost, lastLots := row.lastLots.getD 0, lastTicks := row.lastTicks.getD 0,
    minLots := row.minLots, modified := toTime row.modified, level := none }

/-- `rows` is a result of the statement.  It has no `ORDER BY`, so the rows come in any order. -/
def Db.SelectsOrders (db : Db) (rows : List OrderRow) : Prop :=
  rows.Perm ((db.orders.entries.map Prod.snd).filter fun row => 0 < row.resdLots)

instance (db : Db) (rows : List OrderRow) : Decidable (db.SelectsOrders rows) := inferInstanceAs (Decidable (List.Perm _ _))

/-- `Exec::make` of the columns. -/
def ExecRow.exec (row : ExecRow) : Exec :=
  { accnt := .assign row.accnt, marketId := row.marketId, instr := .assign row.instr, settlDay := row.settlDay.getD 0,
    id := row.id, ref := .assign (row.ref.getD []), side := row.side, lots := row.lots, created := toTime row.created,
    orderId := row.orderId.getD 0, state := row.state, ticks := row.ticks, resdLots := row.resdLots,
    execLots := row.execLots, execCost := row.execCost, lastLots := row.lastLots.getD 0,
    lastTicks := row.lastTicks.getD 0, minLots := row.minLots, matchId := row.matchId.getD 0, posnLots := row.posnLots,
    posnCost := row.posnCost, liqInd := row.liqInd, cpty := .assign (row.cpty.getD []) }

namespace Db

/-- `exec::SelectSql`: the latest rows first, by the sequences of the accounts. -/
def SelectsExecs (db : Db) (since : Int) (rows : List ExecRow) : Prop :=
  rows.Perm ((db.execs.entries.map Prod.snd).filter fun row => msSinceEpoch since < row.created) ∧
    rows.Pairwise fun row later => later.seqId.getD 0 ≤ row.seqId.getD 0

instance (db : Db) (since : Int) (rows : List ExecRow) : Decidable (db.SelectsExecs since rows) :=
  inferInstanceAs (Decidable (_ ∧ _))

/-- `trade::SelectSql`. -/
def SelectsTrades (db : Db) (rows : List ExecRow) : Prop :=
  rows.Perm ((db.execs.entries.map Prod.snd).filter fun row => row.state = .trade ∧ row.archive = none)

instance (db : Db) (rows : List ExecRow) : Decidable (db.SelectsTrades rows) := inferInstanceAs (Decidable (List.Perm _ _))

/-- `MAX(e.id)` of `market_v`. -/
def maxId (db : Db) (marketId : Int) : Int :=
  (((db.execs.entries.map Prod.snd).filter fun row => row.marketId = marketId).map ExecRow.id).max?.getD 0

/-- `Market::make` of the columns of `market_v`. -/
def market (db : Db) (id : Int) (row : MarketRow) : Market :=
  { instr := .assign row.instr, settlDay := row.settlDay.getD 0, state := row.state, lastLots := row.lastLots.getD 0,
    lastTicks := row.lastTicks.getD 0, lastTime := toTime (row.lastTime.getD 0), bidSide := .empty, offerSide := .empty,
    maxId := db.maxId id }

/-- `do_read_market`, in the order of the keys. -/
def readMarkets (db : Db) : List (Int × Market) := db.markets.entries.map fun e => (e.1, db.market e.1 e.2)

end Db

end Swirly
