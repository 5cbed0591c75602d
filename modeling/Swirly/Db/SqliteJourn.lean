import Swirly.Db.Schema
import Swirly.Fin.MsgQueue

/-!
# The journal

`db/SqliteJourn.cpp`: each message is a statement.  The parameters are bound as in `db/Sqlite.hxx`.
-/

namespace Swirly

/-- `bind(.., MaybeNull)`. -/
def maybeNull (val : Int) : Option Int := if val = 0 then none else some val

def maybeNullText (val : Bytes) : Option Bytes := if val.isEmpty then none else some val

namespace SqliteJourn

/-- `on_create_market`. -/
def createMarket (db : Db) (id : Int) (instr : Bytes) (settlDay : Int) (state : Nat) : Option Db :=
  let row : MarketRow :=
    { instr := toStringView instr, settlDay := maybeNull settlDay, state, lastLots := none, lastTicks := none,
      lastTime := none }
  if (db.markets.find id).isSome then none else some { db with markets := db.markets.put id row }

/-- `on_update_market`. -/
def updateMarket (db : Db) (id : Int) (state : Nat) : Db :=
  match db.markets.find id with
  | none => db
  | some row => { db with markets := db.markets.put id { row with state } }

/-- The parameters that `on_create_exec` binds. -/
def execRow (body : CreateExec) : ExecRow :=
  { accnt := toStringView body.accnt
    marketId := body.marketId
    instr := toStringView body.instr
    settlDay := maybeNull body.settlDay
    id := body.id
    orderId := maybeNull body.orderId
    ref := maybeNullText (toStringView body.ref)
    seqId := none
    state := body.state
    side := body.side
    lots := body.lots
    ticks := body.ticks
    resdLots := body.resdLots
    execLots := body.execLots
    execCost := body.execCost
    lastLots := if 0 < body.lastLots then some body.lastLots else none
    lastTicks := if 0 < body.lastLots then some body.lastTicks else none
    minLots := body.minLots
    matchId := maybeNull body.matchId
    posnLots := body.posnLots
    posnCost := body.posnCost
    liqInd := body.liqInd
    cpty := maybeNullText (toStringView body.cpty)
    created := body.created
    archive := none }

/-- `on_create_exec`. -/
def createExec (db : Db) (body : CreateExec) : Option Db := db.insertExec (execRow body)

/-- `UPDATE exec_t SET archive`. -/
def archive (db : Db) (marketId : Int) (modified : Int) (id : Int) : Db :=
  match db.execs.find (idKey marketId id) with
  | none => db
  | some row => { db with execs := db.execs.put (idKey marketId id) { row with archive := some modified } }

/-- `on_archive_trade`: the ids end at the first zero. -/
def archiveTrade (db : Db) (marketId : Int) (ids : List Int) (modified : Int) : Db :=
  (ids.takeWhile (· ≠ 0)).foldl (fun db id => archive db marketId modified id) db

def write (db : Db) : Msg → Option Db
  | .createMarket id instr settlDay state => createMarket db id instr settlDay state
  | .updateMarket id state => some (updateMarket db id state)
  | .createExec body => createExec db body
  | .archiveTrade marketId ids modified => some (archiveTrade db marketId ids modified)

end SqliteJourn

end Swirly
