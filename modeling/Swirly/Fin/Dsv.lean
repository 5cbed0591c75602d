import Swirly.Db.ReadPosn
import Swirly.Fin.Market
import Swirly.Fin.Output
import Swirly.Web.Page

/-!
# Records as delimited text

`to_dsv` of the records, the files of them that `tool/DbToDsv.cpp` writes, and `fin/DsvModel.cpp`, which reads such files by
the position of the columns.  Numbers are read by `stoi` of `util/String.cpp`, and a record whose numbers do not fit is none.
-/

namespace Swirly

/-! ## Assets and instruments -/

inductive AssetType where
  | none | cmdty | corp | ccy | eqty | govt | index
  deriving DecidableEq

def AssetType.num : AssetType → Int
  | none => 0
  | cmdty => 1
  | corp => 2
  | ccy => 3
  | eqty => 4
  | govt => 5
  | index => 6

def maxDisplay : Nat := 64

abbrev Display := StringBuf maxDisplay

structure Asset where
  id : Int
  symbol : Symbol
  display : Display
  type : AssetType
  deriving DecidableEq

/-- Without the increments and decimal places that the constructor derives from the others. -/
structure Instr where
  id : Int
  symbol : Symbol
  display : Display
  baseAsset : Symbol
  termCcy : Symbol
  lotNumer : Int
  lotDenom : Int
  tickNumer : Int
  tickDenom : Int
  pipDp : Int
  minLots : Int
  maxLots : Int
  deriving DecidableEq

/-- A market with its id. -/
structure KeyedMarket where
  id : Int
  market : Market
  deriving DecidableEq

namespace Dsv

def tab : UInt8 := 9
def newline : UInt8 := 10

/-! ## Writing -/

/-- `OStreamJoiner`. -/
def join (columns : List Bytes) : Bytes := [tab].intercalate columns

/-- A column that may be left empty. -/
def orEmpty (absent : Bool) (column : Bytes) : Bytes := if absent then [] else column

def day (jd : Int) : Bytes := orEmpty (jd = 0) (insertInt (jdToIso jd))

def time (t : Int) : Bytes := insertInt (msSinceEpoch t)

end Dsv

open Dsv

def Asset.columns (a : Asset) : List Bytes := [insertInt a.id, a.symbol.view, a.display.data, insertInt a.type.num]

def Instr.columns (i : Instr) : List Bytes :=
  [insertInt i.id, i.symbol.view, i.display.data, i.baseAsset.view, i.termCcy.view, insertInt i.lotNumer,
    insertInt i.lotDenom, insertInt i.tickNumer, insertInt i.tickDenom, insertInt i.pipDp, insertInt i.minLots,
    insertInt i.maxLots]

def KeyedMarket.columns (k : KeyedMarket) : List Bytes :=
  let m := k.market
  let untraded : Bool := m.lastLots = 0
  [insertInt k.id, m.instr.view, day m.settlDay, insertInt m.state, orEmpty untraded (insertInt m.lastLots),
    orEmpty untraded (insertInt m.lastTicks), orEmpty untraded (time m.lastTime), insertInt m.maxId]

def Order.columns (o : Order) : List Bytes :=
  let untraded : Bool := o.lastLots = 0
  [o.accnt.view, insertInt o.marketId, o.instr.view, day o.settlDay, insertInt o.id, orEmpty o.ref.isEmpty o.ref.data,
    o.state.name, o.side.name, insertInt o.lots, insertInt o.ticks, insertInt o.resdLots, insertInt o.execLots,
    insertInt o.execCost, orEmpty untraded (insertInt o.lastLots), orEmpty untraded (insertInt o.lastTicks),
    orEmpty (o.minLots = 0) (insertInt o.minLots), time o.created, time o.modified]

def Exec.columns (e : Exec) : List Bytes :=
  let untraded : Bool := e.lastLots = 0
  let noTrade : Bool := e.state ≠ .trade
  [e.accnt.view, insertInt e.marketId, e.instr.view, day e.settlDay, insertInt e.id, insertInt e.orderId,
    orEmpty e.ref.isEmpty e.ref.data, e.state.name, e.side.name, insertInt e.lots, insertInt e.ticks, insertInt e.resdLots,
    insertInt e.execLots, insertInt e.execCost, orEmpty untraded (insertInt e.lastLots),
    orEmpty untraded (insertInt e.lastTicks), orEmpty (e.minLots = 0) (insertInt e.minLots),
    orEmpty (e.matchId = 0) (insertInt e.matchId), orEmpty noTrade (insertInt e.posnLots),
    orEmpty noTrade (insertInt e.posnCost), orEmpty (e.liqInd = .none) e.liqInd.name, e.cpty.view, time e.created]

def KeyedPosn.columns (k : KeyedPosn) : List Bytes :=
  let p := k.posn
  let zero := bytes "0"
  [k.accnt.view, insertInt k.marketId, k.instr.view, day k.settlDay,
    if p.buyLots ≠ 0 then insertInt p.buyLots else zero, if p.buyLots ≠ 0 then insertInt p.buyCost else zero,
    if p.sellLots ≠ 0 then insertInt p.sellLots else zero, if p.sellLots ≠ 0 then insertInt p.sellCost else zero]

/-! ## Reading -/

namespace Dsv

/-- `from_string` of `util/TypeTraits.hpp`. -/
def int32 (s : Bytes) : Option Int := TypeTraits.fromStringInt .int32 s

/-- `TypeTraits<std::int64_t>` calls `stoi32`, too. -/
def int64 (s : Bytes) : Option Int := TypeTraits.fromStringInt .int64 s

def uint32 (s : Bytes) : Nat := stou 32 s

/-- Milliseconds since the epoch, as nanoseconds. -/
def readTime (s : Bytes) : Option Int := do
  let ms ← IntType.int64.stoi s
  IntType.int64.store (ms * 1000000)

abbrev Row := List Bytes

/-- `split`.  The columns that a line does not have are empty. -/
def split (line : Bytes) : Row := tokens [tab] line

def Row.col (row : Row) (i : Nat) : Bytes := row.getD i []

end Dsv

/-- The enumerator of a number, if there is one. -/
def AssetType.ofNum (n : Int) : Option AssetType :=
  [none, cmdty, corp, ccy, eqty, govt, index].find? (·.num = n)

def State.ofNum : Int → Option State
  | 0 => some none
  | 1 => some new
  | 2 => some revise
  | 3 => some cancel
  | 4 => some trade
  | _ => Option.none

/-- The number zero is that of `Side::None`, which no order has. -/
def Side.ofNum : Int → Option Side
  | 1 => some buy
  | -1 => some sell
  | _ => none

def LiqInd.ofNum : Int → Option LiqInd
  | 0 => some none
  | 1 => some maker
  | 2 => some taker
  | _ => Option.none

/-- `do_read_asset`, for one line. -/
def Asset.ofRow (row : Row) : Option Asset := do
  let id ← int32 (row.col 0)
  let type ← AssetType.ofNum (← int32 (row.col 3))
  return { id, symbol := .assign (row.col 1), display := .assign (row.col 2), type }

/-- `do_read_instr`.  The columns of the tick size are taken to stand before those of the lot size. -/
def Instr.ofRow (row : Row) : Option Instr := do
  let id ← int32 (row.col 0)
  let tickNumer ← int32 (row.col 5)
  let tickDenom ← int32 (row.col 6)
  let lotNumer ← int32 (row.col 7)
  let lotDenom ← int32 (row.col 8)
  let pipDp ← int32 (row.col 9)
  let minLots ← int64 (row.col 10)
  let maxLots ← int64 (row.col 11)
  return {
    id, symbol := .assign (row.col 1), display := .assign (row.col 2), baseAsset := .assign (row.col 3),
    termCcy := .assign (row.col 4), lotNumer, lotDenom, tickNumer, tickDenom, pipDp, minLots, maxLots }

/-- `do_read_market`.  The constructor makes both sides empty. -/
def KeyedMarket.ofRow (row : Row) : Option KeyedMarket := do
  let id ← int64 (row.col 0)
  let settlDay ← int32 (row.col 2)
  let lastLots ← int64 (row.col 4)
  let lastTicks ← int64 (row.col 5)
  let lastTime ← readTime (row.col 6)
  let maxId ← int64 (row.col 7)
  return {
    id
    market :=
      { instr := .assign (row.col 1), settlDay, state := uint32 (row.col 3), lastLots, lastTicks, lastTime, bidSide := .empty,
        offerSide := .empty, maxId } }

/-- `do_read_order`. -/
def Order.ofRow (row : Row) : Option Order := do
  let marketId ← int64 (row.col 1)
  let settlDay ← int32 (row.col 3)
  let id ← int64 (row.col 4)
  let state ← State.ofNum (← int32 (row.col 6))
  let side ← Side.ofNum (← int32 (row.col 7))
  let lots ← int64 (row.col 8)
  let ticks ← int64 (row.col 9)
  let resdLots ← int64 (row.col 10)
  let execLots ← int64 (row.col 11)
  let execCost ← int64 (row.col 12)
  let lastLots ← int64 (row.col 13)
  let lastTicks ← int64 (row.col 14)
  let minLots ← int64 (row.col 15)
  let created ← readTime (row.col 16)
  let modified ← readTime (row.col 17)
  return {
    accnt := .assign (row.col 0), marketId, instr := .assign (row.col 2), settlDay, id, ref := .assign (row.col 5), state, side,
    lots, ticks, resdLots, execLots, execCost, lastLots, lastTicks, minLots, created, modified, level := none }

/-- `do_read_exec`. -/
def Exec.ofRow (row : Row) : Option Exec := do
  let marketId ← int64 (row.col 1)
  let settlDay ← int32 (row.col 3)
  let id ← int64 (row.col 4)
  let orderId ← int64 (row.col 5)
  let state ← State.ofNum (← int32 (row.col 7))
  let side ← Side.ofNum (← int32 (row.col 8))
  let lots ← int64 (row.col 9)
  let ticks ← int64 (row.col 10)
  let resdLots ← int64 (row.col 11)
  let execLots ← int64 (row.col 12)
  let execCost ← int64 (row.col 13)
  let lastLots ← int64 (row.col 14)
  let lastTicks ← int64 (row.col 15)
  let minLots ← int64 (row.col 16)
  let matchId ← int64 (row.col 17)
  let posnLots ← int64 (row.col 18)
  let posnCost ← int64 (row.col 19)
  let liqInd ← LiqInd.ofNum (← int32 (row.col 20))
  let created ← readTime (row.col 22)
  return {
    accnt := .assign (row.col 0), marketId, instr := .assign (row.col 2), settlDay, id, orderId, ref := .assign (row.col 6),
    state, side, lots, ticks, resdLots, execLots, execCost, lastLots, lastTicks, minLots, matchId, posnLots, posnCost, liqInd,
    cpty := .assign (row.col 21), created }

/-- `do_read_trade`, which has no column for the state. -/
def Exec.ofTradeRow (row : Row) : Option Exec := do
  let marketId ← int64 (row.col 1)
  let settlDay ← int32 (row.col 3)
  let id ← int64 (row.col 4)
  let orderId ← int64 (row.col 5)
  let side ← Side.ofNum (← int32 (row.col 7))
  let lots ← int64 (row.col 8)
  let ticks ← int64 (row.col 9)
  let resdLots ← int64 (row.col 10)
  let execLots ← int64 (row.col 11)
  let execCost ← int64 (row.col 12)
  let lastLots ← int64 (row.col 13)
  let lastTicks ← int64 (row.col 14)
  let minLots ← int64 (row.col 15)
  let matchId ← int64 (row.col 16)
  let posnLots ← int64 (row.col 17)
  let posnCost ← int64 (row.col 18)
  let liqInd ← LiqInd.ofNum (← int32 (row.col 19))
  let created ← readTime (row.col 21)
  return {
    accnt := .assign (row.col 0), marketId, instr := .assign (row.col 2), settlDay, id, orderId, ref := .assign (row.col 6),
    state := .trade, side, lots, ticks, resdLots, execLots, execCost, lastLots, lastTicks, minLots, matchId, posnLots, posnCost,
    liqInd, cpty := .assign (row.col 20), created }

/-- `do_read_posn`.  The constructor takes the net cost from the costs of both sides. -/
def KeyedPosn.ofRow (row : Row) : Option KeyedPosn := do
  let marketId ← int64 (row.col 1)
  let settlDay ← int32 (row.col 3)
  let buyLots ← int64 (row.col 4)
  let buyCost ← int64 (row.col 5)
  let sellLots ← int64 (row.col 6)
  let sellCost ← int64 (row.col 7)
  return {
    accnt := .assign (row.col 0), marketId, instr := .assign (row.col 2), settlDay
    posn := { buyLots, buyCost, sellLots, sellCost, netCost := buyCost - sellCost } }

/-! ## Files -/

/-- A kind of record with its file, which starts with the names of the columns. -/
structure Table (α : Type) where
  header : List String
  columns : α → List Bytes
  ofRow : Row → Option α

namespace Table

variable {α : Type}

/-- The file that the tool writes. -/
def toFile (table : Table α) (rs : List α) : Bytes :=
  (table.header.map bytes :: rs.map table.columns).flatMap fun columns => join columns ++ [newline]

/-- The records that are passed to the callback: the first line is discarded. -/
def ofFile (table : Table α) (file : Bytes) : List (Option α) :=
  ((tokens [newline] file).drop 1).map fun line => table.ofRow (split line)

def asset : Table Asset := ⟨["id", "symbol", "display", "type"], Asset.columns, Asset.ofRow⟩

def instr : Table Instr :=
  ⟨["id", "symbol", "display", "base_asset", "term_ccy", "lot_numer", "lot_denom", "tick_numer", "tick_denom", "pip_dp",
    "min_lots", "max_lots"], Instr.columns, Instr.ofRow⟩

def market : Table KeyedMarket :=
  ⟨["id", "instr", "settl_day", "state", "last_lots", "last_ticks", "last_time", "max_id"], KeyedMarket.columns,
    KeyedMarket.ofRow⟩

def order : Table Order :=
  ⟨["accnt", "market_id", "instr", "settl_date", "id", "ref", "state", "side", "lots", "ticks", "resd_lots", "exec_lots",
    "exec_cost", "last_lots", "last_ticks", "min_lots", "created", "modified"], Order.columns, Order.ofRow⟩

def execHeader : List String :=
  ["accnt", "market_id", "instr", "settl_date", "id", "order_id", "ref", "state", "side", "lots", "ticks", "resd_lots",
    "exec_lots", "exec_cost", "last_lots", "last_ticks", "min_lots", "match_id", "posn_lots", "posn_cost", "liq_ind", "cpty",
    "created"]

def exec : Table Exec := ⟨execHeader, Exec.columns, Exec.ofRow⟩

def trade : Table Exec := ⟨execHeader, Exec.columns, Exec.ofTradeRow⟩

def posn : Table KeyedPosn :=
  ⟨["accnt", "market_id", "instr", "settl_date", "buy_lots", "buy_cost", "sell_lots", "sell_cost"], KeyedPosn.columns,
    KeyedPosn.ofRow⟩

end Table

end Swirly
