import Mathlib
import Swirly.Fin.Posn
import Swirly.Lob.Load

/-!
# Reading positions

The view `posn_v` of `etc/sql/schema.sqlite` and the reads of `db/SqliteModel.cpp` and `db/MySqlModel.cpp`.  The statement
has no `ORDER BY`, so a reader of its rows must not rely on their order.
-/

namespace Swirly

/-! ## One account and one market -/

/-- What the view reads of a trade in `exec_t`. -/
structure TradeRow where
  side : Side
  lastLots : Int
  lastTicks : Int
  deriving DecidableEq

structure PosnRow where
  side : Side
  lots : Int
  cost : Int
  deriving DecidableEq

/-- The rows of one account and market: a row for each side that has trades. -/
def posnView (trades : List TradeRow) : List PosnRow :=
  [Side.buy, Side.sell].filterMap fun side =>
    match trades.filter fun t => t.side = side with
    | [] => none
    | ts => some
      { side, lots := (ts.map TradeRow.lastLots).sum, cost := (ts.map fun t => t.lastLots * t.lastTicks).sum }

/-- The callback of `read_posn` for the rows of one position. -/
def readPosn (rows : List PosnRow) : Posn :=
  rows.foldl (fun posn row =>
    if row.side = .buy then posn.addBuyCost row.lots row.cost else posn.addSellCost row.lots row.cost) .make

/-! ## All accounts

The rows of a position, and those of the settled days of its instrument, are added up in a `PosnSet`. -/

/-- A row of `posn_v`.  A `NULL` day is read as zero. -/
structure PosnViewRow where
  accnt : Bytes
  marketId : Int
  instr : Bytes
  settlDay : Option Int
  side : Side
  lots : Int
  cost : Int
  deriving DecidableEq

/-- A position with the account and the market that it is for. -/
structure KeyedPosn where
  accnt : Symbol
  marketId : Int
  instr : Symbol
  settlDay : Int
  posn : Posn
  deriving DecidableEq

/-- The key of `PosnSet`. -/
abbrev PosnKey := Symbol ×ₗ Int

abbrev PosnSet := OrdMap PosnKey KeyedPosn

namespace PosnViewRow

def day (row : PosnViewRow) : Int := row.settlDay.getD 0

/-- The settlement day is not after the business day. -/
def Settled (busDay : Int) (row : PosnViewRow) : Prop := row.day ≠ 0 ∧ row.day ≤ busDay

instance (busDay : Int) (row : PosnViewRow) : Decidable (row.Settled busDay) := inferInstanceAs (Decidable (_ ∧ _))

/-- `market_id &= Id64{~0xffff}` for a settled day. -/
def rolledId (busDay : Int) (row : PosnViewRow) : Int :=
  if row.Settled busDay then row.marketId - row.marketId % 2 ^ 16 else row.marketId

def rolledDay (busDay : Int) (row : PosnViewRow) : Int := if row.Settled busDay then 0 else row.day

def key (busDay : Int) (row : PosnViewRow) : PosnKey := toLex (.assign row.accnt, row.rolledId busDay)

/-- The position that the row makes when there is none with its key. -/
def keyed (busDay : Int) (row : PosnViewRow) : KeyedPosn :=
  { accnt := .assign row.accnt, marketId := row.rolledId busDay, instr := .assign row.instr,
    settlDay := row.rolledDay busDay, posn := .make }

def addTo (row : PosnViewRow) (posn : Posn) : Posn :=
  if row.side = .buy then posn.addBuyCost row.lots row.cost else posn.addSellCost row.lots row.cost

end PosnViewRow

/-- One turn of the loop. -/
def readRow (busDay : Int) (ps : PosnSet) (row : PosnViewRow) : PosnSet :=
  let p := (ps.find (row.key busDay)).getD (row.keyed busDay)
  ps.put (row.key busDay) { p with posn := row.addTo p.posn }

/-- The positions in the order in which the callback is given them. -/
def doReadPosn (rows : List PosnViewRow) (busDay : Int) : List KeyedPosn :=
  (rows.foldl (readRow busDay) ∅).entries.map Prod.snd

/-- What the callback of `App::load` is given. -/
def KeyedPosn.entry (p : KeyedPosn) : PosnPtr × Posn := ((p.accnt, p.marketId), p.posn)

end Swirly
