import Swirly.Fin.Order

/-!
# Executions

`fin/Exec.hpp` and `fin/Exec.cpp`: the record of one step of an order, or of a manual trade.
-/

namespace Swirly

abbrev ExecPtr := Nat

structure Exec extends Request where
  orderId : Int
  state : State
  ticks : Int
  resdLots : Int
  execLots : Int
  execCost : Int
  lastLots : Int
  lastTicks : Int
  minLots : Int
  matchId : Int
  posnLots : Int
  posnCost : Int
  liqInd : LiqInd
  cpty : Symbol
  deriving DecidableEq, Inhabited

namespace Exec

/-- `new_exec`: the order as it is now. -/
def make (o : Order) (id : Int) (created : Int) : Exec :=
  { accnt := o.accnt, marketId := o.marketId, instr := o.instr, settlDay := o.settlDay, id, ref := o.ref,
    side := o.side, lots := o.lots, created, orderId := o.id, state := o.state, ticks := o.ticks,
    resdLots := o.resdLots, execLots := o.execLots, execCost := o.execCost, lastLots := o.lastLots,
    lastTicks := o.lastTicks, minLots := o.minLots, matchId := 0, posnLots := 0, posnCost := 0, liqInd := .none,
    cpty := default }

/-- `new_manual`: a trade that belongs to no order. -/
def makeManual (marketId : Int) (instr : Symbol) (settlDay : Int) (id : Int) (accnt : Symbol) (ref : Bytes)
    (side : Side) (lots : Int) (ticks : Int) (posnLots : Int) (posnCost : Int) (liqInd : LiqInd) (cpty : Symbol)
    (created : Int) : Exec :=
  { accnt, marketId, instr, settlDay, id, ref := .assign ref, side, lots, created, orderId := 0, state := .trade,
    ticks, resdLots := 0, execLots := lots, execCost := cost lots ticks, lastLots := lots, lastTicks := ticks,
    minLots := 1, matchId := 0, posnLots, posnCost, liqInd, cpty }

/-- The same trade as the counter-party sees it. -/
def opposite (e : Exec) (id : Int) : Exec :=
  { e with accnt := e.cpty, id, side := e.side.opposite, liqInd := e.liqInd.opposite, cpty := e.accnt }

def revise (e : Exec) (lots : Int) : Exec :=
  { e with state := .revise, lots, resdLots := e.resdLots - (e.lots - lots) }

def cancel (e : Exec) : Exec := { e with state := .cancel, resdLots := 0 }

def posn (e : Exec) (posnLots : Int) (posnCost : Int) : Exec := { e with posnLots, posnCost }

def tradeSum (e : Exec) (sumLots : Int) (sumCost : Int) (lastLots : Int) (lastTicks : Int) (matchId : Int)
    (liqInd : LiqInd) (cpty : Symbol) : Exec :=
  { e with state := .trade, resdLots := e.resdLots - sumLots, execLots := e.execLots + sumLots,
           execCost := e.execCost + sumCost, lastLots, lastTicks, matchId, liqInd, cpty }

def trade (e : Exec) (lastLots : Int) (lastTicks : Int) (matchId : Int) (liqInd : LiqInd) (cpty : Symbol) : Exec :=
  e.tradeSum lastLots (cost lastLots lastTicks) lastLots lastTicks matchId liqInd cpty

end Exec

end Swirly
