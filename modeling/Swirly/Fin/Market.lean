import Swirly.Fin.MarketSide
import Swirly.Util.Date

/-! # Markets

`fin/Market.hpp` and `fin/MarketId.hpp`.  The id of a market is its key in the set of markets. -/

namespace Swirly

/-- `to_market_id`: the instrument's id above sixteen bits of the settlement day, in 32 bits, of which the id of a market
is only a conversion to 64 bits. -/
def toMarketId (instrId : Int) (settlDay : Int) : Int := (instrId * 2 ^ 16 + jdToTjd settlDay % 2 ^ 16).bmod (2 ^ 32)

example : toMarketId 171 2492719 = 0xabcdef := by decide

structure Market where
  instr : Symbol
  settlDay : Int
  state : Nat
  lastLots : Int
  lastTicks : Int
  lastTime : Int
  bidSide : MarketSide
  offerSide : MarketSide
  maxId : Int
  deriving DecidableEq, Inhabited

namespace Market

def make (instr : Symbol) (settlDay : Int) (state : Nat) : Market :=
  { instr, settlDay, state, lastLots := 0, lastTicks := 0, lastTime := 0, bidSide := .empty, offerSide := .empty,
    maxId := 0 }

def side (m : Market) : Side → MarketSide
  | .buy => m.bidSide
  | .sell => m.offerSide

def setSide (m : Market) : Side → MarketSide → Market
  | .buy, s => { m with bidSide := s }
  | .sell, s => { m with offerSide := s }

/-- Run an operation on the side that the order belongs to. -/
def onSide (h : Heap) (m : Market) (p : OrderPtr) (f : Heap → MarketSide → Option (Heap × MarketSide)) :
    Option (Heap × Market) :=
  (f h (m.side (h.order p).side)).map fun (h', s) => (h', m.setSide (h.order p).side s)

def insertOrder (h : Heap) (m : Market) (p : OrderPtr) : Option (Heap × Market) :=
  m.onSide h p fun h s => s.insertOrder h p

def removeOrder (h : Heap) (m : Market) (p : OrderPtr) : Option (Heap × Market) :=
  m.onSide h p fun h s => s.removeOrder h p

def reviseOrder (h : Heap) (m : Market) (p : OrderPtr) (lots : Int) (now : Int) : Option (Heap × Market) :=
  m.onSide h p fun h s => s.reviseOrder h p lots now

def cancelOrder (h : Heap) (m : Market) (p : OrderPtr) (now : Int) : Option (Heap × Market) :=
  m.onSide h p fun h s => s.cancelOrder h p now

def takeOrder (h : Heap) (m : Market) (p : OrderPtr) (lots : Int) (now : Int) : Option (Heap × Market) :=
  (m.onSide h p fun h s => s.takeOrder h p lots now).map fun (h, m) =>
    (h, { m with lastLots := lots, lastTicks := (h.order p).ticks, lastTime := now })

variable (m : Market) (s : MarketSide) (side : Side)

@[simp] theorem side_setSide_self : (m.setSide side s).side side = s := by cases side <;> rfl

@[simp] theorem side_setSide_ne {other : Side} (differ : other ≠ side) : (m.setSide side s).side other = m.side other := by
  cases side <;> cases other <;> first | rfl | exact absurd rfl differ

@[simp] theorem maxId_setSide : (m.setSide side s).maxId = m.maxId := by cases side <;> rfl
@[simp] theorem instr_setSide : (m.setSide side s).instr = m.instr := by cases side <;> rfl
@[simp] theorem settlDay_setSide : (m.setSide side s).settlDay = m.settlDay := by cases side <;> rfl

end Market

end Swirly
