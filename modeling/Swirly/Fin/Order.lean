import Swirly.Fin.Types
import Swirly.Lib.Store

/-!
# Orders, levels and the heap

`fin/Request.hpp`, `fin/Order.hpp` and `fin/Level.hpp`.  Orders and levels are mutable objects that
several containers point at, so both live in a `Heap` and are named by their address there.
-/

namespace Swirly

abbrev OrderPtr := Nat
abbrev LevelPtr := Nat

structure Request where
  accnt : Symbol
  marketId : Int
  instr : Symbol
  settlDay : Int
  id : Int
  ref : Ref
  side : Side
  lots : Int
  created : Int
  deriving DecidableEq, Inhabited

structure Order extends Request where
  state : State
  ticks : Int
  resdLots : Int
  execLots : Int
  execCost : Int
  lastLots : Int
  lastTicks : Int
  minLots : Int
  modified : Int
  level : Option LevelPtr
  deriving DecidableEq, Inhabited

namespace Order

/-- The constructor of new orders. -/
def make (accnt : Symbol) (marketId : Int) (instr : Symbol) (settlDay : Int) (id : Int) (ref : Bytes)
    (side : Side) (lots : Int) (ticks : Int) (minLots : Int) (created : Int) : Order :=
  { accnt, marketId, instr, settlDay, id, ref := .assign ref, side, lots, created, state := .new, ticks,
    resdLots := lots, execLots := 0, execCost := 0, lastLots := 0, lastTicks := 0, minLots,
    modified := created, level := none }

def done (o : Order) : Bool := o.resdLots = 0

def create (o : Order) (now : Int) : Order :=
  { o with state := .new, resdLots := o.lots, execLots := 0, execCost := 0, modified := now }

def revise (o : Order) (lots : Int) (now : Int) : Order :=
  { o with state := .revise, lots := lots, resdLots := o.resdLots - (o.lots - lots), modified := now }

def cancel (o : Order) (now : Int) : Order := { o with state := .cancel, resdLots := 0, modified := now }

def tradeSum (o : Order) (takenLots : Int) (takenCost : Int) (lastLots : Int) (lastTicks : Int) (now : Int) :
    Order :=
  { o with state := .trade, resdLots := o.resdLots - takenLots, execLots := o.execLots + takenLots,
           execCost := o.execCost + takenCost, lastLots, lastTicks, modified := now }

def trade (o : Order) (lastLots : Int) (lastTicks : Int) (now : Int) : Order :=
  o.tradeSum lastLots (cost lastLots lastTicks) lastLots lastTicks now

end Order

/-- `detail::compose_key`. -/
def composeKey (side : Side) (ticks : Int) : Int := if side = .buy then -ticks else ticks

structure Level where
  firstOrder : OrderPtr
  key : Int
  ticks : Int
  lots : Int
  count : Int
  deriving DecidableEq, Inhabited

namespace Level

/-- The constructor of a level from its first order. -/
def make (p : OrderPtr) (o : Order) : Level :=
  { firstOrder := p, key := composeKey o.side o.ticks, ticks := o.ticks, lots := o.resdLots, count := 1 }

def reduce (l : Level) (delta : Int) : Level := { l with lots := l.lots - delta }

def addOrder (l : Level) (o : Order) : Level := { l with lots := l.lots + o.resdLots, count := l.count + 1 }

def subOrder (l : Level) (o : Order) : Level := { l with lots := l.lots - o.resdLots, count := l.count - 1 }

end Level

/-- The objects that containers share. -/
structure Heap where
  orders : Store Order
  levels : Store Level
  deriving DecidableEq, Inhabited

namespace Heap

def order (h : Heap) (p : OrderPtr) : Order := h.orders.get p

def level (h : Heap) (lp : LevelPtr) : Level := h.levels.get lp

def newOrder (h : Heap) (o : Order) : Heap := { h with orders := h.orders.alloc o }

def setOrder (h : Heap) (p : OrderPtr) (o : Order) : Heap := { h with orders := h.orders.put p o }

def setLevel (h : Heap) (lp : LevelPtr) (l : Level) : Heap := { h with levels := h.levels.put lp l }

def freeOrder (h : Heap) (p : OrderPtr) : Heap := { h with orders := h.orders.erase p }

def freeLevel (h : Heap) (lp : LevelPtr) : Heap := { h with levels := h.levels.erase lp }

variable (h : Heap) (p q : OrderPtr) (lp kp : LevelPtr) (o : Order) (l : Level)

@[simp] theorem order_setOrder_self : (h.setOrder p o).order p = o := OrdMap.get_put_self _ _ _
@[simp] theorem order_newOrder_self : (h.newOrder o).order h.orders.fresh = o := OrdMap.get_put_self _ _ _
@[simp] theorem order_setLevel : (h.setLevel lp l).order p = h.order p := rfl
@[simp] theorem order_freeLevel : (h.freeLevel lp).order p = h.order p := rfl
@[simp] theorem level_setLevel_self : (h.setLevel lp l).level lp = l := OrdMap.get_put_self _ _ _
@[simp] theorem level_setOrder : (h.setOrder p o).level lp = h.level lp := rfl
@[simp] theorem level_freeOrder : (h.freeOrder p).level lp = h.level lp := rfl
@[simp] theorem orders_setLevel : (h.setLevel lp l).orders = h.orders := rfl
@[simp] theorem orders_freeLevel : (h.freeLevel lp).orders = h.orders := rfl
theorem find_newOrder : (h.newOrder o).orders.find p = if p = h.orders.fresh then some o else h.orders.find p :=
  OrdMap.find_alloc _ _ _

theorem setOrder_newOrder (o' : Order) : (h.newOrder o).setOrder h.orders.fresh o' = h.newOrder o' := by
  simp only [newOrder, setOrder, OrdMap.alloc, OrdMap.put_put]

@[simp] theorem freeOrder_newOrder : (h.newOrder o).freeOrder h.orders.fresh = h := by
  simp only [newOrder, freeOrder, OrdMap.erase_alloc]

@[simp] theorem level_newOrder : (h.newOrder o).level lp = h.level lp := rfl
@[simp] theorem levels_setOrder : (h.setOrder p o).levels = h.levels := rfl

variable {p q lp kp}

@[simp] theorem order_newOrder_ne (differ : q ≠ h.orders.fresh) : (h.newOrder o).order q = h.order q :=
  OrdMap.get_put_ne _ _ differ

@[simp] theorem order_setOrder_ne (differ : q ≠ p) : (h.setOrder p o).order q = h.order q :=
  OrdMap.get_put_ne _ _ differ

@[simp] theorem level_setLevel_ne (differ : kp ≠ lp) : (h.setLevel lp l).level kp = h.level kp :=
  OrdMap.get_put_ne _ _ differ

@[simp] theorem level_freeLevel_ne (differ : kp ≠ lp) : (h.freeLevel lp).level kp = h.level kp :=
  OrdMap.get_erase_ne _ differ

@[simp] theorem order_freeOrder_ne (differ : q ≠ p) : (h.freeOrder p).order q = h.order q :=
  OrdMap.get_erase_ne _ differ

end Heap

end Swirly
