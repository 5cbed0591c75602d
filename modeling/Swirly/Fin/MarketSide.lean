import Swirly.Fin.Order
import Swirly.Lib.SortedList

/-!
# Market sides

`fin/MarketSide.cpp` and `fin/MarketSide.hpp`.  An operation returns `none` where the source would
step outside the contract of an intrusive container: erasing an element that is not linked in this
container, or following a link past the end of the list.  The `assert`s on quantities are compiled
out of the default build and do not stop an operation here either.
-/

namespace Swirly

structure MarketSide where
  levels : OrdMap Int LevelPtr
  orders : List OrderPtr
  deriving DecidableEq, Inhabited

namespace MarketSide

def empty : MarketSide := { levels := ∅, orders := [] }

/-- `insert_level`, which returns the iterator's key. -/
def insertLevel (h : Heap) (s : MarketSide) (p : OrderPtr) : Heap × MarketSide × Int :=
  let o := h.order p
  let key := composeKey o.side o.ticks
  match s.levels.find key with
  | none =>
    let lp := h.levels.fresh
    let h := { h with levels := h.levels.alloc (.make p o) }
    (h.setOrder p { o with level := some lp }, { s with levels := s.levels.put key lp }, key)
  | some lp =>
    let h := h.setLevel lp ((h.level lp).addOrder o)
    (h.setOrder p { o with level := some lp }, s, key)

def insertOrder (h : Heap) (s : MarketSide) (p : OrderPtr) : Option (Heap × MarketSide) :=
  let (h, s, key) := insertLevel h s p
  match s.levels.next key with
  | some (_, next) =>
    -- Insert order after the level's last order, i.e. before the next level's first order.
    (s.orders.insertBefore p (h.level next).firstOrder).map fun orders => (h, { s with orders })
  | none => some (h, { s with orders := s.orders ++ [p] })

/-- `remove_order(Level&, const Order&)`. -/
def removeFromLevel (h : Heap) (s : MarketSide) (lp : LevelPtr) (p : OrderPtr) : Option (Heap × MarketSide) :=
  if p ∉ s.orders then none
  else
    let h := h.setLevel lp ((h.level lp).subOrder (h.order p))
    let l := h.level lp
    if l.count = 0 then
      if s.levels.find l.key = some lp then
        let h := h.freeLevel lp
        some (h.setOrder p { h.order p with level := none },
          { levels := s.levels.erase l.key, orders := s.orders.erase p })
      else none
    else if l.firstOrder = p then
      -- First order at this level is being removed.
      (s.orders.successor p).map fun next =>
        let h := h.setLevel lp { l with firstOrder := next }
        (h.setOrder p { h.order p with level := none }, { s with orders := s.orders.erase p })
    else some (h.setOrder p { h.order p with level := none }, { s with orders := s.orders.erase p })

def reduceLevel (h : Heap) (s : MarketSide) (lp : LevelPtr) (p : OrderPtr) (delta : Int) :
    Option (Heap × MarketSide) :=
  if delta < (h.order p).resdLots then some (h.setLevel lp ((h.level lp).reduce delta), s)
  else removeFromLevel h s lp p

def removeOrder (h : Heap) (s : MarketSide) (p : OrderPtr) : Option (Heap × MarketSide) :=
  match (h.order p).level with
  | none => some (h, s)
  | some lp => removeFromLevel h s lp p

def createOrder (h : Heap) (s : MarketSide) (p : OrderPtr) (now : Int) : Option (Heap × MarketSide) :=
  insertOrder (h.setOrder p ((h.order p).create now)) s p

def reviseOrder (h : Heap) (s : MarketSide) (p : OrderPtr) (lots : Int) (now : Int) : Option (Heap × MarketSide) :=
  let reduced :=
    match (h.order p).level with
    | none => some (h, s)
    | some lp => reduceLevel h s lp p ((h.order p).lots - lots)
  reduced.map fun (h, s) => (h.setOrder p ((h.order p).revise lots now), s)

def cancelOrder (h : Heap) (s : MarketSide) (p : OrderPtr) (now : Int) : Option (Heap × MarketSide) :=
  let removed :=
    match (h.order p).level with
    | none => some (h, s)
    | some lp => removeFromLevel h s lp p
  removed.map fun (h, s) => (h.setOrder p ((h.order p).cancel now), s)

def takeOrder (h : Heap) (s : MarketSide) (p : OrderPtr) (lots : Int) (now : Int) : Option (Heap × MarketSide) :=
  let reduced :=
    match (h.order p).level with
    | none => some (h, s)
    | some lp => reduceLevel h s lp p lots
  reduced.map fun (h, s) => (h.setOrder p ((h.order p).trade lots (h.order p).ticks now), s)

end MarketSide

end Swirly
