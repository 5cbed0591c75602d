import Swirly.Fin.Types

/-! # Positions

`fin/Posn.hpp` and `fin/Posn.cpp`: what an account has bought and sold in one market.  The account and the
market are those of the session and of the key that hold the position. -/

namespace Swirly

structure Posn where
  buyLots : Int
  buyCost : Int
  sellLots : Int
  sellCost : Int
  netCost : Int
  deriving DecidableEq

namespace Posn

/-- The constructor of an empty position. -/
def make : Posn := { buyLots := 0, buyCost := 0, sellLots := 0, sellCost := 0, netCost := 0 }

instance : Inhabited Posn := ⟨make⟩

def netLots (posn : Posn) : Int := posn.buyLots - posn.sellLots

def addBuy (posn : Posn) (lots : Int) (ticks : Int) : Posn :=
  let netLots := posn.netLots + lots
  { posn with
    buyLots := posn.buyLots + lots
    buyCost := posn.buyCost + cost lots ticks
    netCost :=
      -- Either short position was partially closed, or long position was extended.
      if netLots < 0 ∨ lots ≤ netLots then posn.netCost + cost lots ticks
      -- Short position was fully closed and long position opened.
      else if 0 < netLots then cost netLots ticks
      else 0 }

def addSell (posn : Posn) (lots : Int) (ticks : Int) : Posn :=
  let netLots := posn.netLots - lots
  { posn with
    sellLots := posn.sellLots + lots
    sellCost := posn.sellCost + cost lots ticks
    netCost :=
      -- Either long position was partially closed, or short position was extended.
      if 0 < netLots ∨ netLots ≤ -lots then posn.netCost - cost lots ticks
      -- Long position was fully closed and short position opened.
      else if netLots < 0 then cost netLots ticks
      else 0 }

/-- `add_buy` with a cost. -/
def addBuyCost (posn : Posn) (lots : Int) (cost : Int) : Posn :=
  { posn with
    buyLots := posn.buyLots + lots
    buyCost := posn.buyCost + cost
    netCost := posn.buyCost + cost - posn.sellCost }

/-- `add_sell` with a cost. -/
def addSellCost (posn : Posn) (lots : Int) (cost : Int) : Posn :=
  { posn with
    sellLots := posn.sellLots + lots
    sellCost := posn.sellCost + cost
    netCost := posn.buyCost - (posn.sellCost + cost) }

def addTrade (posn : Posn) (side : Side) (lots : Int) (ticks : Int) : Posn :=
  if side = .buy then posn.addBuy lots ticks else posn.addSell lots ticks

end Posn

end Swirly
