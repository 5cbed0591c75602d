import Mathlib
import Swirly.Fin.Exec
import Swirly.Fin.Posn

/-!
# Sessions

`lob/Sess.hpp`.  The account of a session is its key in the set of sessions.  Orders and trades are indexed by
market and id (`RequestIdSet`), live orders also by reference (`OrderRefSet`): an insertion keeps the element
that is there already, and a removal removes whatever has the key.
-/

namespace Swirly

/-- The key of `RequestIdSet`: market, then id. -/
abbrev IdKey := Int ×ₗ Int

def idKey (marketId : Int) (id : Int) : IdKey := toLex (marketId, id)

theorem idKey_inj {m n i j : Int} : idKey m i = idKey n j ↔ m = n ∧ i = j := by simp [idKey]

/-- The key of a request. -/
def Request.key (r : Request) : IdKey := idKey r.marketId r.id

structure Sess where
  orders : OrdMap IdKey OrderPtr
  execs : List ExecPtr
  trades : OrdMap IdKey ExecPtr
  posns : OrdMap Int Posn
  refIdx : OrdMap Bytes OrderPtr
  deriving DecidableEq

namespace Sess

def make : Sess := { orders := ∅, execs := [], trades := ∅, posns := ∅, refIdx := ∅ }

instance : Inhabited Sess := ⟨make⟩

def «exists» (s : Sess) (ref : Bytes) : Bool := (s.refIdx.find ref).isSome

def insertOrder (s : Sess) (p : OrderPtr) (o : Order) : Sess :=
  { s with
    orders := s.orders.insert o.key p
    refIdx := if o.ref.isEmpty then s.refIdx else s.refIdx.insert o.ref.data p }

def removeOrder (s : Sess) (o : Order) : Sess :=
  { s with
    orders := s.orders.erase o.key
    refIdx := if o.ref.isEmpty then s.refIdx else s.refIdx.erase o.ref.data }

/-- A full circular buffer drops its last element. -/
def pushExecFront (s : Sess) (maxExecs : Nat) (e : ExecPtr) : Sess := { s with execs := (e :: s.execs).take maxExecs }

def insertTrade (s : Sess) (e : ExecPtr) (trade : Exec) : Sess := { s with trades := s.trades.insert trade.key e }

def removeTrade (s : Sess) (key : IdKey) : Sess := { s with trades := s.trades.erase key }

/-- `posn`: the position is made on first use. -/
def ensurePosn (s : Sess) (marketId : Int) : Sess := { s with posns := s.posns.insert marketId .make }

def posn (s : Sess) (marketId : Int) : Posn := s.posns.get marketId

def addTrade (s : Sess) (marketId : Int) (side : Side) (lots : Int) (ticks : Int) : Sess :=
  { s with posns := s.posns.put marketId ((s.posn marketId).addTrade side lots ticks) }

end Sess

end Swirly
