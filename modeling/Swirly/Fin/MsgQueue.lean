import Swirly.Fin.Exec

/-!
# The journal queue

`fin/Msg.hpp` and `fin/MsgQueue.cpp`.  The queue keeps the whole sequence of posted messages with the number
of those that the journal thread has popped, so that its contents are the posted messages after these.
-/

namespace Swirly

/-- The body of a `CreateExec` message: fixed-width text and a creation time in milliseconds. -/
structure CreateExec where
  accnt : Bytes
  marketId : Int
  instr : Bytes
  settlDay : Int
  id : Int
  orderId : Int
  ref : Bytes
  state : State
  side : Side
  lots : Int
  ticks : Int
  resdLots : Int
  execLots : Int
  execCost : Int
  lastLots : Int
  lastTicks : Int
  minLots : Int
  matchId : Int
  posnLots : Int
  posnCost : Int
  liqInd : LiqInd
  cpty : Bytes
  created : Int
  deriving DecidableEq

inductive Msg where
  | createMarket (id : Int) (instr : Bytes) (settlDay : Int) (state : Nat)
  | updateMarket (id : Int) (state : Nat)
  | createExec (body : CreateExec)
  | archiveTrade (marketId : Int) (ids : List Int) (modified : Int)
  deriving DecidableEq

/-- The number of ids that fit in the space of a `CreateExec`. -/
def maxIds : Nat := 29

structure MsgQueue where
  capacity : Nat
  posted : List Msg
  popped : Nat
  deriving DecidableEq, Inhabited

namespace MsgQueue

def size (mq : MsgQueue) : Nat := mq.posted.length - mq.popped

/-- The number of unused elements. -/
def reserve (mq : MsgQueue) : Nat := mq.capacity - mq.size

/-- Undefined when the queue is full. -/
def post (mq : MsgQueue) (msg : Msg) : Option MsgQueue :=
  if mq.size < mq.capacity then some { mq with posted := mq.posted ++ [msg] } else none

def pop (mq : MsgQueue) : MsgQueue :=
  if mq.popped < mq.posted.length then { mq with popped := mq.popped + 1 } else mq

def createMarket (mq : MsgQueue) (id : Int) (instr : Symbol) (settlDay : Int) (state : Nat) : Option MsgQueue :=
  mq.post (.createMarket id instr.buf settlDay state)

def updateMarket (mq : MsgQueue) (id : Int) (state : Nat) : Option MsgQueue := mq.post (.updateMarket id state)

/-- The body that `do_create_exec` writes. -/
def execBody (e : Exec) : CreateExec :=
  { accnt := e.accnt.buf, marketId := e.marketId, instr := e.instr.buf, settlDay := e.settlDay, id := e.id,
    orderId := e.orderId, ref := pstrcpy maxRef e.ref.data, state := e.state, side := e.side, lots := e.lots,
    ticks := e.ticks, resdLots := e.resdLots, execLots := e.execLots, execCost := e.execCost,
    lastLots := e.lastLots, lastTicks := e.lastTicks, minLots := e.minLots, matchId := e.matchId,
    posnLots := e.posnLots, posnCost := e.posnCost, liqInd := e.liqInd, cpty := e.cpty.buf,
    created := msSinceEpoch e.created }

def createExec (mq : MsgQueue) (e : Exec) : Option MsgQueue := mq.post (.createExec (execBody e))

def createExecs (mq : MsgQueue) (es : List Exec) : Option MsgQueue :=
  if mq.reserve < es.length then none else es.foldlM createExec mq

/-- The ids, padded with zero. -/
def padIds (ids : List Int) : List Int := ids ++ List.replicate (maxIds - ids.length) 0

def doArchiveTrade (mq : MsgQueue) (marketId : Int) (ids : List Int) (modified : Int) : Option MsgQueue :=
  mq.post (.archiveTrade marketId (padIds ids) (msSinceEpoch modified))

def archiveTrade (mq : MsgQueue) (marketId : Int) (id : Int) (modified : Int) : Option MsgQueue :=
  mq.doArchiveTrade marketId [id] modified

/-- The number of messages that `n` ids need. -/
def steps (n : Nat) : Nat := (n + maxIds - 1) / maxIds

/-- Post the first chunk of ids and then `more` further ones. -/
def archiveChunks (marketId : Int) (modified : Int) : Nat → List Int → MsgQueue → Option MsgQueue
  | 0, ids, mq => mq.doArchiveTrade marketId (ids.take maxIds) modified
  | more + 1, ids, mq =>
    (mq.doArchiveTrade marketId (ids.take maxIds) modified).bind
      (archiveChunks marketId modified more (ids.drop maxIds))

def archiveTrades (mq : MsgQueue) (marketId : Int) (ids : List Int) (modified : Int) : Option MsgQueue :=
  if mq.reserve < steps ids.length then none
  else archiveChunks marketId modified (steps ids.length - 1) ids mq

end MsgQueue

end Swirly
