import Swirly.Lib.Greedy
import Swirly.Lib.Keyed
import Swirly.Lob.Op

/-!
# The exchange without pointers

What the engine is for, in terms of books, reports and positions: a book is a list of orders, best first, and an account
has a history of reports, a set of trades and a position in each market.  There are no objects that containers share, no
indexes and no levels.  The stamp of a report is not part of it.
-/

namespace Swirly

open Function

/-- The order as a record of its own. -/
def Order.unlinked (o : Order) : Order := { o with level := none }

/-- What the outside learns from a call that returns. -/
inductive Venue.Answer where
  | done
  | response (marketId : Option Int) (orders : List Order) (execs : List Exec) (posn : Option Posn)
  | trades (trade : Exec) (cptyTrade : Option Exec)
  deriving DecidableEq

/-- A match of an incoming order, with the totals that it brings the order to. -/
structure Venue.Deal where
  maker : Order
  lots : Int
  sums : App.Sums
  /-- The id of the maker's trade; the taker's is the next one. -/
  makerId : Int

namespace Venue.Deal

def makerExec (taker : Order) (now : Int) (d : Deal) : Exec :=
  (Exec.make d.maker d.makerId now).trade d.lots d.maker.ticks (d.makerId + 1) .maker taker.accnt

def takerExec (taker : Order) (now : Int) (d : Deal) : Exec :=
  (Exec.make taker (d.makerId + 1) now).tradeSum d.sums.sumLots d.sums.sumCost d.lots d.maker.ticks d.makerId .taker
    d.maker.accnt

def execs (taker : Order) (now : Int) (d : Deal) : List Exec := [d.makerExec taker now, d.takerExec taker now]

/-- The caller is told of its own trade, and of the maker's when that is its own too. -/
def told (taker : Order) (now : Int) (d : Deal) : List Exec :=
  if d.maker.accnt = taker.accnt then d.execs taker now else [d.takerExec taker now]

/-- The maker afterwards. -/
def traded (now : Int) (d : Deal) : Order := d.maker.trade d.lots d.maker.ticks now

/-- Number the allocations, from the ids after `id` on. -/
def number : App.Sums → Int → List (Order × Int) → List Deal
  | _, _, [] => []
  | sums, id, (maker, lots) :: rest =>
    let sums : App.Sums :=
      { sumLots := sums.sumLots + lots, sumCost := sums.sumCost + cost lots maker.ticks, lastLots := lots,
        lastTicks := maker.ticks }
    { maker, lots, sums, makerId := id + 1 } :: number sums (id + 2) rest

end Venue.Deal

/-- The order when all its deals are made. -/
def Order.dealt (o : Order) (now : Int) (ds : List Venue.Deal) : Order :=
  match ds.getLast? with
  | none => o
  | some d => o.tradeSum d.sums.sumLots d.sums.sumCost d.sums.lastLots d.sums.lastTicks now

@[ext]
structure Venue where
  mq : MsgQueue
  maxExecs : Nat
  /-- Instrument, settlement day and state of a market that exists. -/
  terms : Int → Option (Symbol × Int × Nat)
  maxId : Int → Int
  /-- The last trade: lots, ticks and time. -/
  last : Int → Int × Int × Int
  /-- The open orders, best first. -/
  book : Int → Side → List Order
  /-- The last reports, newest first. -/
  history : Symbol → List Exec
  trades : Symbol → IdKey → Option Exec
  posn : Symbol → Int → Posn

namespace Venue

/-- A venue without markets. -/
def make (capacity maxExecs : Nat) : Venue :=
  { mq := { capacity, posted := [], popped := 0 }, maxExecs, terms := fun _ => none, maxId := fun _ => 0,
    last := fun _ => (0, 0, 0), book := fun _ _ => [], history := fun _ => [], trades := fun _ _ => none,
    posn := fun _ _ => .make }

/-! ## Updates -/

variable (v : Venue)

/-- Ids that are given out. -/
def burn (m : Int) (n : Nat) : Venue := { v with maxId := update v.maxId m (v.maxId m + n) }

def setBook (m : Int) (s : Side) (os : List Order) : Venue :=
  { v with book := update v.book m (update (v.book m) s os) }

/-- An order changes in its place, and leaves when it is done. -/
def amend (m : Int) (s : Side) (id : Int) (f : Order → Order) : Venue :=
  v.setBook m s ((v.book m s).amend (fun o => o.id) id fun o => if (f o).done then none else some (f o))

/-- An order with open lots goes behind those that are not worse. -/
def enter (m : Int) (o : Order) : Venue :=
  if o.done then v else v.setBook m o.side (List.arrive (fun o => composeKey o.side o.ticks) (v.book m o.side) o)

def push (a : Symbol) (e : Exec) : Venue := { v with history := update v.history a ((e :: v.history a).take v.maxExecs) }

/-- The report is a trade of the account in the market. -/
def file (a : Symbol) (m : Int) (e : Exec) : Venue :=
  { v.push a e with
    trades := update v.trades a (update (v.trades a) e.key ((v.trades a e.key).or (some e)))
    posn := update v.posn a (update (v.posn a) m ((v.posn a m).addTrade e.side e.lastLots e.lastTicks)) }

/-- The trades of the account with the ids are dropped. -/
def unfile (a : Symbol) (m : Int) (ids : List Int) : Venue :=
  { v with trades := update v.trades a fun k => if k ∈ ids.map (idKey m) then none else v.trades a k }

def setLast (m : Int) (lots ticks time : Int) : Venue := { v with last := update v.last m (lots, ticks, time) }

/-! ## Lookups -/

def orders (m : Int) : List Order := v.book m .buy ++ v.book m .sell

/-- The open order of the account with the id. -/
def find (a : Symbol) (m : Int) (id : Int) : Option Order := (v.orders m).find? fun o => o.accnt = a ∧ o.id = id

/-- The open order of the account with the reference. -/
def findRef (a : Symbol) (m : Int) (ref : Bytes) : Option Order :=
  (v.orders m).find? fun o => o.accnt = a ∧ o.ref.data = ref ∧ ref ≠ []

/-- An open order of the account has the reference, in whatever market. -/
def RefTaken (a : Symbol) (ref : Bytes) : Prop := ∃ m, (v.findRef a m ref).isSome

/-! ## New orders -/

open Classical in
noncomputable def admission (a : Symbol) (terms : Symbol × Int × Nat) (ref : Bytes) (lots minLots busDay : Int) :
    Option Exception :=
  if v.RefTaken a ref then some (.refAlreadyExists ref)
  else if terms.2.1 ≠ 0 ∧ terms.2.1 < busDay then some (.marketClosed terms.1 terms.2.1)
  else if lots = 0 ∨ lots < minLots then some (.invalidLots lots)
  else none

/-- The makers with what they offer to the order, up to the first one whose price does not cross. -/
def offers (m : Int) (o : Order) : List (Order × Int) :=
  let direct := if o.side = .buy then Direct.paid else .given
  ((v.book m o.side.opposite).takeWhile fun maker => App.spread o maker direct ≤ 0).map fun maker => (maker, maker.resdLots)

/-- The order is filled from the offers, each of them used up before the next is touched. -/
def deals (m : Int) (o : Order) : List Deal := Deal.number ⟨0, 0, 0, 0⟩ o.id (Greedy.fill o.resdLots (v.offers m o))

/-- One deal is settled, for the maker first. -/
def settle (m : Int) (taker : Order) (now : Int) (d : Deal) : Venue :=
  (((v.amend m taker.side.opposite d.maker.id fun o => o.trade d.lots d.maker.ticks now).setLast m d.lots d.maker.ticks now).file
    d.maker.accnt m (d.makerExec taker now)).file taker.accnt m (d.takerExec taker now)

/-- The order is placed, matched and settled. -/
def accept (m : Int) (o : Order) (now : Int) (ds : List Deal) : Venue :=
  ds.foldl (fun v d => v.settle m o now d) ((v.enter m (o.dealt now ds)).push o.accnt (.make o o.id now))

noncomputable def createOrder (a : Symbol) (m : Int) (terms : Symbol × Int × Nat) (ref : Bytes) (side : Side)
    (lots ticks minLots now busDay : Int) : Except Exception Answer × Venue :=
  match v.admission a terms ref lots minLots busDay with
  | some e => (.error e, v)
  | none =>
    let o := Order.make a m terms.1 terms.2.1 (v.maxId m + 1) ref side lots ticks minLots now
    let ds := v.deals m o
    let given := v.burn m (1 + 2 * ds.length)
    match v.mq.createExecs (Exec.make o o.id now :: ds.flatMap fun d => d.execs o now) with
    | none => (.error .insufficientQueueCapacity, given)
    | some mq =>
      let next := { given with mq }.accept m o now ds
      (.ok (.response (some m) (o.dealt now ds :: (ds.filter fun d => d.maker.accnt = a).map fun d => d.traded now)
        (Exec.make o o.id now :: ds.flatMap fun d => d.told o now) (if ds = [] then none else some (next.posn a m))), next)

/-! ## Revision and cancellation -/

/-- What becomes of an order. -/
def changed (change : App.Change) (now : Int) (o : Order) : Order :=
  match change with
  | .revise lots => o.revise lots now
  | .cancel => o.cancel now

/-- Check the orders one after the other; the number of those that pass, and what stops the check. -/
def stage (a : Symbol) (m : Int) (change : App.Change) : List Int → Nat × Except Exception (List Order)
  | [] => (0, .ok [])
  | id :: ids =>
    match v.find a m id with
    | none => (0, .error (.orderNotFound id))
    | some o =>
      match change.check o with
      | some e => (0, .error e)
      | none =>
        let (n, rest) := stage a m change ids
        (n + 1, rest.map (o :: ·))

/-- The reports of the changes, with the ids after `id`. -/
def changeReports (change : App.Change) (now : Int) : Int → List Order → List Exec
  | _, [] => []
  | id, o :: os => change.report (.make o (id + 1) now) :: changeReports change now (id + 1) os

/-- One change is carried out. -/
def apply (m : Int) (change : App.Change) (now : Int) (o : Order) (e : Exec) : Venue :=
  (v.amend m o.side o.id (changed change now)).push o.accnt e

/-- Change all the orders, or none of them. -/
def changeOrders (m : Int) (change : App.Change) (now : Int) (os : List Order) : Except Exception Answer × Venue :=
  let given := v.burn m os.length
  let reports := changeReports change now (v.maxId m) os
  match v.mq.createExecs reports with
  | none => (.error .insufficientQueueCapacity, given)
  | some mq =>
    (.ok (.response (some m) (os.map (changed change now)) reports none),
      (os.zip reports).foldl (fun v x => v.apply m change now x.1 x.2) { given with mq })

def changeByIds (a : Symbol) (m : Int) (change : App.Change) (ids : List Int) (now : Int) :
    Except Exception Answer × Venue :=
  match v.stage a m change ids with
  | (n, .error e) => (.error e, v.burn m n)
  | (_, .ok os) => v.changeOrders m change now os

def changeByRef (a : Symbol) (m : Int) (change : App.Change) (ref : Bytes) (now : Int) : Except Exception Answer × Venue :=
  match v.findRef a m ref with
  | none => (.error (.orderRefNotFound ref), v)
  | some o =>
    match change.check o with
    | some e => (.error e, v)
    | none => v.changeOrders m change now [o]

/-! ## Trades -/

/-- The trade, and the counter-party's trade when a counter-party is named. -/
def createTrade (a : Symbol) (m : Int) (terms : Symbol × Int × Nat) (ref : Bytes) (side : Side) (lots ticks : Int)
    (liqInd : LiqInd) (cpty : Symbol) (created : Int) : Except Exception Answer × Venue :=
  let trade := Exec.makeManual m terms.1 terms.2.1 (v.maxId m + 1) a ref side lots ticks (v.posn a m).netLots
    (v.posn a m).netCost liqInd cpty created
  if cpty.isEmpty then
    match v.mq.createExec trade with
    | none => (.error .insufficientQueueCapacity, v.burn m 1)
    | some mq => (.ok (.trades (trade.posn 0 0) none), ({ v with mq }.burn m 1).file a m (trade.posn 0 0))
  else
    let cptyTrade := trade.opposite (v.maxId m + 2)
    match v.mq.createExecs [trade, cptyTrade] with
    | none => (.error .insufficientQueueCapacity, v.burn m 2)
    | some mq =>
      (.ok (.trades (trade.posn 0 0) (some (cptyTrade.posn 0 0))),
        (({ v with mq }.burn m 2).file cpty m (cptyTrade.posn 0 0)).file a m (trade.posn 0 0))

def archiveTrades (a : Symbol) (m : Int) (ids : List Int) (now : Int) : Except Exception Answer × Venue :=
  match ids.find? fun id => (v.trades a (idKey m id)).isNone with
  | some id => (.error (.tradeNotFound id), v)
  | none =>
    match v.mq.archiveTrades m ids now with
    | none => (.error .insufficientQueueCapacity, v)
    | some mq => (.ok .done, { v with mq }.unfile a m ids)

/-! ## Markets -/

def createMarket (m : Int) (instr : Symbol) (settlDay : Int) (state : Nat) (busDay : Int) :
    Except Exception Answer × Venue :=
  if settlDay ≠ 0 ∧ settlDay < busDay then (.error .settlDayBeforeBusDay, v)
  else if (v.terms m).isSome then (.error (.marketAlreadyExists instr settlDay), v)
  else
    match v.mq.createMarket m instr settlDay state with
    | none => (.error .insufficientQueueCapacity, v)
    | some mq => (.ok .done, { v with mq, terms := update v.terms m (some (instr, settlDay, state)) })

def updateMarket (m : Int) (terms : Symbol × Int × Nat) (state : Nat) : Except Exception Answer × Venue :=
  match v.mq.updateMarket m state with
  | none => (.error .insufficientQueueCapacity, v)
  | some mq => (.ok .done, { v with mq, terms := update v.terms m (some (terms.1, terms.2.1, state)) })

end Venue

/-- A call that names no object of the engine. -/
inductive Venue.Call where
  | sess (accnt : Symbol)
  | createMarket (instrId : Int) (instr : Symbol) (settlDay : Int) (state : Nat) (busDay : Int)
  | updateMarket (marketId : Int) (state : Nat)
  | createOrder (accnt : Symbol) (marketId : Int) (ref : Bytes) (side : Side) (lots : Int) (ticks : Int)
      (minLots : Int) (now : Int) (busDay : Int)
  | changeOrder (accnt : Symbol) (marketId : Int) (change : App.Change) (target : Target) (now : Int)
  | createTrade (accnt : Symbol) (marketId : Int) (ref : Bytes) (side : Side) (lots : Int) (ticks : Int)
      (liqInd : LiqInd) (cpty : Symbol) (created : Int)
  | archiveTrade (accnt : Symbol) (marketId : Int) (id : Int) (now : Int)
  | archiveTrades (accnt : Symbol) (marketId : Int) (ids : List Int) (now : Int)
  | pop
  deriving DecidableEq

namespace Venue.Call

/-- The call of the engine. -/
def op : Call → Op
  | sess a => .sess a
  | createMarket instrId instr settlDay state busDay => .createMarket instrId instr settlDay state busDay
  | updateMarket m state => .updateMarket m state
  | createOrder a m ref side lots ticks minLots now busDay => .createOrder a m ref side lots ticks minLots now busDay
  | changeOrder a m change target now => .changeOrder a m change target now
  | createTrade a m ref side lots ticks liqInd cpty created => .createTrade a m ref side lots ticks liqInd cpty created
  | archiveTrade a m id now => .archiveTrade a m id now
  | archiveTrades a m ids now => .archiveTrades a m ids now
  | pop => .pop

end Venue.Call

namespace Venue

variable (v : Venue)

def withMarket (m : Int) (f : Symbol × Int × Nat → Except Exception Answer × Venue) : Except Exception Answer × Venue :=
  match v.terms m with
  | none => (.error (.marketNotFound m), v)
  | some terms => f terms

noncomputable def call : Call → Except Exception Answer × Venue
  | .sess _ => (.ok .done, v)
  | .createMarket instrId instr settlDay state busDay => v.createMarket (toMarketId instrId settlDay) instr settlDay state busDay
  | .updateMarket m state => v.withMarket m fun terms => v.updateMarket m terms state
  | .createOrder a m ref side lots ticks minLots now busDay =>
    v.withMarket m fun terms => v.createOrder a m terms ref side lots ticks minLots now busDay
  | .changeOrder a m change (.id id) now => v.withMarket m fun _ => v.changeByIds a m change [id] now
  | .changeOrder a m change (.ref ref) now => v.withMarket m fun _ => v.changeByRef a m change ref now
  | .changeOrder a m change (.ids ids) now => v.withMarket m fun _ => v.changeByIds a m change ids now
  | .createTrade a m ref side lots ticks liqInd cpty created =>
    v.withMarket m fun terms => v.createTrade a m terms ref side lots ticks liqInd cpty created
  | .archiveTrade a m id now => v.archiveTrades a m [id] now
  | .archiveTrades a m ids now => v.archiveTrades a m ids now
  | .pop => (.ok .done, { v with mq := v.mq.pop })

/-- The answers to a list of calls, and the venue afterwards. -/
noncomputable def run : Venue → List Call → List (Except Exception Answer) × Venue
  | v, [] => ([], v)
  | v, c :: cs => ((v.call c).1 :: (run (v.call c).2 cs).1, (run (v.call c).2 cs).2)

end Venue

end Swirly
