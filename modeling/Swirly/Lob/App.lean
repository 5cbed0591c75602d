import Swirly.Fin.Exception
import Swirly.Fin.Market
import Swirly.Fin.MsgQueue
import Swirly.Lob.Sess

/-!
# The matching engine

`lob/App.cpp`.  A call returns, throws, or faults.  It faults where the source relies on an element that is
not there: a lookup whose result an `assert` only checks, or an erasure from a container that does not hold
the element.  The other assertions are compiled out of the default build.

The response of a call holds the last references to the objects that the call made.  It is dropped with an
exception, so a call that throws releases what it made; otherwise objects stay in their store.
The business day of a call, which `bus_day_` reads off its time, is an argument.
-/

namespace Swirly

/-- A position is named by its session and its market. -/
abbrev PosnPtr := Symbol × Int

structure Match where
  lots : Int
  makerOrder : OrderPtr
  makerTrade : ExecPtr
  makerPosn : PosnPtr
  takerTrade : ExecPtr
  deriving DecidableEq

structure Response where
  market : Option Int
  orders : List OrderPtr
  execs : List ExecPtr
  posn : Option PosnPtr
  deriving DecidableEq

namespace Response

def empty : Response := { market := none, orders := [], execs := [], posn := none }

def setMarket (resp : Response) (marketId : Int) : Response := { resp with market := some marketId }

def insertOrder (resp : Response) (p : OrderPtr) : Response := { resp with orders := resp.orders ++ [p] }

def insertExec (resp : Response) (e : ExecPtr) : Response := { resp with execs := resp.execs ++ [e] }

def setPosn (resp : Response) (posn : PosnPtr) : Response := { resp with posn := some posn }

end Response

structure App where
  mq : MsgQueue
  maxExecs : Nat
  markets : OrdMap Int Market
  sesss : OrdMap Symbol Sess
  heap : Heap
  execs : Store Exec
  matches_ : List Match
  execs_ : List ExecPtr
  deriving DecidableEq

/-- How a call ends. -/
inductive Outcome (α : Type) where
  | ok (result : α) (app : App)
  | throw (e : Exception) (app : App)
  | fault
  deriving DecidableEq

namespace App

def make (capacity : Nat) (maxExecs : Nat) : App :=
  { mq := { capacity, posted := [], popped := 0 }, maxExecs, markets := ∅, sesss := ∅, heap := ⟨∅, ∅⟩, execs := ∅,
    matches_ := [], execs_ := [] }

/-! ## State -/

def sess (app : App) (accnt : Symbol) : Sess := app.sesss.get accnt

def market (app : App) (marketId : Int) : Market := app.markets.get marketId

def order (app : App) (p : OrderPtr) : Order := app.heap.order p

def exec (app : App) (e : ExecPtr) : Exec := app.execs.get e

def setSess (app : App) (accnt : Symbol) (sess : Sess) : App := { app with sesss := app.sesss.put accnt sess }

def setMarket (app : App) (marketId : Int) (market : Market) : App :=
  { app with markets := app.markets.put marketId market }

/-- `App::sess`: the session is made on first use. -/
def ensureSess (app : App) (accnt : Symbol) : App := { app with sesss := app.sesss.insert accnt .make }

def ensurePosn (app : App) (accnt : Symbol) (marketId : Int) : App :=
  app.setSess accnt ((app.sess accnt).ensurePosn marketId)

def posn (app : App) (posn : PosnPtr) : Posn := (app.sess posn.1).posn posn.2

/-- `Market::alloc_id`. -/
def allocId (app : App) (marketId : Int) : Int × App :=
  let market := app.market marketId
  (market.maxId + 1, app.setMarket marketId { market with maxId := market.maxId + 1 })

def newOrder (app : App) (o : Order) : OrderPtr × App :=
  (app.heap.orders.fresh, { app with heap := app.heap.newOrder o })

def newExec (app : App) (e : Exec) : ExecPtr × App :=
  (app.execs.fresh, { app with execs := app.execs.alloc e })

def releaseExecs (app : App) (es : List ExecPtr) : App := { app with execs := app.execs.release es }

/-- `matches_.clear()` and `execs_.clear()`. -/
def clearScratch (app : App) : App := { app with matches_ := [], execs_ := [] }

/-- Run an operation of a market. -/
def onMarket (app : App) (marketId : Int) (f : Heap → Market → Option (Heap × Market)) : Option App :=
  (f app.heap (app.market marketId)).map fun (heap, market) => { app with heap }.setMarket marketId market

def pushExecFront (app : App) (accnt : Symbol) (e : ExecPtr) : App :=
  app.setSess accnt ((app.sess accnt).pushExecFront app.maxExecs e)

/-- `Exec::posn`: record the position before the trade. -/
def stampPosn (app : App) (e : ExecPtr) (posn : PosnPtr) : App :=
  { app with execs := app.execs.put e ((app.exec e).posn (app.posn posn).netLots (app.posn posn).netCost) }

/-- `push_exec_front`, `insert_trade` and `add_trade`, which touch different parts of the session. -/
def fileTrade (app : App) (accnt : Symbol) (marketId : Int) (e : ExecPtr) : App :=
  let trade := app.exec e
  app.setSess accnt ((((app.sess accnt).pushExecFront app.maxExecs e).insertTrade e trade).addTrade
    marketId trade.side trade.lastLots trade.lastTicks)

/-! ## Markets -/

def createMarket (app : App) (instrId : Int) (instr : Symbol) (settlDay : Int) (state : Nat) (busDay : Int) :
    Outcome Unit :=
  if settlDay ≠ 0 ∧ settlDay < busDay then .throw .settlDayBeforeBusDay app
  else if (app.markets.find (toMarketId instrId settlDay)).isSome then .throw (.marketAlreadyExists instr settlDay) app
  else
    match app.mq.createMarket (toMarketId instrId settlDay) instr settlDay state with
    | none => .throw .insufficientQueueCapacity app
    | some mq => .ok () ({ app with mq }.setMarket (toMarketId instrId settlDay) (.make instr settlDay state))

def updateMarket (app : App) (marketId : Int) (state : Nat) : Outcome Unit :=
  match app.mq.updateMarket marketId state with
  | none => .throw .insufficientQueueCapacity app
  | some mq => .ok () ({ app with mq }.setMarket marketId { app.market marketId with state })

/-! ## Matching -/

def spread (takerOrder : Order) (makerOrder : Order) (direct : Direct) : Int :=
  if direct = .paid
  -- Paid when the taker lifts the offer.
  then makerOrder.ticks - takerOrder.ticks
  -- Given when the taker hits the bid.
  else takerOrder.ticks - makerOrder.ticks

/-- `None` when the maker's session does not exist. -/
def newMatch (app : App) (marketId : Int) (takerOrder : Order) (makerOrder : OrderPtr) (lots : Int) (sumLots : Int)
    (sumCost : Int) (created : Int) : Option (Match × App) :=
  let (makerId, app) := app.allocId marketId
  let (takerId, app) := app.allocId marketId
  let maker := app.order makerOrder
  match app.sesss.find maker.accnt with
  | none => none
  | some _ =>
    let app := app.ensurePosn maker.accnt marketId
    let (makerTrade, app) :=
      app.newExec ((Exec.make maker makerId created).trade lots maker.ticks takerId .maker takerOrder.accnt)
    let (takerTrade, app) :=
      app.newExec ((Exec.make takerOrder takerId created).tradeSum sumLots sumCost lots maker.ticks makerId .taker maker.accnt)
    some ({ lots, makerOrder, makerTrade, makerPosn := (maker.accnt, marketId), takerTrade }, app)

/-- The running totals of `match_orders`. -/
structure Sums where
  sumLots : Int
  sumCost : Int
  lastLots : Int
  lastTicks : Int

/-- The loop of `match_orders` over the makers that are still to come. -/
def matchLoop (takerAccnt : Symbol) (marketId : Int) (takerOrder : Order) (direct : Direct) (now : Int) :
    List OrderPtr → Sums → App → Response → Option (Sums × App × Response)
  | [], sums, app, resp => some (sums, app, resp)
  | makerOrder :: makers, sums, app, resp =>
    let maker := app.order makerOrder
    -- Break if order is fully filled.
    if sums.sumLots = takerOrder.resdLots then some (sums, app, resp)
    -- Only consider orders while prices cross.
    else if 0 < spread takerOrder maker direct then some (sums, app, resp)
    else
      let lots := min (takerOrder.resdLots - sums.sumLots) maker.resdLots
      let sums : Sums :=
        { sumLots := sums.sumLots + lots, sumCost := sums.sumCost + cost lots maker.ticks, lastLots := lots,
          lastTicks := maker.ticks }
      match app.newMatch marketId takerOrder makerOrder lots sums.sumLots sums.sumCost now with
      | none => none
      | some (m, app) =>
        -- Insert order if trade crossed with self.
        let resp := if maker.accnt = takerAccnt then (resp.insertOrder makerOrder).insertExec m.makerTrade else resp
        let app :=
          { app with execs_ := app.execs_ ++ [m.makerTrade, m.takerTrade], matches_ := app.matches_ ++ [m] }
        matchLoop takerAccnt marketId takerOrder direct now makers sums app (resp.insertExec m.takerTrade)

def matchOrders (app : App) (takerAccnt : Symbol) (marketId : Int) (takerOrder : OrderPtr) (now : Int)
    (resp : Response) : Option (App × Response) :=
  let taker := app.order takerOrder
  let direct := if taker.side = .buy then Direct.paid else .given
  let makers := ((app.market marketId).side taker.side.opposite).orders
  match matchLoop takerAccnt marketId taker direct now makers ⟨0, 0, 0, 0⟩ app resp with
  | none => none
  | some (sums, app, resp) =>
    if app.matches_ ≠ [] then
      let taker := taker.tradeSum sums.sumLots sums.sumCost sums.lastLots sums.lastTicks now
      some ({ app with heap := app.heap.setOrder takerOrder taker }, resp)
    else some (app, resp)

/-- One iteration of `commit_matches`. -/
def commitMatch (app : App) (takerAccnt : Symbol) (marketId : Int) (now : Int) (m : Match) : Option App :=
  -- Reduce maker.
  match app.onMarket marketId fun h market => market.takeOrder h m.makerOrder m.lots now with
  | none => none
  | some app =>
    let maker := app.order m.makerOrder
    match app.sesss.find maker.accnt with
    | none => none
    | some _ =>
      -- Maker updated first because this is consistent with last-look semantics.
      let app := (app.stampPosn m.makerTrade m.makerPosn).fileTrade maker.accnt m.makerPosn.2 m.makerTrade
      let app := if maker.done then app.setSess maker.accnt ((app.sess maker.accnt).removeOrder maker) else app
      some ((app.stampPosn m.takerTrade (takerAccnt, marketId)).fileTrade takerAccnt marketId m.takerTrade)

def commitMatches (app : App) (takerAccnt : Symbol) (marketId : Int) (now : Int) : Option App :=
  app.matches_.foldlM (fun app m => app.commitMatch takerAccnt marketId now m) app

/-! ## New orders -/

/-- The checks of `create_order`. -/
def admission (app : App) (accnt : Symbol) (marketId : Int) (ref : Bytes) (lots : Int) (minLots : Int) (busDay : Int) :
    Option Exception :=
  let market := app.market marketId
  if ref ≠ [] ∧ (app.sess accnt).exists ref then some (.refAlreadyExists ref)
  else if market.settlDay ≠ 0 ∧ market.settlDay < busDay then some (.marketClosed market.instr market.settlDay)
  else if lots = 0 ∨ lots < minLots then some (.invalidLots lots)
  else none

/-- Make the order and its first execution. -/
def place (app : App) (accnt : Symbol) (marketId : Int) (ref : Bytes) (side : Side) (lots : Int) (ticks : Int)
    (minLots : Int) (now : Int) : OrderPtr × ExecPtr × App :=
  let market := app.market marketId
  let (id, app) := app.allocId marketId
  let order := Order.make accnt marketId market.instr market.settlDay id ref side lots ticks minLots now
  let (p, app) := app.newOrder order
  let (e, app) := app.newExec (.make order id now)
  (p, e, { app with execs_ := app.execs_ ++ [e] })

/-- Place incomplete order in market. -/
def rest (app : App) (marketId : Int) (p : OrderPtr) : Option App :=
  if (app.order p).done then some app else app.onMarket marketId fun h market => market.insertOrder h p

/-- Undo market insertion. -/
def unrest (app : App) (marketId : Int) (p : OrderPtr) : Option App :=
  if (app.order p).done then some app else app.onMarket marketId fun h market => market.removeOrder h p

/-- Release the order and the executions of a call that throws. -/
def discard (app : App) (p : OrderPtr) : App :=
  { app.releaseExecs app.execs_ with heap := app.heap.freeOrder p }.clearScratch

/-- The commit phase of `create_order`. -/
def commitOrder (app : App) (accnt : Symbol) (marketId : Int) (p : OrderPtr) (e : ExecPtr) (now : Int) : Option App :=
  let app :=
    if (app.order p).done then app else app.setSess accnt ((app.sess accnt).insertOrder p (app.order p))
  (app.pushExecFront accnt e).commitMatches accnt marketId now

def createOrder (app : App) (accnt : Symbol) (marketId : Int) (ref : Bytes) (side : Side) (lots : Int) (ticks : Int)
    (minLots : Int) (now : Int) (busDay : Int) : Outcome Response :=
  match app.admission accnt marketId ref lots minLots busDay with
  | some e => .throw e app
  | none =>
    let (p, e, app) := app.place accnt marketId ref side lots ticks minLots now
    match app.matchOrders accnt marketId p now ((Response.empty.insertOrder p).insertExec e) with
    | none => .fault
    | some (app, resp) =>
      let resp := resp.setMarket marketId
      -- Avoid allocating position when there are no matches.
      let haveMatches := !app.matches_.isEmpty
      let resp := if haveMatches then resp.setPosn (accnt, marketId) else resp
      let app := if haveMatches then app.ensurePosn accnt marketId else app
      match app.rest marketId p with
      | none => .fault
      | some app =>
        match app.mq.createExecs (app.execs_.map app.exec) with
        | none =>
          match app.unrest marketId p with
          | none => .fault
          | some app => .throw .insufficientQueueCapacity (app.discard p)
        | some mq =>
          match { app with mq }.commitOrder accnt marketId p e now with
          | none => .fault
          | some app => .ok resp app.clearScratch

/-! ## Revision and cancellation -/

/-- `revise_order` and `cancel_order` differ only in what they check and in the change they make. -/
inductive Change where
  | revise (lots : Int)
  | cancel
  deriving DecidableEq

namespace Change

/-- Revised lots must not be greater than original lots, less than executed lots, or less than min lots. -/
def reject : Change → Order → Option Exception
  | revise lots, o =>
    if lots = 0 ∨ o.lots < lots ∨ lots < o.execLots ∨ lots < o.minLots then some (.invalidLots lots) else none
  | cancel, _ => none

/-- The check for a done order, then `reject`. -/
def check (change : Change) (o : Order) : Option Exception :=
  if o.done then some (.tooLate o.id) else change.reject o

def report : Change → Exec → Exec
  | revise lots, e => e.revise lots
  | cancel, e => e.cancel

def onMarket (h : Heap) (market : Market) (p : OrderPtr) (now : Int) : Change → Option (Heap × Market)
  | revise lots => market.reviseOrder h p lots now
  | cancel => market.cancelOrder h p now

/-- The order leaves its session when it is done; a cancelled order always does. -/
def leaves : Change → Order → Bool
  | revise _, o => o.done
  | cancel, _ => true

end Change

/-- The commit phase of one change. -/
def commitChange (app : App) (accnt : Symbol) (marketId : Int) (change : Change) (p : OrderPtr) (e : ExecPtr)
    (now : Int) : Option App :=
  match app.onMarket marketId fun h market => change.onMarket h market p now with
  | none => none
  | some app =>
    let app :=
      if change.leaves (app.order p) then app.setSess accnt ((app.sess accnt).removeOrder (app.order p)) else app
    some (app.pushExecFront accnt e)

/-- `do_revise_order` and `do_cancel_order`, after the check for a done order. -/
def changeOrder (app : App) (accnt : Symbol) (marketId : Int) (change : Change) (p : OrderPtr) (now : Int) :
    Outcome Response :=
  match change.check (app.order p) with
  | some e => .throw e app
  | none =>
    let (id, app) := app.allocId marketId
    let (e, app) := app.newExec (change.report (.make (app.order p) id now))
    let resp := ((Response.empty.setMarket marketId).insertOrder p).insertExec e
    match app.mq.createExec (app.exec e) with
    | none => .throw .insufficientQueueCapacity (app.releaseExecs [e])
    | some mq =>
      match { app with mq }.commitChange accnt marketId change p e now with
      | none => .fault
      | some app => .ok resp app

/-- The overloads by id. -/
def changeById (app : App) (accnt : Symbol) (marketId : Int) (change : Change) (id : Int) (now : Int) :
    Outcome Response :=
  match (app.sess accnt).orders.find (idKey marketId id) with
  | none => .throw (.orderNotFound id) app
  | some p => app.changeOrder accnt marketId change p now

/-- The overloads by reference. -/
def changeByRef (app : App) (accnt : Symbol) (marketId : Int) (change : Change) (ref : Bytes) (now : Int) :
    Outcome Response :=
  match (app.sess accnt).refIdx.find ref with
  | none => .throw (.orderRefNotFound ref) app
  | some p => app.changeOrder accnt marketId change p now

/-- The first loop of the overloads by a list of ids: check each order and make its execution. -/
def stageChanges (accnt : Symbol) (marketId : Int) (change : Change) (now : Int) :
    List Int → App → Response → Outcome Response
  | [], app, resp => .ok resp app
  | id :: ids, app, resp =>
    match (app.sess accnt).orders.find (idKey marketId id) with
    | none => .throw (.orderNotFound id) (app.releaseExecs resp.execs)
    | some p =>
      match change.check (app.order p) with
      | some e => .throw e (app.releaseExecs resp.execs)
      | none =>
        let (execId, app) := app.allocId marketId
        let (e, app) := app.newExec (change.report (.make (app.order p) execId now))
        stageChanges accnt marketId change now ids app ((resp.insertOrder p).insertExec e)

/-- The commit loop: the order is looked up again. -/
def commitChanges (accnt : Symbol) (marketId : Int) (change : Change) (now : Int) : List ExecPtr → App → Option App
  | [], app => some app
  | e :: es, app =>
    match (app.sess accnt).orders.find (idKey marketId (app.exec e).orderId) with
    | none => none
    | some p =>
      match app.commitChange accnt marketId change p e now with
      | none => none
      | some app => commitChanges accnt marketId change now es app

/-- The overloads by a list of ids. -/
def changeByIds (app : App) (accnt : Symbol) (marketId : Int) (change : Change) (ids : List Int) (now : Int) :
    Outcome Response :=
  match stageChanges accnt marketId change now ids app (Response.empty.setMarket marketId) with
  | .fault => .fault
  | .throw e app => .throw e app
  | .ok resp app =>
    match app.mq.createExecs (resp.execs.map app.exec) with
    | none => .throw .insufficientQueueCapacity (app.releaseExecs resp.execs)
    | some mq =>
      match commitChanges accnt marketId change now resp.execs { app with mq } with
      | none => .fault
      | some app => .ok resp app

def reviseOrder (app : App) (accnt : Symbol) (marketId : Int) (id : Int) (lots : Int) (now : Int) : Outcome Response :=
  app.changeById accnt marketId (.revise lots) id now

def reviseOrderByRef (app : App) (accnt : Symbol) (marketId : Int) (ref : Bytes) (lots : Int) (now : Int) :
    Outcome Response :=
  app.changeByRef accnt marketId (.revise lots) ref now

def reviseOrders (app : App) (accnt : Symbol) (marketId : Int) (ids : List Int) (lots : Int) (now : Int) :
    Outcome Response :=
  app.changeByIds accnt marketId (.revise lots) ids now

def cancelOrder (app : App) (accnt : Symbol) (marketId : Int) (id : Int) (now : Int) : Outcome Response :=
  app.changeById accnt marketId .cancel id now

def cancelOrderByRef (app : App) (accnt : Symbol) (marketId : Int) (ref : Bytes) (now : Int) : Outcome Response :=
  app.changeByRef accnt marketId .cancel ref now

def cancelOrders (app : App) (accnt : Symbol) (marketId : Int) (ids : List Int) (now : Int) : Outcome Response :=
  app.changeByIds accnt marketId .cancel ids now

/-! ## Trades -/

/-- The trade, and the counter-party's trade when a counter-party is named. -/
def createTrade (app : App) (accnt : Symbol) (marketId : Int) (ref : Bytes) (side : Side) (lots : Int) (ticks : Int)
    (liqInd : LiqInd) (cpty : Symbol) (created : Int) : Outcome (ExecPtr × Option ExecPtr) :=
  let market := app.market marketId
  let app := app.ensurePosn accnt marketId
  let posn := app.posn (accnt, marketId)
  let (id, app) := app.allocId marketId
  let trade :=
    Exec.makeManual marketId market.instr market.settlDay id accnt ref side lots ticks posn.netLots posn.netCost liqInd
      cpty created
  let (e, app) := app.newExec trade
  if cpty.isEmpty then
    match app.mq.createExec trade with
    | none => .throw .insufficientQueueCapacity (app.releaseExecs [e])
    | some mq => .ok (e, none) ({ app with mq }.fileTrade accnt marketId e)
  else
    -- Create back-to-back trade if counter-party is specified.
    let app := (app.ensureSess cpty).ensurePosn cpty marketId
    let (cptyId, app) := app.allocId marketId
    let cptyTrade := trade.opposite cptyId
    let (cptyExec, app) := app.newExec cptyTrade
    match app.mq.createExecs [trade, cptyTrade] with
    | none => .throw .insufficientQueueCapacity (app.releaseExecs [e, cptyExec])
    | some mq => .ok (e, some cptyExec) (({ app with mq }.fileTrade cpty marketId cptyExec).fileTrade accnt marketId e)

def removeTrade (app : App) (accnt : Symbol) (key : IdKey) : App :=
  app.setSess accnt ((app.sess accnt).removeTrade key)

/-- `do_archive_trade`. -/
def doArchiveTrade (app : App) (accnt : Symbol) (marketId : Int) (id : Int) (now : Int) : Outcome Unit :=
  match app.mq.archiveTrade marketId id now with
  | none => .throw .insufficientQueueCapacity app
  | some mq => .ok () ({ app with mq }.removeTrade accnt (idKey marketId id))

/-- `archive_trade(Sess&, const Exec&)`. -/
def archiveExec (app : App) (accnt : Symbol) (e : ExecPtr) (now : Int) : Outcome Unit :=
  let trade := app.exec e
  if trade.state ≠ .trade then .throw (.notATrade trade.id) app
  else app.doArchiveTrade accnt trade.marketId trade.id now

def archiveTrade (app : App) (accnt : Symbol) (marketId : Int) (id : Int) (now : Int) : Outcome Unit :=
  match (app.sess accnt).trades.find (idKey marketId id) with
  | none => .throw (.tradeNotFound id) app
  | some e => app.doArchiveTrade accnt (app.exec e).marketId (app.exec e).id now

/-- The commit loop of `archive_trade` by a list of ids. -/
def removeTrades (accnt : Symbol) (marketId : Int) : List Int → App → Option App
  | [], app => some app
  | id :: ids, app =>
    match (app.sess accnt).trades.find (idKey marketId id) with
    | none => none
    | some _ => removeTrades accnt marketId ids (app.removeTrade accnt (idKey marketId id))

def archiveTrades (app : App) (accnt : Symbol) (marketId : Int) (ids : List Int) (now : Int) : Outcome Unit :=
  match ids.find? fun id => ((app.sess accnt).trades.find (idKey marketId id)).isNone with
  | some id => .throw (.tradeNotFound id) app
  | none =>
    match app.mq.archiveTrades marketId ids now with
    | none => .throw .insufficientQueueCapacity app
    | some mq =>
      match removeTrades accnt marketId ids { app with mq } with
      | none => .fault
      | some app => .ok () app

end App

end Swirly
