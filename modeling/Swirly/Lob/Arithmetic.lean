import Swirly.Lob.Op

/-!
# Arithmetic in 64 bits

The engine computes with integers without a bound, and the source with integers of 64 bits that it does not check.  The functions
here follow those that an order or a trade passes through, and list the differences, products and sums of lots, ticks and costs
that these compute.
-/

namespace Swirly

/-- A computation in 64 bits has the right result. -/
def Unwrapped (v : Int) : Prop := v.bmod (2 ^ 64) = v

instance : DecidablePred Unwrapped := fun v => inferInstanceAs (Decidable (v.bmod (2 ^ 64) = v))

namespace Order

def tradeSumValues (o : Order) (takenLots : Int) (takenCost : Int) : List Int :=
  [o.resdLots - takenLots, o.execLots + takenLots, o.execCost + takenCost]

def tradeValues (o : Order) (lastLots : Int) (lastTicks : Int) : List Int :=
  cost lastLots lastTicks :: o.tradeSumValues lastLots (cost lastLots lastTicks)

end Order

namespace Posn

def addBuyValues (posn : Posn) (lots : Int) (ticks : Int) : List Int :=
  let netLots := posn.netLots + lots
  [cost lots ticks, posn.netLots, netLots, posn.buyLots + lots, posn.buyCost + cost lots ticks] ++
    if netLots < 0 ∨ lots ≤ netLots then [posn.netCost + cost lots ticks]
    else if 0 < netLots then [cost netLots ticks]
    else []

def addSellValues (posn : Posn) (lots : Int) (ticks : Int) : List Int :=
  let netLots := posn.netLots - lots
  [cost lots ticks, posn.netLots, netLots, posn.sellLots + lots, posn.sellCost + cost lots ticks, -lots] ++
    if 0 < netLots ∨ netLots ≤ -lots then [posn.netCost - cost lots ticks]
    else if netLots < 0 then [cost netLots ticks]
    else []

def addTradeValues (posn : Posn) (side : Side) (lots : Int) (ticks : Int) : List Int :=
  if side = .buy then posn.addBuyValues lots ticks else posn.addSellValues lots ticks

end Posn

namespace MarketSide

variable (h : Heap) (s : MarketSide) (p : OrderPtr)

def insertLevelValues : List Int :=
  let o := h.order p
  let key := composeKey o.side o.ticks
  key ::
    match s.levels.find key with
    | none => []
    | some lp => [(h.level lp).lots + o.resdLots]

def removeFromLevelValues (lp : LevelPtr) : List Int := [(h.level lp).lots - (h.order p).resdLots]

def reduceLevelValues (lp : LevelPtr) (delta : Int) : List Int :=
  if delta < (h.order p).resdLots then [(h.level lp).lots - delta] else removeFromLevelValues h p lp

def removeOrderValues : List Int :=
  match (h.order p).level with
  | none => []
  | some lp => removeFromLevelValues h p lp

def takeOrderValues (lots : Int) : List Int :=
  (match (h.order p).level with
    | none => []
    | some lp => reduceLevelValues h p lp lots) ++ (h.order p).tradeValues lots (h.order p).ticks

end MarketSide

namespace App

/-! ## Orders -/

/-- The executions begin with the quantities of their orders. -/
def newMatchValues (takerOrder : Order) (maker : Order) (lots : Int) (sumLots : Int) (sumCost : Int) : List Int :=
  maker.tradeValues lots maker.ticks ++ takerOrder.tradeSumValues sumLots sumCost

/-- The loop of `match_orders`, which changes no order.  What the taker itself computes after the loop is what its last execution
has computed. -/
def matchLoopValues (h : Heap) (takerOrder : Order) (direct : Direct) : List OrderPtr → Sums → List Int
  | [], _ => []
  | makerOrder :: makers, sums =>
    let maker := h.order makerOrder
    -- Break if order is fully filled.
    if sums.sumLots = takerOrder.resdLots then []
    else
      spread takerOrder maker direct ::
        -- Only consider orders while prices cross.
        if 0 < spread takerOrder maker direct then []
        else
          let open_ := takerOrder.resdLots - sums.sumLots
          let lots := min open_ maker.resdLots
          let next : Sums :=
            { sumLots := sums.sumLots + lots, sumCost := sums.sumCost + cost lots maker.ticks, lastLots := lots,
              lastTicks := maker.ticks }
          [open_, next.sumLots, cost lots maker.ticks, next.sumCost] ++
            newMatchValues takerOrder maker lots next.sumLots next.sumCost ++ matchLoopValues h takerOrder direct makers next

def matchOrdersValues (app : App) (marketId : Int) (takerOrder : OrderPtr) : List Int :=
  let taker := app.order takerOrder
  let direct := if taker.side = .buy then Direct.paid else .given
  matchLoopValues app.heap taker direct ((app.market marketId).side taker.side.opposite).orders ⟨0, 0, 0, 0⟩

def restValues (app : App) (marketId : Int) (p : OrderPtr) : List Int :=
  if (app.order p).done then []
  else MarketSide.insertLevelValues app.heap ((app.market marketId).side (app.order p).side) p

def unrestValues (app : App) (p : OrderPtr) : List Int :=
  if (app.order p).done then [] else MarketSide.removeOrderValues app.heap p

def fileTradeValues (app : App) (posn : PosnPtr) (e : ExecPtr) : List Int :=
  let trade := app.exec e
  (app.posn posn).addTradeValues trade.side trade.lastLots trade.lastTicks

/-- One iteration of `commit_matches`: the level and the maker, the position of the maker, and that of the taker. -/
def commitMatchValues (app : App) (takerAccnt : Symbol) (marketId : Int) (now : Int) (m : Match) : List Int :=
  MarketSide.takeOrderValues app.heap m.makerOrder m.lots ++
    match app.onMarket marketId fun h market => market.takeOrder h m.makerOrder m.lots now with
    | none => []
    | some app =>
      let maker := app.order m.makerOrder
      let filed := (app.stampPosn m.makerTrade m.makerPosn).fileTrade maker.accnt m.makerPosn.2 m.makerTrade
      app.fileTradeValues m.makerPosn m.makerTrade ++ filed.fileTradeValues (takerAccnt, marketId) m.takerTrade

def commitMatchesValues (takerAccnt : Symbol) (marketId : Int) (now : Int) : List Match → App → List Int
  | [], _ => []
  | m :: ms, app =>
    app.commitMatchValues takerAccnt marketId now m ++
      match app.commitMatch takerAccnt marketId now m with
      | none => []
      | some app => commitMatchesValues takerAccnt marketId now ms app

def commitOrderValues (app : App) (accnt : Symbol) (marketId : Int) (p : OrderPtr) (e : ExecPtr) (now : Int) : List Int :=
  let app :=
    if (app.order p).done then app else app.setSess accnt ((app.sess accnt).insertOrder p (app.order p))
  commitMatchesValues accnt marketId now app.matches_ (app.pushExecFront accnt e)

def createOrderValues (app : App) (accnt : Symbol) (marketId : Int) (ref : Bytes) (side : Side) (lots : Int) (ticks : Int)
    (minLots : Int) (now : Int) (busDay : Int) : List Int :=
  match app.admission accnt marketId ref lots minLots busDay with
  | some _ => []
  | none =>
    let (p, e, app) := app.place accnt marketId ref side lots ticks minLots now
    app.matchOrdersValues marketId p ++
      match app.matchOrders accnt marketId p now ((Response.empty.insertOrder p).insertExec e) with
      | none => []
      | some (app, _) =>
        let app := if !app.matches_.isEmpty then app.ensurePosn accnt marketId else app
        app.restValues marketId p ++
          match app.rest marketId p with
          | none => []
          | some app =>
            match app.mq.createExecs (app.execs_.map app.exec) with
            | none => app.unrestValues p
            | some mq => { app with mq }.commitOrderValues accnt marketId p e now

/-! ## Trades -/

/-- The counter-party's trade is added before the account's own. -/
def createTradeValues (app : App) (accnt : Symbol) (marketId : Int) (ref : Bytes) (side : Side) (lots : Int) (ticks : Int)
    (liqInd : LiqInd) (cpty : Symbol) (created : Int) : List Int :=
  let posn := app.posn (accnt, marketId)
  [posn.netLots, cost lots ticks] ++
    if (app.createTrade accnt marketId ref side lots ticks liqInd cpty created).returned.isNone then []
    else if cpty.isEmpty then posn.addTradeValues side lots ticks
    else
      let filed := if cpty = accnt then posn.addTrade side.opposite lots ticks else posn
      (app.posn (cpty, marketId)).addTradeValues side.opposite lots ticks ++ filed.addTradeValues side lots ticks

/-- What a call computes on the way of an order or a trade. -/
def values (app : App) : Op → List Int
  | .createOrder accnt marketId ref side lots ticks minLots now busDay =>
    if (app.markets.find marketId).isSome then
      (app.ensureSess accnt).createOrderValues accnt marketId ref side lots ticks minLots now busDay
    else []
  | .createTrade accnt marketId ref side lots ticks liqInd cpty created =>
    if (app.markets.find marketId).isSome then
      (app.ensureSess accnt).createTradeValues accnt marketId ref side lots ticks liqInd cpty created
    else []
  | _ => []

end App

end Swirly
