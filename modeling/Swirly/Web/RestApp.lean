import Swirly.Fin.Output
import Swirly.Swirlyd.RestServ
import Swirly.Web.Page

/-!
# The engine behind the resources

`web/RestApp.cpp`: what a request shows of the markets and of an account, and the calls that it makes.  The reference data are
left out of what is shown.  The table of the instruments is a map from symbols to ids.
-/

namespace Swirly

/-- A position as it is printed. -/
structure ShownPosn where
  accnt : Symbol
  marketId : Int
  instr : Symbol
  settlDay : Int
  posn : Posn
  deriving DecidableEq

/-- What a reply shows of the markets and of accounts. -/
structure Shown where
  markets : List ShownMarket
  orders : List Order
  execs : List Exec
  trades : List Exec
  posns : List ShownPosn
  deriving DecidableEq

namespace Shown

def nothing : Shown := { markets := [], orders := [], execs := [], trades := [], posns := [] }

/-- What is shown of accounts. -/
def accounts (shown : Shown) : Shown := { shown with markets := [] }

end Shown

/-- What is known from elsewhere: the instruments, as they are found and as they are printed, and the assets. -/
structure RefData where
  find : Symbol → Option Int
  print : Symbol → String
  asset : Symbol → Bool

/-- The rows that a path selects. -/
inductive Scope where
  | all
  | instr (instr : Symbol)
  | market (instr : Symbol) (settlDate : Int)
  /-- The ids of the path, of which a `GET` reads the first. -/
  | ids (instr : Symbol) (settlDate : Int) (ids : List Int)
  deriving DecidableEq

namespace RestApp

variable (instrs : RefData) (app : App)

/-! ## What is shown -/

/-- The level of an order is not printed. -/
def order (p : OrderPtr) : Order := { app.order p with level := none }

def posn (ptr : PosnPtr) (posn : Posn) : ShownPosn :=
  { accnt := ptr.1, marketId := ptr.2, instr := (app.market ptr.2).instr, settlDay := (app.market ptr.2).settlDay, posn }

def orders (accnt : Symbol) : List Order := (app.sess accnt).orders.entries.map fun e => order app e.2

def execs (accnt : Symbol) : List Exec := (app.sess accnt).execs.map app.exec

def trades (accnt : Symbol) : List Exec := (app.sess accnt).trades.entries.map fun e => app.exec e.2

def posns (accnt : Symbol) : List ShownPosn := (app.sess accnt).posns.entries.map fun e => posn app (accnt, e.1) e.2

def levels (s : MarketSide) : List ShownLevel :=
  s.levels.entries.map fun e =>
    let level := app.heap.level e.2
    { ticks := level.ticks, lots := level.lots, count := level.count }

def market (id : Int) : ShownMarket :=
  { id, instr := (app.market id).instr, settlDay := (app.market id).settlDay, state := (app.market id).state,
    lastLots := (app.market id).lastLots, lastTicks := (app.market id).lastTicks, lastTime := (app.market id).lastTime,
    bids := levels app (app.market id).bidSide, offers := levels app (app.market id).offerSide }

def markets : List ShownMarket := app.markets.entries.map fun e => market app e.1

/-- All that there is to show of an account. -/
def account (accnt : Symbol) : Shown :=
  { markets := [], orders := orders app accnt, execs := execs app accnt, trades := trades app accnt, posns := posns app accnt }

/-- The last execution is printed first. -/
def response (resp : Response) : Shown :=
  { markets := resp.market.toList.map (market app)
    orders := resp.orders.map (order app)
    execs := resp.execs.reverse.map app.exec
    trades := []
    posns := resp.posn.toList.map fun ptr => posn app ptr (app.posn ptr) }

def reply : Reply → Shown
  | .done => .nothing
  | .response resp => response app resp
  | .trades trade cptyTrade => { Shown.nothing with trades := (trade :: cptyTrade.toList).map app.exec }

/-- The reply is printed after the call. -/
def printAs (shown : App → Reply → Shown) : Outcome Reply → Outcome Shown
  | .ok result app => .ok (shown app result) app
  | .throw e app => .throw e app
  | .fault => .fault

def print : Outcome Reply → Outcome Shown := printAs reply

/-- The market is printed. -/
def printMarket (id : Int) : Outcome Reply → Outcome Shown :=
  printAs fun app _ => { Shown.nothing with markets := [market app id] }

/-! ## Reading -/

def findMarket (instr : Symbol) (settlDate : Int) : Option Int :=
  (instrs.find instr).map fun id => toMarketId id (maybeIsoToJd settlDate)

/-- The overloads of `get_order` and `get_trade`. -/
def select {α : Type} (request : α → Request) (missing : Int → Exception) (rows : List α) : Scope → Outcome (List α)
  | .all => .ok rows app
  | .instr instr => .ok (rows.filter fun x => (request x).instr = instr) app
  | .market instr settlDate =>
    match findMarket instrs instr settlDate with
    | none => .throw (RestServ.instrNotFound instr) app
    | some m => .ok (rows.filter fun x => (request x).marketId = m) app
  -- There may be no first id.
  | .ids _ _ [] => .fault
  | .ids instr settlDate (id :: _) =>
    match findMarket instrs instr settlDate with
    | none => .throw (RestServ.instrNotFound instr) app
    | some m =>
      match rows.find? fun x => (request x).key = idKey m id with
      | none => .throw (missing id) app
      | some x => .ok [x] app

def assetNotFound (symbol : Symbol) : Exception := ⟨.notFound, s!"asset '{symbol.display}' does not exist"⟩

def instrNotFound (symbol : Symbol) : Exception := ⟨.notFound, s!"instr '{symbol.display}' does not exist"⟩

def posnNotFound (instr : Symbol) (settlDate : Int) : Exception :=
  ⟨.notFound, s!"posn for '{instrs.print instr}' on {settlDate} does not exist"⟩

def getRefData (es : List Entity) : Outcome Shown :=
  .ok { Shown.nothing with markets := if .market ∈ es then markets app else [] } app

/-- Reference data, or the one with the symbol. -/
def getBySymbol (known : Symbol → Bool) (missing : Symbol → Exception) : Option Symbol → Outcome Shown
  | none => .ok .nothing app
  | some symbol => if known symbol then .ok .nothing app else .throw (missing symbol) app

/-- The overloads of `get_asset`. -/
def getAsset : Option Symbol → Outcome Shown := getBySymbol app instrs.asset assetNotFound

/-- The overloads of `get_instr`. -/
def getInstr : Option Symbol → Outcome Shown := getBySymbol app (fun symbol => (instrs.find symbol).isSome) instrNotFound

def getSess (accnt : Symbol) (es : List Entity) (page : Page) : Outcome Shown :=
  let app := app.ensureSess accnt
  .ok
    { markets := if .market ∈ es then markets app else []
      orders := if .order ∈ es then orders app accnt else []
      execs := if .exec ∈ es then page.rows (execs app accnt) else []
      trades := if .trade ∈ es then trades app accnt else []
      posns := if .posn ∈ es then posns app accnt else [] }
    app

def getOrder (accnt : Symbol) (scope : Scope) : Outcome Shown :=
  let app := app.ensureSess accnt
  (select instrs app Order.toRequest .orderNotFound (orders app accnt) scope).map fun orders => { Shown.nothing with orders }

def getExec (accnt : Symbol) (page : Page) : Outcome Shown :=
  let app := app.ensureSess accnt
  .ok { Shown.nothing with execs := page.rows (execs app accnt) } app

def getTrade (accnt : Symbol) (scope : Scope) : Outcome Shown :=
  let app := app.ensureSess accnt
  (select instrs app Exec.toRequest .tradeNotFound (trades app accnt) scope).map fun trades => { Shown.nothing with trades }

/-- The overloads of `get_posn`, which has none for ids. -/
def getPosn (accnt : Symbol) (scope : Scope) : Outcome Shown :=
  let app := app.ensureSess accnt
  match scope with
  | .all => .ok { Shown.nothing with posns := posns app accnt } app
  | .instr instr => .ok { Shown.nothing with posns := (posns app accnt).filter (·.instr = instr) } app
  | .market instr settlDate | .ids instr settlDate _ =>
    match findMarket instrs instr settlDate with
    | none => .throw (RestServ.instrNotFound instr) app
    | some m =>
      match (posns app accnt).find? (·.marketId = m) with
      | none => .throw (posnNotFound instrs instr settlDate) app
      | some row => .ok { Shown.nothing with posns := [row] } app

/-- The markets that the overloads of `get_market` print.  It has none for ids. -/
def selectMarkets : Scope → Outcome (List ShownMarket)
  | .all => .ok (markets app) app
  | .instr instr => .ok ((markets app).filter (·.instr = instr)) app
  | .market instr settlDate | .ids instr settlDate _ =>
    match findMarket instrs instr settlDate with
    | none => .throw (RestServ.instrNotFound instr) app
    | some id => if (app.markets.find id).isSome then .ok [market app id] app else .throw (.marketNotFound id) app

/-- An array of markets, or one market. -/
def printMarkets (maxLevels : Nat) : Scope → List ShownMarket → Bytes
  | .all, shown | .instr _, shown => jsonArray (shown.map (·.toJson maxLevels))
  | .market .., shown | .ids .., shown => (shown.map (·.toJson maxLevels)).flatten

def getMarket (maxLevels : Nat) (scope : Scope) : Outcome Bytes :=
  (selectMarkets instrs app scope).map (printMarkets maxLevels scope)

/-! ## Calling -/

/-- A call that needs its instrument. -/
def withInstr (instr : Symbol) (call : Int → Outcome Shown) : Outcome Shown :=
  match instrs.find instr with
  | none => .throw (RestServ.instrNotFound instr) app
  | some id => call id

def postMarket (instr : Symbol) (settlDate : Int) (state : Nat) (busDay : Int) : Outcome Shown :=
  withInstr instrs app instr fun id =>
    printMarket (toMarketId id (maybeIsoToJd settlDate)) (app.call (.createMarket id instr (maybeIsoToJd settlDate) state busDay))

def putMarket (instr : Symbol) (settlDate : Int) (state : Nat) : Outcome Shown :=
  withInstr instrs app instr fun id =>
    printMarket (toMarketId id (maybeIsoToJd settlDate)) (app.call (.updateMarket (toMarketId id (maybeIsoToJd settlDate)) state))

def putOrder (accnt : Symbol) (instr : Symbol) (settlDate : Int) (ids : List Int) (lots : Int) (now : Int) : Outcome Shown :=
  withInstr instrs (app.ensureSess accnt) instr fun id =>
    let change := if 0 < lots then App.Change.revise lots else .cancel
    let target :=
      match ids with
      | [id] => Target.id id
      | ids => .ids ids
    print (app.call (.changeOrder accnt (toMarketId id (maybeIsoToJd settlDate)) change target now))

def postTrade (accnt : Symbol) (instr : Symbol) (settlDate : Int) (ref : Bytes) (side : Side) (lots : Int) (ticks : Int)
    (liqInd : LiqInd) (cpty : Symbol) (now : Int) : Outcome Shown :=
  withInstr instrs (app.ensureSess accnt) instr fun id =>
    print (app.call (.createTrade accnt (toMarketId id (maybeIsoToJd settlDate)) ref side lots ticks liqInd cpty now))

/-- The market is not looked up. -/
def deleteTrade (accnt : Symbol) (instr : Symbol) (settlDate : Int) (ids : List Int) (now : Int) : Outcome Shown :=
  withInstr instrs (app.ensureSess accnt) instr fun id =>
    print (app.call (.archiveTrades accnt (toMarketId id (maybeIsoToJd settlDate)) ids now))

end RestApp

end Swirly
