import Swirly.Lob.App

/-!
# Loading the engine

`App::load` of `lob/App.cpp`, from the objects that a `Model` delivers to its callbacks, in the order of delivery.  Assets
and instruments are not modelled.
-/

namespace Swirly

/-- `fin/Model.hpp`. -/
structure Model where
  markets : List (Int × Market)
  orders : List Order
  execs : (since : Int) → List Exec
  trades : List Exec
  posns : (busDay : Int) → List (PosnPtr × Posn)

namespace Sess

/-- A full circular buffer drops its first element. -/
def pushExecBack (s : Sess) (maxExecs : Nat) (e : ExecPtr) : Sess :=
  { s with execs := (s.execs ++ [e]).drop (s.execs.length + 1 - maxExecs) }

def insertPosn (s : Sess) (marketId : Int) (posn : Posn) : Sess := { s with posns := s.posns.insert marketId posn }

end Sess

namespace App

/-- `markets.insert`, which keeps a market that is there already. -/
def loadMarket (app : App) (market : Int × Market) : App :=
  { app with markets := app.markets.insert market.1 market.2 }

/-- `None` when the market does not exist, which an `assert` checks. -/
def loadOrder (app : App) (o : Order) : Option App :=
  let app := app.ensureSess o.accnt
  let (p, app) := app.newOrder o
  let app := app.setSess o.accnt ((app.sess o.accnt).insertOrder p o)
  match app.markets.find o.marketId with
  | none => none
  | some _ => app.onMarket o.marketId fun h market => market.insertOrder h p

def loadExec (app : App) (e : Exec) : App :=
  let app := app.ensureSess e.accnt
  let (ptr, app) := app.newExec e
  app.setSess e.accnt ((app.sess e.accnt).pushExecBack app.maxExecs ptr)

def loadTrade (app : App) (e : Exec) : App :=
  let app := app.ensureSess e.accnt
  let (ptr, app) := app.newExec e
  app.setSess e.accnt ((app.sess e.accnt).insertTrade ptr e)

def loadPosn (app : App) (posn : PosnPtr × Posn) : App :=
  let app := app.ensureSess posn.1.1
  app.setSess posn.1.1 ((app.sess posn.1.1).insertPosn posn.1.2 posn.2)

/-- One week, in nanoseconds. -/
def oneWeek : Int := 604800000 * 1000000

def load (app : App) (model : Model) (now : Int) (busDay : Int) : Option App :=
  match model.orders.foldlM loadOrder (model.markets.foldl loadMarket app) with
  | none => none
  | some app =>
    let app := (model.execs (now - oneWeek)).foldl loadExec app
    let app := model.trades.foldl loadTrade app
    some ((model.posns busDay).foldl loadPosn app)

end App

end Swirly
