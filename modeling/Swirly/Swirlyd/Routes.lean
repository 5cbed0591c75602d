import Swirly.Web.Request
import Swirly.Web.RestApp

/-!
# Resources

`swirlyd/RestServ.cpp`: the resource that a path names, the permission and the fields that a request for it needs, and
the call of `RestApp` that serves it.
-/

namespace Swirly

/-- What a path and a method ask for. -/
inductive Route where
  | getRefData (es : List Entity)
  | getAsset (symbol : Option Symbol)
  | getInstr (symbol : Option Symbol)
  | getMarket (scope : Scope)
  | getSess (es : List Entity)
  | getOrder (scope : Scope)
  | getExec
  | getTrade (scope : Scope)
  | getPosn (scope : Scope)
  | postMarket (path : OrderPath)
  | putMarket (instr : Bytes) (settlDate : Int)
  | postOrder (path : OrderPath)
  | putOrder (instr : Bytes) (settlDate : Int) (ids : List Int)
  | postTrade (path : OrderPath)
  | deleteTrade (instr : Bytes) (settlDate : Int) (ids : List Int)
  deriving DecidableEq

namespace OrderPath

/-- The fields that a trade needs, and those that it may have. -/
def tradeRequired : OrderPath → List Field
  | all => [.instr, .settlDate, .accnt, .side, .lots]
  | instr _ => [.settlDate, .accnt, .side, .lots]
  | market _ _ => [.accnt, .side, .lots]

def tradeOptional : List Field := [.ref, .ticks, .liqInd, .cpty]

/-- The same for a market. -/
def marketRequired : OrderPath → List Field
  | all => [.instr, .settlDate]
  | instr _ => [.settlDate]
  | market _ _ => []

def marketOptional : List Field := [.state]

end OrderPath

/-- What the server knows from elsewhere: the reference data, where the path and the query are in a URL, the names of the
methods, and the business days. -/
structure Env where
  instrs : RefData
  path : Bytes → Bytes
  query : Bytes → Bytes
  method : HttpMethod → String
  busDay : Int → Int

namespace RestServ

/-! ## Headers -/

def accntNotSpecified : Exception := ⟨.unauthorized, "user account not specified"⟩

def notAdmin : Exception := ⟨.forbidden, "user account does not have admin permission "⟩

def notTrader : Exception := ⟨.forbidden, "user account does not have trade permission "⟩

def getAccnt (r : HttpRequest) : Except Exception Bytes :=
  if r.accnt.isEmpty then .error accntNotSpecified else .ok r.accnt.data

def getPerm (r : HttpRequest) : Nat := stou 32 r.perm.data

/-- The account of a request that has the permission of a bit. -/
def getPermitted (bit : Nat) (missing : Exception) (r : HttpRequest) : Except Exception Bytes :=
  match getAccnt r with
  | .error e => .error e
  | .ok accnt => if (getPerm r).testBit bit then .ok accnt else .error missing

def getAdmin (r : HttpRequest) : Except Exception Bytes := getPermitted 0 notAdmin r

def getTrader (r : HttpRequest) : Except Exception Bytes := getPermitted 1 notTrader r

/-- The header counts milliseconds. -/
def getTime (clock : Int) (r : HttpRequest) : Int :=
  if r.time.isEmpty then clock else (stou 64 r.time.data : Int).bmod (2 ^ 64) * 1000000

/-! ## Paths -/

/-- An `IsoDate` has 32 bits. -/
def isoDate (tok : Bytes) : Int := (stou 64 tok : Int).bmod (2 ^ 32)

/-- `ScopedIds`. -/
def scopedIds (tok : Bytes) : List Int := (tokens [RestBody.comma] tok).map fun tok => (stou 64 tok : Int).bmod (2 ^ 64)

/-- The methods of a resource. -/
abbrev Methods := List (HttpMethod × Route)

def marketRequest : List Bytes → Option Methods
  | [] => some [(.get, .getMarket .all), (.post, .postMarket .all)]
  | [instr] => some [(.get, .getMarket (.instr (.assign instr))), (.post, .postMarket (.instr instr))]
  | [instr, date] =>
    some [(.get, .getMarket (.market (.assign instr) (isoDate date))), (.post, .postMarket (.market instr (isoDate date))),
      (.put, .putMarket instr (isoDate date))]
  | _ => none

/-- What follows `/api/sess/order`. -/
def orderPaths : List Bytes → Option Methods
  | [] => some [(.get, .getOrder .all), (.post, .postOrder .all)]
  | [instr] => some [(.get, .getOrder (.instr (.assign instr))), (.post, .postOrder (.instr instr))]
  | [instr, date] =>
    some [(.get, .getOrder (.market (.assign instr) (isoDate date))), (.post, .postOrder (.market instr (isoDate date)))]
  | [instr, date, ids] =>
    some [(.get, .getOrder (.ids (.assign instr) (isoDate date) (scopedIds ids))),
      (.put, .putOrder instr (isoDate date) (scopedIds ids))]
  | _ => none

def execRequest : List Bytes → Option Methods
  | [] => some [(.get, .getExec)]
  | _ => none

def tradeRequest : List Bytes → Option Methods
  | [] => some [(.get, .getTrade .all), (.post, .postTrade .all)]
  | [instr] => some [(.get, .getTrade (.instr (.assign instr))), (.post, .postTrade (.instr instr))]
  | [instr, date] =>
    some [(.get, .getTrade (.market (.assign instr) (isoDate date))), (.post, .postTrade (.market instr (isoDate date)))]
  | [instr, date, ids] =>
    some [(.get, .getTrade (.ids (.assign instr) (isoDate date) (scopedIds ids))),
      (.delete, .deleteTrade instr (isoDate date) (scopedIds ids))]
  | _ => none

def posnRequest : List Bytes → Option Methods
  | [] => some [(.get, .getPosn .all)]
  | [instr] => some [(.get, .getPosn (.instr (.assign instr)))]
  | [instr, date] => some [(.get, .getPosn (.market (.assign instr) (isoDate date)))]
  | _ => none

/-- What follows `/api/refdata/asset` and `/api/refdata/instr`. -/
def symbolRequest (get : Option Symbol → Route) : List Bytes → Option Methods
  | [] => some [(.get, get none)]
  | [symbol] => some [(.get, get (some (.assign symbol)))]
  | _ => none

def assetRequest : List Bytes → Option Methods := symbolRequest .getAsset

def instrRequest : List Bytes → Option Methods := symbolRequest .getInstr

def refDataRequest : List Bytes → Except Exception (Option Methods)
  | [] => .ok (some [(.get, .getRefData [.asset, .instr])])
  | tok :: path =>
    match EntitySet.parse tok with
    | .error e => .error e
    | .ok es =>
      if EntitySet.many es then .ok (if path = [] then some [(.get, .getRefData es)] else none)
      else
        match es with
        | [.asset] => .ok (assetRequest path)
        | [.instr] => .ok (instrRequest path)
        | _ => .ok none

def sessRequest : List Bytes → Except Exception (Option Methods)
  | [] => .ok (some [(.get, .getSess [.market, .order, .exec, .trade, .posn])])
  | tok :: path =>
    match EntitySet.parse tok with
    | .error e => .error e
    | .ok es =>
      if EntitySet.many es then .ok (if path = [] then some [(.get, .getSess es)] else none)
      else
        match es with
        | [.market] => .ok (marketRequest path)
        | [.order] => .ok (orderPaths path)
        | [.exec] => .ok (execRequest path)
        | [.trade] => .ok (tradeRequest path)
        | [.posn] => .ok (posnRequest path)
        | _ => .ok none

def restRequest : List Bytes → Except Exception (Option Methods)
  | api :: tok :: path =>
    if api ≠ bytes "api" then .ok none
    else if tok = bytes "refdata" then refDataRequest path
    else if tok = bytes "sess" then sessRequest path
    -- Support both plural and singular forms.
    else if EntitySet.singular tok = bytes "market" then .ok (marketRequest path)
    else .ok none
  | _ => .ok none

def pathNotFound (path : Bytes) : Exception := ⟨.notFound, s!"resource '{text path}' does not exist"⟩

def methodNotAllowed (name : String) : Exception := ⟨.methodNotAllowed, s!"method '{name}' is not allowed"⟩

variable (env : Env) (app : App)

/-- `reset` removes a leading slash. -/
def route (r : HttpRequest) : Except Exception Route :=
  let path := env.path r.url.data
  match restRequest (tokens [47] (if path.head? = some 47 then path.drop 1 else path)) with
  | .error e => .error e
  | .ok none => .error (pathNotFound path)
  | .ok (some methods) =>
    match methods.lookup r.method with
    | none => .error (methodNotAllowed (env.method r.method))
    | some route => .ok route

/-! ## Serving -/

def withAccnt (accnt : Except Exception Bytes) (serve : Bytes → Outcome Shown) : Outcome Shown :=
  match accnt with
  | .error e => .throw e app
  | .ok accnt => serve accnt

def withFields (body : RestBody) (required optional : List Field) (serve : Outcome Shown) : Outcome Shown :=
  if body.valid required optional then serve else .throw invalidFields app

/-- The account of a trade is in the body.  A required side is a side. -/
def postTrade (path : OrderPath) (body : RestBody) (now : Int) : Outcome Shown :=
  match body.side with
  | none => .fault
  | some side =>
    RestApp.postTrade env.instrs app body.getAccnt (path.terms body).1 (path.terms body).2 body.ref side body.lots
      body.ticks body.liqInd body.getCpty now

def serve (r : HttpRequest) (now : Int) : Route → Outcome Shown
  | .getRefData es => RestApp.getRefData app es
  | .getAsset symbol => RestApp.getAsset env.instrs app symbol
  | .getInstr symbol => RestApp.getInstr env.instrs app symbol
  | .getMarket scope => (RestApp.selectMarkets env.instrs app scope).map fun markets => { Shown.nothing with markets }
  | .getSess es =>
    withAccnt app (getTrader r) fun accnt => RestApp.getSess app (.assign accnt) es (.parseQuery (env.query r.url.data))
  | .getOrder scope => withAccnt app (getTrader r) fun accnt => RestApp.getOrder env.instrs app (.assign accnt) scope
  | .getExec =>
    withAccnt app (getTrader r) fun accnt => RestApp.getExec app (.assign accnt) (.parseQuery (env.query r.url.data))
  | .getTrade scope => withAccnt app (getTrader r) fun accnt => RestApp.getTrade env.instrs app (.assign accnt) scope
  | .getPosn scope => withAccnt app (getTrader r) fun accnt => RestApp.getPosn env.instrs app (.assign accnt) scope
  | .postMarket path =>
    withAccnt app (getAdmin r) fun _ =>
      withFields app r.body path.marketRequired OrderPath.marketOptional
        (RestApp.postMarket env.instrs app (path.terms r.body).1 (path.terms r.body).2 r.body.state.toNat (env.busDay now))
  | .putMarket instr settlDate =>
    withAccnt app (getAdmin r) fun _ =>
      withFields app r.body [.state] [] (RestApp.putMarket env.instrs app (.assign instr) settlDate r.body.state.toNat)
  | .postOrder path =>
    withAccnt app (getTrader r) fun accnt =>
      RestApp.print (orderRequest env.instrs.find app accnt path r.body now (env.busDay now))
  | .putOrder instr settlDate ids =>
    withAccnt app (getTrader r) fun accnt =>
      withFields app r.body [.lots] []
        (RestApp.putOrder env.instrs app (.assign accnt) (.assign instr) settlDate ids r.body.lots now)
  | .postTrade path =>
    withAccnt app (getAdmin r) fun _ =>
      withFields app r.body path.tradeRequired OrderPath.tradeOptional (postTrade env app path r.body now)
  | .deleteTrade instr settlDate ids =>
    withAccnt app (getTrader r) fun accnt =>
      RestApp.deleteTrade env.instrs app (.assign accnt) (.assign instr) settlDate ids now

/-- `handle_request`, at the time of the clock. -/
def handleRequest (clock : Int) (r : HttpRequest) : Outcome Shown :=
  if r.isPartial then .throw incompleteBody app
  else
    match route env r with
    | .error e => .throw e app
    | .ok route => serve env app r (getTime clock r) route

end RestServ

/-- What happens in the server: it handles a request, or its journal thread takes a message. -/
inductive Event where
  | request (clock : Int) (r : HttpRequest)
  | pop
  deriving DecidableEq

namespace Event

/-- The state of the engine after an event. -/
def step (env : Env) (app : App) : Event → Option App
  | request clock r => (RestServ.handleRequest env app clock r).state
  | pop => app.step .pop

end Event

end Swirly
