import Swirly.Swirlyd.Routes
import Swirly.Util.Tokeniser
import Swirly.Web.Stream

/-!
# Routing

`swirlyd/RestServ.cpp`, token by token: a tokeniser goes along the path, and what is left of it decides which resource is
asked for.  What `RestApp` writes and throws for a route is a function here.  A read outside the data has no result.
-/

namespace Swirly

/-- What a call writes, and the exception that it ends with. -/
structure Served where
  writes : List HttpStream.Write
  thrown : Option Exception

namespace Served

def throws (e : Exception) : Served := { writes := [], thrown := some e }

end Served

namespace Exception

/-- `Exception::to_json`. -/
def toJson (status : Int) (reason detail : Bytes) : List HttpStream.Write :=
  [.block (bytes "\x7b\"status\":"), .block (bytes (toString status)), .block (bytes ",\"reason\":\""), .block reason,
    .block (bytes "\",\"detail\":\""), .block detail, .block (bytes "\"\x7d")]

end Exception

namespace Routing

open RestServ

/-- `asset_request` and `instr_request`. -/
def symbolRequest (get : Option Symbol → Route) (toks : Tokeniser) : Option Methods :=
  if toks.empty then some [(.get, get none)]
  else
    let symbol := toks.top
    let toks := toks.pop
    if toks.empty then some [(.get, get (some (.assign symbol)))] else none

def assetRequest : Tokeniser → Option Methods := symbolRequest .getAsset

def instrRequest : Tokeniser → Option Methods := symbolRequest .getInstr

def marketRequest (toks : Tokeniser) : Option Methods :=
  if toks.empty then some [(.get, .getMarket .all), (.post, .postMarket .all)]
  else
    let instr := toks.top
    let toks := toks.pop
    if toks.empty then some [(.get, .getMarket (.instr (.assign instr))), (.post, .postMarket (.instr instr))]
    else
      let settlDate := isoDate toks.top
      let toks := toks.pop
      if toks.empty then
        some [(.get, .getMarket (.market (.assign instr) settlDate)), (.post, .postMarket (.market instr settlDate)),
          (.put, .putMarket instr settlDate)]
      else none

def orderRequest (toks : Tokeniser) : Option Methods :=
  if toks.empty then some [(.get, .getOrder .all), (.post, .postOrder .all)]
  else
    let instr := toks.top
    let toks := toks.pop
    if toks.empty then some [(.get, .getOrder (.instr (.assign instr))), (.post, .postOrder (.instr instr))]
    else
      let settlDate := isoDate toks.top
      let toks := toks.pop
      if toks.empty then
        some [(.get, .getOrder (.market (.assign instr) settlDate)), (.post, .postOrder (.market instr settlDate))]
      else
        let ids := scopedIds toks.top
        let toks := toks.pop
        if toks.empty then
          some [(.get, .getOrder (.ids (.assign instr) settlDate ids)), (.put, .putOrder instr settlDate ids)]
        else none

def execRequest (toks : Tokeniser) : Option Methods := if toks.empty then some [(.get, .getExec)] else none

def tradeRequest (toks : Tokeniser) : Option Methods :=
  if toks.empty then some [(.get, .getTrade .all), (.post, .postTrade .all)]
  else
    let instr := toks.top
    let toks := toks.pop
    if toks.empty then some [(.get, .getTrade (.instr (.assign instr))), (.post, .postTrade (.instr instr))]
    else
      let settlDate := isoDate toks.top
      let toks := toks.pop
      if toks.empty then
        some [(.get, .getTrade (.market (.assign instr) settlDate)), (.post, .postTrade (.market instr settlDate))]
      else
        let ids := scopedIds toks.top
        let toks := toks.pop
        if toks.empty then
          some [(.get, .getTrade (.ids (.assign instr) settlDate ids)), (.delete, .deleteTrade instr settlDate ids)]
        else none

def posnRequest (toks : Tokeniser) : Option Methods :=
  if toks.empty then some [(.get, .getPosn .all)]
  else
    let instr := toks.top
    let toks := toks.pop
    if toks.empty then some [(.get, .getPosn (.instr (.assign instr)))]
    else
      let settlDate := isoDate toks.top
      let toks := toks.pop
      if toks.empty then some [(.get, .getPosn (.market (.assign instr) settlDate))] else none

def refDataRequest (toks : Tokeniser) : Except Exception (Option Methods) :=
  if toks.empty then .ok (some [(.get, .getRefData [.asset, .instr])])
  else
    let tok := toks.top
    let toks := toks.pop
    match EntitySet.parse tok with
    | .error e => .error e
    | .ok es =>
      if EntitySet.many es then .ok (if toks.empty then some [(.get, .getRefData es)] else none)
      else
        match es with
        | [.asset] => .ok (assetRequest toks)
        | [.instr] => .ok (instrRequest toks)
        | _ => .ok none

def sessRequest (toks : Tokeniser) : Except Exception (Option Methods) :=
  if toks.empty then .ok (some [(.get, .getSess [.market, .order, .exec, .trade, .posn])])
  else
    let tok := toks.top
    let toks := toks.pop
    match EntitySet.parse tok with
    | .error e => .error e
    | .ok es =>
      if EntitySet.many es then .ok (if toks.empty then some [(.get, .getSess es)] else none)
      else
        match es with
        | [.market] => .ok (marketRequest toks)
        | [.order] => .ok (orderRequest toks)
        | [.exec] => .ok (execRequest toks)
        | [.trade] => .ok (tradeRequest toks)
        | [.posn] => .ok (posnRequest toks)
        | _ => .ok none

def restRequest (toks : Tokeniser) : Except Exception (Option Methods) :=
  if toks.empty then .ok none
  else
    let tok := toks.top
    let toks := toks.pop
    if tok ≠ bytes "api" then .ok none
    else
      -- Nothing may be left, and then this token is empty.
      let tok := toks.top
      let toks := toks.pop
      if tok = bytes "refdata" then refDataRequest toks
      else if tok = bytes "sess" then sessRequest toks
      -- Support both plural and singular forms.
      else if EntitySet.singular tok = bytes "market" then .ok (marketRequest toks)
      else .ok none

variable (env : Env) (call : Route → Served) (idsFirst : Bool)

/-- `reset`: whether to cache, and the tokens of the path.  The front of an empty path is outside of it. -/
def reset (r : HttpRequest) : Option (Bool × Tokeniser) :=
  (env.path r.url.data).head?.map fun front =>
    -- Remove leading slash.
    let path := if front = 47 then (env.path r.url.data).drop 1 else env.path r.url.data
    let toks := .make path [47]
    (decide (r.method = .get ∧ path ≠ [] ∧ toks.top = bytes "refdata"), toks)

/-- The ids of which the first one is an argument. -/
def indexed : Route → Option (List Int)
  | .getOrder (.ids _ _ ids) | .getTrade (.ids _ _ ids) => some ids
  | _ => none

/-- The call for a route.  The arguments are evaluated in any order: the first id is read before the trader is known to be
one, or after it. -/
def perform (r : HttpRequest) (route : Route) : Option Served :=
  match indexed route with
  | none => some (call route)
  | some ids =>
    match idsFirst, getTrader r with
    | false, .error e => some (.throws e)
    | _, _ => ids.head?.map fun _ => call route

/-- The request is handled up to its last exception. -/
def serve (r : HttpRequest) (toks : Tokeniser) : Option Served :=
  if r.isPartial then some (.throws incompleteBody)
  else
    match restRequest toks with
    | .error e => some (.throws e)
    | .ok none => some (.throws (pathNotFound (env.path r.url.data)))
    | .ok (some methods) =>
      match methods.lookup r.method with
      | none => some (.throws (methodNotAllowed (env.method r.method)))
      | some route => perform call idsFirst r route

/-- The response that is begun first. -/
def begun (r : HttpRequest) (cache : Bool) (writes : List HttpStream.Write) : HttpStream.Attempt :=
  if r.method ≠ .delete then { status := .ok, reason := HttpStatus.ok.reason, cache, writes }
  else { status := .noContent, reason := HttpStatus.noContent.reason, cache := false, writes }

/-- The response that answers an exception. -/
def failed (e : Exception) : HttpStream.Attempt :=
  let status := HttpStatus.ofKind e.kind
  { status, reason := status.reason, cache := false, writes := Exception.toJson status.code status.reason (bytes e.what) }

/-- The responses that are begun. -/
def attempts (r : HttpRequest) (cache : Bool) (served : Served) : List HttpStream.Attempt :=
  begun r cache served.writes :: (served.thrown.map failed).toList

def handleRequest (r : HttpRequest) (os : HttpStream) : Option HttpStream :=
  (reset env r).bind fun (cache, toks) =>
    (serve env call idsFirst r toks).bind fun served => os.compose (attempts r cache served)

end Routing

end Swirly
