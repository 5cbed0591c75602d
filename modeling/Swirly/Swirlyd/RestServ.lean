import Swirly.Lob.Op
import Swirly.Web.RestBody

/-!
# New orders

The body of a request, which `append_body` of `web/Request.hpp` takes in parts and `RestServ::handle_request` of
`swirlyd/RestServ.cpp` checks, `RestServ::order_request` for a `POST`, once the account is known to be a trader, and
`RestApp::post_order` of `web/RestApp.cpp`.  The instruments are a map from symbols to ids.
-/

namespace Swirly

/-- The paths that take a `POST`, by what follows `/api/sess/order`. -/
inductive OrderPath where
  | all
  | instr (instr : Bytes)
  | market (instr : Bytes) (settlDate : Int)
  deriving DecidableEq

namespace OrderPath

/-- `ReqFields`. -/
def required : OrderPath → List Field
  | all => [.instr, .settlDate, .side, .lots, .ticks]
  | instr _ => [.settlDate, .side, .lots, .ticks]
  | market _ _ => [.side, .lots, .ticks]

/-- `OptFields`. -/
def optional : List Field := [.ref, .minLots]

/-- The instrument and the settlement date, from the path or else from the body. -/
def terms (body : RestBody) : OrderPath → Symbol × Int
  | all => (body.getInstr, body.settlDate)
  | instr symbol => (.assign symbol, body.settlDate)
  | market symbol settlDate => (.assign symbol, settlDate)

end OrderPath

namespace RestServ

def instrNotFound (symbol : Symbol) : Exception := ⟨.marketNotFound, s!"instrument '{symbol.display}' does not exist"⟩

def invalidFields : Exception := ⟨.invalid, "request fields are invalid"⟩

def incompleteBody : Exception := ⟨.badRequest, "request body is incomplete"⟩

/-- `append_body`, for each part: the body, and whether more of it is to come. -/
def appendBody : List Bytes → Bool → RestBody → Except Exception (Bool × RestBody)
  | [], isPartial, body => .ok (isPartial, body)
  | buf :: bufs, _, body =>
    match body.parse buf with
    | .error e => .error e
    | .ok (complete, body) => appendBody bufs (!complete) body

/-- The body of a request, or the exception. -/
def readBody (bufs : List Bytes) : Except Exception RestBody :=
  match appendBody bufs false .reset with
  | .error e => .error e
  | .ok (isPartial, body) => if isPartial then .error incompleteBody else .ok body

variable (instrs : Symbol → Option Int)

/-- `post_order`. -/
def postOrder (app : App) (accnt : Symbol) (instr : Symbol) (settlDate : Int) (ref : Bytes) (side : Side) (lots : Int)
    (ticks : Int) (minLots : Int) (now : Int) (busDay : Int) : Outcome Reply :=
  match instrs instr with
  | none => .throw (instrNotFound instr) (app.ensureSess accnt)
  | some id =>
    app.call (.createOrder accnt (toMarketId id (maybeIsoToJd settlDate)) ref side lots ticks minLots now busDay)

/-- `order_request`.  A required side is a side. -/
def orderRequest (app : App) (accnt : Bytes) (path : OrderPath) (body : RestBody) (now : Int) (busDay : Int) :
    Outcome Reply :=
  if body.valid path.required OrderPath.optional then
    match body.side with
    | some side =>
      postOrder instrs app (.assign accnt) (path.terms body).1 (path.terms body).2 body.ref side body.lots body.ticks
        body.minLots now busDay
    | none => .fault
  else .throw invalidFields app

end RestServ

end Swirly
