import Swirly.Util.StringBuf
import Swirly.Web.RestBody

/-!
# HTTP requests

`web/Request.hpp`: a request is put together from the parts that a parser of HTTP finds.  The parser of a URL is a function
that says whether it accepts it.
-/

namespace Swirly

/-- The methods that a resource takes, and the number of another one. -/
inductive HttpMethod where
  | delete
  | get
  | post
  | put
  | other (method : Int)
  deriving DecidableEq

/-- The headers that a request keeps. -/
inductive HeaderField where
  | accnt
  | perm
  | time
  deriving DecidableEq

namespace HeaderField

def name : HeaderField → Bytes
  | accnt => bytes "Swirly-Accnt"
  | perm => bytes "Swirly-Perm"
  | time => bytes "Swirly-Time"

end HeaderField

structure HttpRequest where
  method : HttpMethod
  url : StringBuf 128
  field : StringBuf 16
  /-- Where the value of a header goes. -/
  value : Option HeaderField
  accnt : StringBuf 24
  perm : StringBuf 24
  time : StringBuf 24
  body : RestBody
  isPartial : Bool
  deriving DecidableEq

namespace HttpRequest

/-- The constructor, and `clear`. -/
def clear : HttpRequest :=
  { method := .get, url := .empty, field := .empty, value := none, accnt := .empty, perm := .empty, time := .empty,
    body := .reset, isPartial := false }

/-- A `ProtocolException`, which is a bad request. -/
def invalidUrl (url : Bytes) : Exception := ⟨.badRequest, s!"invalid url: {text url}"⟩

variable (r : HttpRequest)

/-- `flush`, which parses the URL. -/
def flush (validUrl : Bytes → Bool) : Except Exception Unit :=
  if validUrl r.url.data then .ok () else .error (invalidUrl r.url.data)

def setMethod (method : HttpMethod) : HttpRequest := { r with method }

def appendUrl (s : Bytes) : HttpRequest := { r with url := r.url.append s }

def appendHeaderField (s : Bytes) (first : Bool) : HttpRequest :=
  if first then { r with field := .assign s } else { r with field := r.field.append s }

/-- The value that a header has so far. -/
def header : HeaderField → StringBuf 24
  | .accnt => r.accnt
  | .perm => r.perm
  | .time => r.time

def selectValue : HttpRequest :=
  { r with
    value :=
      if r.field.data = HeaderField.accnt.name then some .accnt
      else if r.field.data = HeaderField.perm.name then some .perm
      else if r.field.data = HeaderField.time.name then some .time
      else none }

def appendValue (s : Bytes) : HttpRequest :=
  match r.value with
  | some .accnt => { r with accnt := r.accnt.append s }
  | some .perm => { r with perm := r.perm.append s }
  | some .time => { r with time := r.time.append s }
  | none => r

def appendHeaderValue (s : Bytes) (first : Bool) : HttpRequest :=
  if first then r.selectValue.appendValue s else r.appendValue s

def appendBody (s : Bytes) : Except Exception HttpRequest :=
  match r.body.parse s with
  | .error e => .error e
  | .ok (complete, body) => .ok { r with body, isPartial := !complete }

end HttpRequest

end Swirly
