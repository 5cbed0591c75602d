import Swirly.Web.Request

/-!
# HTTP sessions

`swirlyd/HttpSess.cpp`, with the callbacks of `web/Parser.hpp`: what the parser of HTTP finds goes into a request, which is
handed to `RestServ` at the end of a message.  A callback that returns false ends the session.
-/

namespace Swirly

/-- What the parser of HTTP finds. -/
inductive HttpCallback where
  | messageBegin
  | url (s : Bytes)
  | headerField (s : Bytes)
  | headerValue (s : Bytes)
  | headersEnd (method : HttpMethod)
  | body (s : Bytes)
  | messageEnd
  deriving DecidableEq

inductive HeaderElem where
  | none
  | field
  | value
  deriving DecidableEq

structure HttpSess where
  lastHeaderElem : HeaderElem
  req : HttpRequest
  /-- The requests that were handed to `RestServ`. -/
  handed : List HttpRequest
  deriving DecidableEq

namespace HttpSess

def make : HttpSess := { lastHeaderElem := .none, req := .clear, handed := [] }

variable (validUrl : Bytes → Bool) (s : HttpSess)

def onHeaderField (sv : Bytes) : HttpSess :=
  { s with lastHeaderElem := .field, req := s.req.appendHeaderField sv (s.lastHeaderElem ≠ .field) }

def onHeaderValue (sv : Bytes) : HttpSess :=
  { s with lastHeaderElem := .value, req := s.req.appendHeaderValue sv (s.lastHeaderElem ≠ .value) }

def onBody (sv : Bytes) : Bool × HttpSess :=
  match s.req.appendBody sv with
  | .error _ => (false, s)
  | .ok req => (true, { s with req })

def onMessageEnd : Bool × HttpSess :=
  match s.req.flush validUrl with
  | .error _ => (false, { s with req := .clear })
  | .ok _ => (true, { s with req := .clear, handed := s.handed ++ [s.req] })

/-- What a callback returns, and what it leaves. -/
def on : HttpCallback → Bool × HttpSess
  | .messageBegin => (true, s)
  | .url sv => (true, { s with req := s.req.appendUrl sv })
  | .headerField sv => (true, s.onHeaderField sv)
  | .headerValue sv => (true, s.onHeaderValue sv)
  | .headersEnd method => (true, { s with req := s.req.setMethod method })
  | .body sv => s.onBody sv
  | .messageEnd => s.onMessageEnd validUrl

/-- The callbacks, until one of them returns false. -/
def parse : HttpSess → List HttpCallback → Bool × HttpSess
  | s, [] => (true, s)
  | s, c :: cs =>
    match s.on validUrl c with
    | (true, s) => parse s cs
    | (false, s) => (false, s)

end HttpSess

end Swirly
