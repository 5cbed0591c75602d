import Swirly.Util.TypeTraits

/-!
# Paths and queries

`Tokeniser` of `util/Tokeniser.hpp`, `split_pair` of `util/String.cpp`, `web/Page.cpp` and `web/EntitySet.cpp`: the parts
that a URL is read by.
-/

namespace Swirly

/-- The tokens that a `Tokeniser` passes over.  A delimiter at the end begins no token. -/
def tokens (delims : List UInt8) : Bytes → List Bytes
  | [] => []
  | c :: cs =>
    if c ∈ delims then [] :: tokens delims cs
    else
      match tokens delims cs with
      -- The next token goes on, unless a delimiter comes first.
      | [] => [[c]]
      | tok :: toks => (c :: tok) :: toks

/-- `split_pair`. -/
def splitPair (s : Bytes) (delim : UInt8) : Bytes × Bytes := (s.takeWhile (· ≠ delim), (s.dropWhile (· ≠ delim)).drop 1)

structure Page where
  offset : Nat
  limit : Option Nat
  deriving DecidableEq

namespace Page

def readArg (page : Page) (tok : Bytes) : Page :=
  let arg := splitPair tok 61
  if arg.1 = bytes "offset" then { page with offset := stou 64 arg.2 }
  else if arg.1 = bytes "limit" then { page with limit := some (stou 64 arg.2) }
  else page

/-- `parse_query`. -/
def parseQuery (query : Bytes) : Page := (tokens [38, 59] query).foldl readArg ⟨0, none⟩

/-- The rows of a page, as `detail::get_exec` picks them. -/
def rows {α : Type} (page : Page) (all : List α) : List α :=
  let rest := all.drop page.offset
  match page.limit with
  | some limit => rest.take limit
  | none => rest

end Page

/-- The bits of an `EntitySet`. -/
inductive Entity where
  | asset | instr | market | order | exec | trade | posn
  deriving DecidableEq

namespace Entity

def all : List Entity := [asset, instr, market, order, exec, trade, posn]

def name : Entity → Bytes
  | asset => bytes "asset"
  | instr => bytes "instr"
  | market => bytes "market"
  | order => bytes "order"
  | exec => bytes "exec"
  | trade => bytes "trade"
  | posn => bytes "posn"

end Entity

namespace EntitySet

/-- Support both plural and singular forms. -/
def singular (tok : Bytes) : Bytes := if tok.getLast? = some 115 then tok.dropLast else tok

def unknownEntity (tok : Bytes) : Exception := ⟨.notFound, s!"unknown entity '{text tok}'"⟩

def bit (tok : Bytes) : Except Exception Entity :=
  match Entity.all.find? (·.name = singular tok) with
  | some e => .ok e
  | none => .error (unknownEntity (singular tok))

/-- `EntitySet::parse`. -/
def parse (tok : Bytes) : Except Exception (List Entity) :=
  (tokens [RestBody.comma] tok).foldlM (fun es tok => (bit tok).map es.insert) []

def many (es : List Entity) : Bool := 1 < es.length

end EntitySet

end Swirly
