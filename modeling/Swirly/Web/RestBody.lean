import Swirly.Fin.Exception

/-!
# Request bodies

`web/RestBody.rl` and `web/RestBody.hpp`: an incremental parser of one flat JSON object with the members below.  The
machine takes a byte at a time.  An action that the grammar runs on leaving a value (`%`) runs on the byte after it, and
the error state of the machine is absorbing.
-/

namespace Swirly

/-- The members of a body, one bit of `fields_` each. -/
inductive Field where
  | symbol | accnt | instr | settlDate | ref | state | side | lots | ticks | minLots | liqInd | cpty
  deriving DecidableEq

namespace Field

def all : List Field := [symbol, accnt, instr, settlDate, ref, state, side, lots, ticks, minLots, liqInd, cpty]

/-- The name of the member.  The grammar ignores the case of its letters. -/
def name : Field → Bytes
  | symbol => bytes "symbol"
  | accnt => bytes "accnt"
  | instr => bytes "instr"
  | settlDate => bytes "settl_date"
  | ref => bytes "ref"
  | state => bytes "state"
  | side => bytes "side"
  | lots => bytes "lots"
  | ticks => bytes "ticks"
  | minLots => bytes "min_lots"
  | liqInd => bytes "liq_ind"
  | cpty => bytes "cpty"

/-- What the value of a member may be, apart from `null`. -/
inductive Value where
  | str (max : Nat)
  | num
  | words (all : List Bytes)

def value : Field → Value
  | symbol | accnt | instr | cpty => .str maxSymbol
  | ref => .str maxRef
  | settlDate | state | lots | ticks | minLots => .num
  | side => .words [bytes "buy", bytes "sell"]
  | liqInd => .words [bytes "maker", bytes "taker"]

/-- Only the side has no `null`. -/
def nullable (f : Field) : Bool := f ≠ side

end Field

/-- The states of the machine. -/
inductive Cs where
  | start
  /-- In the object, before the first member. -/
  | object
  /-- Before the next member. -/
  | comma
  /-- In the name of a member; `typed` is in lower case. -/
  | name (typed : Bytes)
  | colon (f : Field)
  | value (f : Field)
  | null (f : Field) (typed : Bytes)
  | nullEnd (f : Field)
  | word (f : Field) (typed : Bytes)
  | wordEnd (f : Field) (word : Bytes)
  | str (f : Field)
  | escape (f : Field)
  | strEnd (f : Field)
  | reqDigit (f : Field)
  | optDigit (f : Field)
  /-- After a member. -/
  | members
  | final
  | error (msg : String)
  deriving DecidableEq

structure RestBody where
  cs : Cs
  sign : Int
  digits : Nat
  fields : List Field
  symbol : Bytes
  accnt : Bytes
  instr : Bytes
  settlDate : Int
  ref : Bytes
  state : Int
  /-- `None` for the value zero, which is no side. -/
  side : Option Side
  lots : Int
  ticks : Int
  minLots : Int
  liqInd : LiqInd
  cpty : Bytes
  deriving DecidableEq

namespace RestBody

/-- The constructor, and `reset`. -/
def reset : RestBody :=
  { cs := .start, sign := 0, digits := 0, fields := [], symbol := [], accnt := [], instr := [], settlDate := 0, ref := [],
    state := 0, side := none, lots := 0, ticks := 0, minLots := 0, liqInd := .none, cpty := [] }

/-! ## Accessors

A `Symbol` is made of all the bytes of the text, and its own text ends at the first NUL. -/

def getSymbol (b : RestBody) : Symbol := .assign b.symbol

def getAccnt (b : RestBody) : Symbol := .assign b.accnt

def getInstr (b : RestBody) : Symbol := .assign b.instr

def getCpty (b : RestBody) : Symbol := .assign b.cpty

/-- `valid`: all the required fields are there, and no others but the optional ones. -/
def valid (b : RestBody) (required optional : List Field) : Bool :=
  required.all (· ∈ b.fields) && b.fields.all (· ∈ required ++ optional)

/-! ## Fields -/

def setField (b : RestBody) (f : Field) : RestBody := { b with fields := b.fields.insert f }

def clearField (b : RestBody) (f : Field) : RestBody := { b with fields := b.fields.filter (· ≠ f) }

/-- The text that `str_` points at while the machine reads a string. -/
def text (b : RestBody) : Field → Bytes
  | .symbol => b.symbol
  | .accnt => b.accnt
  | .instr => b.instr
  | .ref => b.ref
  | .cpty => b.cpty
  | .settlDate | .state | .side | .lots | .ticks | .minLots | .liqInd => []

def setText (b : RestBody) (s : Bytes) : Field → RestBody
  | .symbol => { b with symbol := s }
  | .accnt => { b with accnt := s }
  | .instr => { b with instr := s }
  | .ref => { b with ref := s }
  | .cpty => { b with cpty := s }
  | .settlDate | .state | .side | .lots | .ticks | .minLots | .liqInd => b

def fail (b : RestBody) (msg : String) : RestBody := { b with cs := .error msg }

/-! ## Actions -/

/-- `num`: the product is one of unsigned 64-bit numbers, read as a signed one. -/
def num (b : RestBody) : Int := (b.sign * b.digits).bmod (2 ^ 64)

def beginNum (b : RestBody) : RestBody := { b with sign := 1, digits := 0 }

def negate (b : RestBody) : RestBody := { b with sign := -1 }

def addDigit (b : RestBody) (c : UInt8) : RestBody := { b with digits := (b.digits * 10 + (c.toNat - 48)) % 2 ^ 64 }

/-- `addChar`, in the string of at most `max` characters that is read for `f`. -/
def addChar (b : RestBody) (f : Field) (max : Nat) (c : UInt8) : RestBody :=
  if (b.text f).length < max then { b.setText (b.text f ++ [c]) f with cs := .str f } else b.fail "max length exceeded"

def null (b : RestBody) (f : Field) : RestBody :=
  let b := b.clearField f
  match f with
  | .symbol | .accnt | .instr | .ref | .cpty => b.setText [] f
  | .settlDate => { b with settlDate := 0 }
  | .state => { b with state := 0 }
  | .ticks => { b with ticks := 0 }
  | .lots => { b with lots := 0 }
  | .minLots => { b with minLots := 0 }
  | .liqInd => { b with liqInd := .none }
  | .side => b

/-- A date has 32 bits, and so has a state, which has no sign. -/
def endNum (b : RestBody) (f : Field) : RestBody :=
  match f with
  | .settlDate => { b.setField f with settlDate := b.num.bmod (2 ^ 32) }
  | .state => if 0 ≤ b.sign then { b.setField f with state := b.num % 2 ^ 32 } else b.fail "negative state field"
  | .ticks => { b.setField f with ticks := b.num }
  | .lots => { b.setField f with lots := b.num }
  | .minLots => { b.setField f with minLots := b.num }
  | .symbol | .accnt | .instr | .ref | .side | .liqInd | .cpty => b

def endWord (b : RestBody) (f : Field) (word : Bytes) : RestBody :=
  match f with
  | .side => { b.setField f with side := if word = bytes "buy" then some .buy else some .sell }
  | .liqInd => { b.setField f with liqInd := if word = bytes "maker" then .maker else .taker }
  | _ => b

/-! ## The machine -/

def isSpace (c : UInt8) : Bool := c = 32 || (9 ≤ c && c ≤ 13)

def isDigit (c : UInt8) : Bool := 48 ≤ c && c ≤ 57

def toLower (c : UInt8) : UInt8 := if 65 ≤ c && c ≤ 90 then c + 32 else c

def quote : UInt8 := 34
def comma : UInt8 := 44
def colon : UInt8 := 58
def backslash : UInt8 := 92
def openBrace : UInt8 := 123
def closeBrace : UInt8 := 125

/-- The bytes that may follow a value. -/
def isEnd (c : UInt8) : Bool := isSpace c || c = comma || c = closeBrace

def parseError (b : RestBody) : RestBody := b.fail "parse error"

/-- The transition after a value, once its leaving action has run. -/
def afterValue (b : RestBody) (c : UInt8) : RestBody :=
  match b.cs with
  | .error _ => b
  | _ =>
    if isSpace c then { b with cs := .members }
    else if c = comma then { b with cs := .comma }
    else if c = closeBrace then { b with cs := .final }
    else b.parseError

/-- The first byte of a value. -/
def beginValue (b : RestBody) (f : Field) (c : UInt8) : RestBody :=
  if f.nullable && c = 110 then { b with cs := .null f [c] }
  else
    match f.value with
    | .str _ => if c = quote then { b.setText [] f with cs := .str f } else b.parseError
    | .words _ => if c = quote then { b with cs := .word f [] } else b.parseError
    | .num =>
      if c = 45 then { b.beginNum.negate with cs := .reqDigit f }
      else if c = 43 then { b.beginNum with cs := .reqDigit f }
      else if isDigit c then { b.beginNum.addDigit c with cs := .optDigit f }
      else b.parseError

def stepName (b : RestBody) (typed : Bytes) (c : UInt8) : RestBody :=
  if c = quote then
    match Field.all.find? (·.name = typed) with
    | some f => { b with cs := .colon f }
    | none => b.parseError
  else
    let typed := typed ++ [toLower c]
    if Field.all.any (typed.isPrefixOf ·.name) then { b with cs := .name typed } else b.parseError

def stepWord (b : RestBody) (f : Field) (words : List Bytes) (typed : Bytes) (c : UInt8) : RestBody :=
  if c = quote then if typed ∈ words then { b with cs := .wordEnd f typed } else b.parseError
  else
    let typed := typed ++ [toLower c]
    if words.any (typed.isPrefixOf ·) then { b with cs := .word f typed } else b.parseError

def stepNull (b : RestBody) (f : Field) (typed : Bytes) (c : UInt8) : RestBody :=
  let typed := typed ++ [c]
  if typed = bytes "null" then { b with cs := .nullEnd f }
  else if typed.isPrefixOf (bytes "null") then { b with cs := .null f typed }
  else b.parseError

def step (b : RestBody) (c : UInt8) : RestBody :=
  match b.cs with
  | .start => if isSpace c then b else if c = openBrace then { b with cs := .object } else b.parseError
  | .object =>
    if isSpace c then b
    else if c = quote then { b with cs := .name [] }
    else if c = closeBrace then { b with cs := .final }
    else b.parseError
  | .comma => if isSpace c then b else if c = quote then { b with cs := .name [] } else b.parseError
  | .name typed => b.stepName typed c
  | .colon f => if isSpace c then b else if c = colon then { b with cs := .value f } else b.parseError
  | .value f => if isSpace c then b else b.beginValue f c
  | .null f typed => b.stepNull f typed c
  | .nullEnd f => if isEnd c then (b.null f).afterValue c else b.parseError
  | .word f typed =>
    match f.value with
    | .words words => b.stepWord f words typed c
    | .str _ | .num => b.parseError
  | .wordEnd f word => if isEnd c then (b.endWord f word).afterValue c else b.parseError
  | .str f =>
    match f.value with
    | .str max =>
      if c = quote then { b with cs := .strEnd f }
      else if c = backslash then { b with cs := .escape f }
      else b.addChar f max c
    | .words _ | .num => b.parseError
  | .escape f =>
    match f.value with
    | .str max => b.addChar f max c
    | .words _ | .num => b.parseError
  | .strEnd f => if isEnd c then (b.setField f).afterValue c else b.parseError
  | .reqDigit f => if isDigit c then { b.addDigit c with cs := .optDigit f } else b.parseError
  | .optDigit f =>
    if isDigit c then b.addDigit c
    else if isEnd c then (b.endNum f).afterValue c
    else b.parseError
  | .members => b.afterValue c
  | .final => if isSpace c then b else b.parseError
  | .error _ => b

/-- `parse`: whether the body is complete, or `BadRequestException`. -/
def parse (b : RestBody) (buf : Bytes) : Except Exception (Bool × RestBody) :=
  match b.cs with
  | .error _ => .error ⟨.badRequest, "parse error"⟩
  | _ =>
    let b := buf.foldl step b
    match b.cs with
    | .error msg => .error ⟨.badRequest, msg⟩
    | .final => .ok (true, b)
    | _ => .ok (false, b)

end RestBody

end Swirly
