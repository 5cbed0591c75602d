import Swirly.Fix.Types
import Swirly.Sys.Buffer

/-!
# The parser of the FIX transport

`fix/Parser.hpp`, with sizes of 64 bits.  The parser is given the unread bytes of a stream, and says how many of them it has
done with.
-/

namespace Swirly

/-- A call of `on_message`. -/
structure FixMessage where
  ver : FixVersion
  body : StringView
  deriving DecidableEq

structure FixParser where
  offset : Nat
  bodyLen : Nat
  deriving DecidableEq

namespace FixParser

/-- The size of `8=FIX.x.y^9=`. -/
def bodyLenStart : Nat := 12

/-- The size of `10=000^`. -/
def checkSumLen : Nat := 7

def make : FixParser := { offset := 0, bodyLen := 0 }

def invalidBodyLength : ProtocolException := ⟨"invalid FIX body length"⟩

/-- The digits at the front, as a number on top of `n`, and what follows them. -/
def digits (n : Nat) : Bytes → Nat × Bytes
  | [] => (n, [])
  | c :: rest => if isDigit c then digits (sizeT (sizeT (n * 10) + (c.toNat - 48))) rest else (n, c :: rest)

/-- The offset of the body and its length, if the header is complete. -/
def parseBodyLen (buf : Bytes) : Except ProtocolException (Option FixParser) :=
  if buf.length ≤ bodyLenStart then .ok none
  else
    match digits 0 (buf.drop bodyLenStart) with
    | (_, []) => .ok none
    | (bodyLen, c :: rest) =>
      if c ≠ soh then .error invalidBodyLength
      else .ok (some { offset := buf.length - rest.length, bodyLen })

/-- How a call of `parse` ends. -/
inductive Result where
  | returned (sum : Nat)
  | threw (e : ProtocolException)
  /-- A byte beyond the buffer is read. -/
  | overread
  deriving DecidableEq

/-- What a call of `parse` leaves. -/
structure Parsed where
  parser : FixParser
  calls : List FixMessage
  result : Result
  deriving DecidableEq

/-- The size of the message that the parser is in. -/
def len (p : FixParser) : Nat := sizeT (sizeT (p.offset + p.bodyLen) + checkSumLen)

/-- The loop of `parse`, whose body is entered with a body length.  It has no result after `fuel` rounds. -/
def loop : Nat → FixParser → Bytes → Nat → List FixMessage → Option Parsed
  | 0, _, _, _, _ => none
  | fuel + 1, p, buf, sum, calls =>
    if buf.length < p.len then some { parser := p, calls, result := .returned sum }
    else
      match buf[6]?, buf[8]? with
      | some major, some minor =>
        let ver := { major := charValue major - 48, minor := charValue minor - 48 }
        let calls := calls ++ [{ ver, body := { base := buf, offset := p.offset, size := p.bodyLen } }]
        -- Skip to the next message.
        let buf := advance buf p.len
        -- The sum is at most the size of the whole buffer.
        let sum := sum + p.len
        match parseBodyLen buf with
        | .error e => some { parser := make, calls, result := .threw e }
        | .ok none => some { parser := make, calls, result := .returned sum }
        | .ok (some next) => loop fuel next buf sum calls
      | _, _ => some { parser := p, calls, result := .overread }

/-- No result stands for a call that has not ended after `fuel` rounds of the loop. -/
def parse (fuel : Nat) (p : FixParser) (buf : Bytes) : Option Parsed :=
  if p.offset = 0 then
    match parseBodyLen buf with
    | .error e => some { parser := p, calls := [], result := .threw e }
    | .ok none => some { parser := p, calls := [], result := .returned 0 }
    | .ok (some p) => loop fuel p buf 0 []
  else loop fuel p buf 0 []

end FixParser

end Swirly
