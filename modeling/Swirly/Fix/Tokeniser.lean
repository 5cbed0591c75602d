import Swirly.Fix.Types
import Swirly.Lib.Search

/-!
# Reading the fields of a FIX message

`fix/Tokeniser.hpp`, `fix/Tokeniser.cpp`: a search for one tag, and a reader of one field after the other.  A tag is an `int`
that is not negative.
-/

namespace Swirly

/-- The sign between a tag and its value. -/
def equals : UInt8 := 61

/-- `find` of a view, from a position, for what is not empty. -/
def find (msg sub : Bytes) (pos : Nat) : Option Nat := (search sub (msg.drop pos)).map (· + pos)

/-- The digits of a tag, backwards from a position of the array, in front of what is there.  No result stands for a write
before the array. -/
def putTag : Nat → Nat → Bytes → Option (Nat × Bytes)
  | 0, _, _ => none
  | it + 1, tag, field =>
    let field := UInt8.ofNat (48 + tag % 10) :: field
    if tag / 10 > 0 then putTag it (tag / 10) field else some (it, field)

/-- The bytes from a position to the end of the field. -/
def fieldValue (msg : Bytes) (pos : Nat) : Bytes :=
  match find msg [soh] pos with
  | some stop => (msg.drop pos).take (stop - pos)
  | none => msg.drop pos

/-- `find_tag`.  The array has room for ten digits and the equals sign, and not for a separator before them. -/
def findTag (msg : Bytes) (tag : Nat) : Option (Bytes × Bool) :=
  match find msg [equals] 0 with
  | none => some ([], false)
  | some sign =>
    let pos := sign + 1
    (putTag 10 tag [equals]).bind fun (it, field) =>
      -- Compare the first field.
      if field.length ≠ pos ∨ msg.take pos ≠ field then
        -- Otherwise, search the remaining fields.
        if it = 0 then none
        else
          match find msg (soh :: field) pos with
          | none => some ([], false)
          | some pos => some (fieldValue msg (pos + (soh :: field).length), true)
      else some (fieldValue msg pos, true)

/-- The reader, with the bytes from its iterator to the end of the message. -/
structure FixTokeniser where
  msg : Bytes
  it : Bytes
  deriving DecidableEq

namespace FixTokeniser

/-- Why no field is read. -/
inductive Stop where
  | threw (e : ProtocolException)
  /-- A byte beyond the message is read. -/
  | overread
  /-- The tag is no `int`. -/
  | overflow
  deriving DecidableEq

def partialTag : Stop := .threw ⟨"partial FIX tag"⟩

def invalidTag : Stop := .threw ⟨"invalid FIX tag"⟩

def make (msg : Bytes) : FixTokeniser := { msg, it := msg }

def maxInt : Nat := 2 ^ 31 - 1

/-- The digits at the front, as a number on top of `tag`, and what follows them. -/
def tagDigits (tag : Nat) : Bytes → Except Stop (Nat × Bytes)
  | [] => .error partialTag
  | c :: rest =>
    if isDigit c then
      if tag * 10 + (c.toNat - 48) ≤ maxInt then tagDigits (tag * 10 + (c.toNat - 48)) rest else .error .overflow
    else .ok (tag, c :: rest)

/-- Verify that the first character that is no digit is the delimiter, and skip it. -/
def skipEquals (tag : Nat) : Bytes → Except Stop (Nat × Bytes)
  | [] => .error .overread
  | c :: rest => if c ≠ equals then .error invalidTag else .ok (tag, rest)

variable (t : FixTokeniser)

def isEmpty : Bool := t.it.isEmpty

def find (tag : Nat) : Option (Bytes × Bool) := findTag t.msg tag

def tag : Except Stop (Nat × FixTokeniser) := do
  let (tag, it) ← match t.it with
    | [] => .error .overread
    | c :: rest => if isDigit c then tagDigits (c.toNat - 48) rest else .ok (0, c :: rest)
  let (tag, it) ← skipEquals tag it
  return (tag, { t with it })

/-- Skip the separator, if there is one. -/
def value : Bytes × FixTokeniser := (t.it.takeWhile (· ≠ soh), { t with it := (t.it.dropWhile (· ≠ soh)).tail })

def next : Except Stop ((Nat × Bytes) × FixTokeniser) := do
  let (tag, t) ← t.tag
  let (value, t) := t.value
  return ((tag, value), t)

/-- The fields, one after the other, until there is nothing left.  There is no result after `fuel` rounds. -/
def fields : Nat → FixTokeniser → Option (Except Stop (List (Nat × Bytes)))
  | 0, _ => none
  | fuel + 1, t =>
    if t.isEmpty then some (.ok [])
    else
      match t.next with
      | .error stop => some (.error stop)
      | .ok (field, t) => (fields fuel t).map fun rest => rest.map (field :: ·)

end FixTokeniser

end Swirly
