import Swirly.Web.RestBody

/-!
# Text to integer

`stoi` and `stou` of `util/String.cpp` and the traits of `util/TypeTraits.hpp` and `util/IntWrapper.hpp`, with the arithmetic
of C++: values narrower than an `int` are computed as an `int` and converted back, unsigned ones wrap, and a signed result that
does not fit is undefined.
-/

namespace Swirly

inductive IntType where
  | int16 | int32 | int64 | uint16 | uint32 | uint64
  deriving DecidableEq

namespace IntType

def min : IntType → Int
  | int16 => -2 ^ 15
  | int32 => -2 ^ 31
  | int64 => -2 ^ 63
  | uint16 | uint32 | uint64 => 0

def max : IntType → Int
  | int16 => 2 ^ 15 - 1
  | int32 => 2 ^ 31 - 1
  | int64 => 2 ^ 63 - 1
  | uint16 => 2 ^ 16 - 1
  | uint32 => 2 ^ 32 - 1
  | uint64 => 2 ^ 64 - 1

/-- The numbers that are values of the type. -/
def Holds (t : IntType) (n : Int) : Prop := t.min ≤ n ∧ n ≤ t.max

instance (t : IntType) (n : Int) : Decidable (t.Holds n) := inferInstanceAs (Decidable (_ ∧ _))

/-- Store the result of a computation.  No result stands for undefined behaviour. -/
def store (t : IntType) (n : Int) : Option Int :=
  match t with
  | int16 => if int32.Holds n then some (n.bmod (2 ^ 16)) else none
  | uint16 => if int32.Holds n then some (n % 2 ^ 16) else none
  | int32 => if int32.Holds n then some n else none
  | int64 => if int64.Holds n then some n else none
  | uint32 => some (n % 2 ^ 32)
  | uint64 => some (n % 2 ^ 64)

variable (t : IntType)

/-- The digits that follow the first one. -/
def moreDigits : Int → Bytes → Option Int
  | i, [] => some i
  | i, c :: rest =>
    if RestBody.isDigit c then
      (t.store (i * 10)).bind fun i => (t.store (i + (c.toNat - 48 : Nat))).bind fun i => moreDigits i rest
    else some i

def digits : Bytes → Option Int
  | [] => some 0
  | c :: rest => if RestBody.isDigit c then (t.store (0 + (c.toNat - 48 : Nat))).bind fun i => t.moreDigits i rest else some 0

def stoi (sv : Bytes) : Option Int :=
  -- Skip leading whitespace.
  match sv.dropWhile RestBody.isSpace with
  | [] => some 0
  | c :: rest =>
    -- Handle sign.
    if c = 45 then
      if rest = [] then some 0 else (t.digits rest).bind fun i => t.store (-i)
    else if c = 43 then
      if rest = [] then some 0 else t.digits rest
    else t.digits (c :: rest)

end IntType

/-- `stou`, in an unsigned integer of `w` bits: the digits after white space, if there are any. -/
def stou (w : Nat) (s : Bytes) : Nat :=
  ((s.dropWhile RestBody.isSpace).takeWhile RestBody.isDigit).foldl (fun u c => (u * 10 + (c.toNat - 48)) % 2 ^ w) 0

/-- The integer types that have traits: an enumeration and an `IntWrapper` are over an integer type. -/
inductive IntegerType where
  | arithmetic (t : IntType)
  | enumeration (underlying : IntType)
  | intWrapper (value : IntType)
  deriving DecidableEq

namespace TypeTraits

/-- `TypeTraits<ValueT>::from_string` of the arithmetic types.  Those of 64 bits call the functions for 32. -/
def fromStringInt : IntType → Bytes → Option Int
  | .int16, sv => IntType.int16.stoi sv
  | .int32, sv => IntType.int32.stoi sv
  | .int64, sv => IntType.int32.stoi sv
  | .uint16, sv => some (stou 16 sv)
  | .uint32, sv => some (stou 32 sv)
  | .uint64, sv => some (stou 32 sv)

/-- The others convert what their underlying type reads. -/
def fromString : IntegerType → Bytes → Option Int
  | .arithmetic t, sv => fromStringInt t sv
  | .enumeration underlying, sv => fromStringInt underlying sv
  | .intWrapper value, sv => fromStringInt value sv

end TypeTraits

/-- The type whose numbers are the values. -/
def IntegerType.underlying : IntegerType → IntType
  | arithmetic t => t
  | enumeration underlying => underlying
  | intWrapper value => value

end Swirly
