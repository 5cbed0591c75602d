import Swirly.Lib.Bytes

/-!
# Types of the FIX transport

`fix/Types.hpp`, with `ProtocolException` of `fin/Exception.hpp` and the views, sizes and characters of C++.  A view is a
pointer into a buffer and a size, so it may reach beyond the buffer.
-/

namespace Swirly

structure FixVersion where
  major : Int
  minor : Int
  deriving DecidableEq

structure ProtocolException where
  what : String
  deriving DecidableEq

/-- A size of 64 bits. -/
def sizeT (n : Nat) : Nat := n % 2 ^ 64

/-- The value of a `char`, which is signed. -/
def charValue (c : UInt8) : Int := if c < 128 then c.toNat else c.toNat - 256

def isDigit (c : UInt8) : Bool := 48 ≤ c && c ≤ 57

/-- Start of header. -/
def soh : UInt8 := 1

/-- `std::string_view`, with the buffer that it points into. -/
structure StringView where
  base : Bytes
  offset : Nat
  size : Nat
  deriving DecidableEq

/-- The bytes of the view, as far as there are any. -/
def StringView.text (v : StringView) : Bytes := (v.base.drop v.offset).take v.size

end Swirly
