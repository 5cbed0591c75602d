import Swirly.Lib.Bytes

/-!
# The tokeniser

`util/Tokeniser.hpp`: two positions in a string, between which the current token stands.
-/

namespace Swirly

/-- `find_first_of`, from a position on.  The end stands for nothing found. -/
def findFirstOf (buf : Bytes) (delims : List UInt8) (i : Nat) : Nat :=
  i + ((buf.drop i).takeWhile fun c => c ∉ delims).length

structure Tokeniser where
  buf : Bytes
  delims : List UInt8
  i : Nat
  j : Nat
  inside : i ≤ buf.length
  found : j = findFirstOf buf delims i

theorem findFirstOf_le {buf : Bytes} {i : Nat} (inside : i ≤ buf.length) (delims : List UInt8) :
    findFirstOf buf delims i ≤ buf.length := by
  have shorter := (List.takeWhile_sublist (fun c => decide (c ∉ delims)) (l := buf.drop i)).length_le
  rw [List.length_drop] at shorter
  rw [findFirstOf]
  omega

namespace Tokeniser

def make (buf : Bytes) (delims : List UInt8) : Tokeniser :=
  { buf, delims, i := 0, j := findFirstOf buf delims 0, inside := Nat.zero_le _, found := rfl }

variable (toks : Tokeniser)

def empty : Bool := toks.i = toks.buf.length

/-- `substr`, which starts inside the string. -/
def top : Bytes := (toks.buf.drop toks.i).take (toks.j - toks.i)

theorem j_le : toks.j ≤ toks.buf.length := by
  rw [toks.found]
  exact findFirstOf_le toks.inside toks.delims

def pop : Tokeniser :=
  if more : toks.j ≠ toks.buf.length then
    { toks with
      i := toks.j + 1
      j := findFirstOf toks.buf toks.delims (toks.j + 1)
      inside := Nat.lt_of_le_of_ne toks.j_le more
      found := rfl }
  else
    { toks with
      i := toks.j
      inside := toks.j_le
      found := by
        have last : toks.j = toks.buf.length := not_not.mp more
        rw [findFirstOf, last, List.drop_length, List.takeWhile_nil, List.length_nil, Nat.add_zero] }

end Tokeniser

end Swirly
