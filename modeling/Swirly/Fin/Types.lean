import Swirly.Lib.Bytes

/-!
# Basic types

`Lots`, `Ticks`, `Cost`, `Id64` and `JDay` are integers without a bound, and a `Time` is a count of
nanoseconds since the epoch; the enumerations are those of `etc/fbs/Types.fbs`.  `Side::None` only marks a side that a request body leaves out:
`App::match_orders` and `Posn::add_trade` assert that an order or a trade has one of the others.
-/

namespace Swirly

/-- `ms_since_epoch`: a duration cast truncates towards zero. -/
def msSinceEpoch (time : Int) : Int := time.tdiv 1000000

inductive Side where
  | buy
  | sell
  deriving DecidableEq, Inhabited

/-- `Paid` when the taker lifts the offer, `Given` when it hits the bid. -/
inductive Direct where
  | given
  | paid
  deriving DecidableEq

inductive LiqInd where
  | none
  | maker
  | taker
  deriving DecidableEq, Inhabited

inductive State where
  | none
  | new
  | revise
  | cancel
  | trade
  deriving DecidableEq, Inhabited

def Side.opposite : Side → Side
  | buy => sell
  | sell => buy

def LiqInd.opposite : LiqInd → LiqInd
  | none => none
  | maker => taker
  | taker => maker

@[simp] theorem Side.opposite_opposite (side : Side) : side.opposite.opposite = side := by
  cases side <;> rfl

theorem Side.opposite_ne (side : Side) : side.opposite ≠ side := by
  cases side <;> decide

/-- `swirly::cost`. -/
def cost (lots : Int) (ticks : Int) : Int := lots * ticks

def maxSymbol : Nat := 16
def maxRef : Nat := 64

/-- Sixteen characters, padded with NUL. -/
structure Symbol where
  buf : Bytes
  size : buf.length = maxSymbol

namespace Symbol

/-- `Symbol::assign`: longer strings are truncated. -/
def assign (s : Bytes) : Symbol := ⟨pstrcpy maxSymbol s, length_pstrcpy _ s⟩

instance : Inhabited Symbol := ⟨assign []⟩

def isEmpty (s : Symbol) : Bool := s.buf.all (· = 0)

theorem buf_injective : Function.Injective buf := fun s t same => by
  cases s; cases t; congr

instance : LinearOrder Symbol := LinearOrder.lift' buf buf_injective

end Symbol

/-- A string of at most `maxN` characters. -/
structure StringBuf (maxN : Nat) where
  data : Bytes
  bounded : data.length ≤ maxN
  deriving DecidableEq

namespace StringBuf

variable {maxN : Nat}

/-- `StringBuf::assign`: longer strings are truncated. -/
def assign (s : Bytes) : StringBuf maxN := ⟨s.take maxN, by simp [List.length_take]⟩

instance : Inhabited (StringBuf maxN) := ⟨assign []⟩

def isEmpty (s : StringBuf maxN) : Bool := s.data.isEmpty

theorem assign_data {s : Bytes} (short : s.length ≤ maxN) : (assign s : StringBuf maxN).data = s :=
  List.take_of_length_le short

theorem assign_self (s : StringBuf maxN) : assign s.data = s := by
  obtain ⟨data, bounded⟩ := s
  simp only [assign, List.take_of_length_le bounded]

end StringBuf

abbrev Ref := StringBuf maxRef

end Swirly
