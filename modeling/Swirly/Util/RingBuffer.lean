import Swirly.App.MemCtx

/-!
# Powers of two and rings

`next_pow2` of `util/Math.hpp`, for an `unsigned` as well, and what the constructors of `util/RingBuffer.hpp` and
`app/MemQueue.hpp` do with it: a ring has a power of two of elements, so that a mask takes a position to its element.
-/

namespace Swirly

/-- `next_pow2` of an `unsigned`.  The number that it shifts is an `int`, and so is the result. -/
def nextPow2Unsigned (n : UInt32) : Option UInt32 :=
  if n ≤ 1 then some 1
  else
    let bits := (n - 1).toNat.log2 + 1
    if bits < 32 then some (1 <<< UInt32.ofNat bits) else none

structure RingSize where
  capacity : UInt64
  mask : UInt64

namespace RingSize

/-- No result stands for undefined behaviour. -/
def make (capacity : UInt64) : Option RingSize := (MemCtx.nextPow2 capacity).map fun capacity => { capacity, mask := capacity - 1 }

variable (ring : RingSize)

/-- The element for a position. -/
def index (pos : UInt64) : UInt64 := pos &&& ring.mask

end RingSize

/-- The constructor of a `RingBuffer`. -/
def RingBuffer.ring (capacity : UInt64) : Option RingSize := RingSize.make capacity

/-- The constructor of a `MemQueue`. -/
def MemQueue.ring (capacity : UInt64) : Option RingSize := RingSize.make capacity

end Swirly
