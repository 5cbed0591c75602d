import Swirly.Fin.MsgQueue

/-!
# The loop of `archive_trade`

`detail::Range` of `fin/MsgQueue.hpp` and the loop over it in `fin/MsgQueue.cpp`, with the queue as it is left where a
message cannot be posted.
-/

namespace Swirly

/-- Steps of `maxIds` through `size` elements. -/
structure Range where
  size : Nat
  offset : Nat
  deriving DecidableEq

namespace Range

variable (r : Range)

def stepOffset : Nat := r.offset

def stepSize : Nat := min (r.size - r.offset) maxIds

def steps : Nat := (r.size + maxIds - 1) / maxIds

def done : Bool := r.size ≤ r.offset

def next : Range := { r with offset := r.offset + maxIds }

end Range

namespace MsgQueue

/-- `do … while (r.next())`.  An error holds the queue as the call leaves it when it throws. -/
def archiveLoop (marketId : Int) (modified : Int) (ids : List Int) (r : Range) (mq : MsgQueue) : Except MsgQueue MsgQueue :=
  match mq.doArchiveTrade marketId ((ids.drop r.stepOffset).take r.stepSize) modified with
  | none => .error mq
  | some mq => if r.next.done then .ok mq else archiveLoop marketId modified ids r.next mq
termination_by r.size - r.offset
decreasing_by
  rename_i unfinished
  have further : r.offset + maxIds < r.size := not_le.mp fun le => unfinished (decide_eq_true le)
  have width : maxIds = 29 := rfl
  show r.size - (r.offset + maxIds) < r.size - r.offset
  omega

def archive (mq : MsgQueue) (marketId : Int) (ids : List Int) (modified : Int) : Except MsgQueue MsgQueue :=
  let r : Range := { size := ids.length, offset := 0 }
  if mq.reserve < r.steps then .error mq else archiveLoop marketId modified ids r mq

end MsgQueue

end Swirly
