import Swirly.Lib.Memo

/-!
# Business days

`fin/Date.hpp` and `fin/Date.cpp`.  The business day of a time is found with a time zone of boost, which is a function from
seconds to days here, and the latest days are kept: one for an even second and one for an odd second.
-/

namespace Swirly

/-- `UnixClock::to_time_t`: a duration cast truncates towards zero. -/
def toTimeT (time : Int) : Int := time.tdiv 1000000000

structure BusinessDay where
  /-- The local date of a second in the time zone, as a Julian day. -/
  zone : Int → Int
  /-- Cache entries for odd and even seconds. -/
  cache : Bool → Int × Int

namespace BusinessDay

/-- The entries of a new object are zero. -/
def make (zone : Int → Int) : BusinessDay := { zone, cache := fun _ => (0, 0) }

/-- The low bit of a second. -/
def lowBit (t : Int) : Bool := t % 2 = 1

variable (busDay : BusinessDay)

/-- `operator()`. -/
def call (time : Int) : Int × BusinessDay :=
  let t := toTimeT time
  -- Returned cached value if it exists.
  let i := lowBit t
  if (busDay.cache i).1 = t then ((busDay.cache i).2, busDay)
  else
    let jd := busDay.zone t
    -- Update cache entry.
    (jd, { busDay with cache := Function.update busDay.cache i (t, jd) })

/-- The results of one call after the other. -/
def calls : BusinessDay → List Int → List Int
  | _, [] => []
  | busDay, time :: times => (busDay.call time).1 :: calls (busDay.call time).2 times

end BusinessDay

end Swirly
