import Swirly.Util.Date

/-!
# Calendar days in an `int`

The conversions of `util/Date.hpp` once more, step by step, in the arithmetic of `int`: no result stands for an overflow.
-/

namespace Swirly

/-- The result of a computation with `int`s. -/
def int (n : Int) : Option Int := if -2 ^ 31 ≤ n ∧ n < 2 ^ 31 then some n else none

/-- `ymd_to_jd`. -/
def ymdToJd32 (year mon mday : Int) : Option Int := do
  let c ← int (mon - 14)
  let days ← int (mday - 32075)
  let y ← int (year + 4800)
  let y ← int (y + c.tdiv 12)
  let y ← int (1461 * y)
  let days ← int (days + y.tdiv 4)
  let m ← int (mon - 2)
  let a ← int (c.tdiv 12 * 12)
  let m ← int (m - a)
  let m ← int (367 * m)
  let days ← int (days + m.tdiv 12)
  let y ← int (year + 4900)
  let y ← int (y + c.tdiv 12)
  let y ← int (3 * y.tdiv 100)
  int (days - y.tdiv 4)

/-- `iso_to_jd`. -/
def isoToJd32 (iso : Int) : Option Int := ymdToJd32 (iso.tdiv 10000) ((iso.tdiv 100).tmod 100) (iso.tmod 100)

/-- `jd_to_iso`. -/
def jdToIso32 (jd : Int) : Option Int := do
  let l ← int (jd + 68569)
  let n ← int (4 * l)
  let n := n.tdiv 146097
  let c ← int (146097 * n)
  let c ← int (c + 3)
  let l ← int (l - c.tdiv 4)
  let i ← int (l + 1)
  let i ← int (4000 * i)
  let i := i.tdiv 1461001
  let c ← int (1461 * i)
  let l ← int (l - c.tdiv 4)
  let l ← int (l + 31)
  let j ← int (80 * l)
  let j := j.tdiv 2447
  let c ← int (2447 * j)
  let k ← int (l - c.tdiv 80)
  let l := j.tdiv 11
  let j ← int (j + 2)
  let c ← int (12 * l)
  let j ← int (j - c)
  let n ← int (n - 49)
  let n ← int (100 * n)
  let i ← int (n + i)
  let i ← int (i + l)
  let y ← int (i * 10000)
  let m ← int (j * 100)
  let d ← int (y + m)
  int (d + k)

end Swirly
