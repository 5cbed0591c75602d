import Mathlib

/-! # Calendar days

`util/Date.hpp`.  An ISO8601 date is the number `yyyymmdd`; a Julian day is a day count. -/

namespace Swirly

/-- Gregorian date to Julian day, by the formula of the Almanac for Computers. -/
def ymdToJd (year mon mday : Int) : Int :=
  mday - 32075 + (1461 * (year + 4800 + (mon - 14).tdiv 12)).tdiv 4
    + (367 * (mon - 2 - (mon - 14).tdiv 12 * 12)).tdiv 12
    - (3 * ((year + 4900 + (mon - 14).tdiv 12).tdiv 100)).tdiv 4

def isoToJd (iso : Int) : Int := ymdToJd (iso.tdiv 10000) ((iso.tdiv 100).tmod 100) (iso.tmod 100)

def jdToIso (jd : Int) : Int :=
  let l := jd + 68569
  let n := (4 * l).tdiv 146097
  let l := l - (146097 * n + 3).tdiv 4
  let i := (4000 * (l + 1)).tdiv 1461001
  let l := l - (1461 * i).tdiv 4 + 31
  let j := (80 * l).tdiv 2447
  let k := l - (2447 * j).tdiv 80
  let l := j.tdiv 11
  let j := j + 2 - 12 * l
  let i := 100 * (n - 49) + i + l
  i * 10000 + j * 100 + k

/-- Julian day to truncated Julian day. -/
def jdToTjd (jd : Int) : Int := jd - 2440000

/-- `maybe_iso_to_jd`: the date zero stands for no date. -/
def maybeIsoToJd (iso : Int) : Int := if iso ≠ 0 then isoToJd iso else 0

example : jdToIso (ymdToJd 2014 3 14) = 20140314 := by decide

end Swirly
