import Swirly.Lib.Gregorian
import Swirly.Util.Date32

/-!
# The calendar of the conversions

The formulas count years from March, so that the day that a leap year has more is the last of its year.  In a year `100 C + r`
so counted, the day `x` of the year decides the month and the day of the month.
-/

namespace Swirly

/-- The Julian day of a date. -/
def julianDay (d : Gregorian) : Int := ymdToJd d.year d.month d.day

/-- The leap days up to a year. -/
theorem leap_days (Y : Int) :
    1461 * (Y + 4800) / 4 - 3 * ((Y + 4900) / 100) / 4 = 365 * Y + Y / 4 - Y / 100 + Y / 400 + 1753164 := by
  have fourth : 1461 * (Y + 4800) / 4 = 365 * Y + Y / 4 + 1753200 := by omega
  have century : (Y + 4900) / 100 = Y / 100 + 49 := by omega
  have fourths : Y / 400 = Y / 100 / 4 := by omega
  have skipped : 3 * (Y / 100 + 49) / 4 = Y / 100 - Y / 100 / 4 + 36 := by omega
  rw [fourth, century, skipped, fourths]
  ring

/-- The year and the month counted from March. -/
theorem ymdToJd_march {y m : Int} (years : 1 ≤ y) (months : 1 ≤ m ∧ m ≤ 12) (d : Int) :
    ∃ Y n : Int, (m ≤ 2 ∧ Y = y - 1 ∧ n = m + 10 ∨ 3 ≤ m ∧ Y = y ∧ n = m - 2) ∧
      ymdToJd y m d = d + 367 * n / 12 + 365 * Y + Y / 4 - Y / 100 + Y / 400 + 1721089 := by
  obtain ⟨c, count⟩ : ∃ c, c = (m - 14).tdiv 12 := ⟨_, rfl⟩
  have carried : m ≤ 2 ∧ c = -1 ∨ 3 ≤ m ∧ c = 0 := by
    obtain ⟨low, high⟩ := months
    interval_cases m <;> simp [count]
  exists y + c, m - 2 - c * 12
  constructor
  · omega
  · have shifted : y + 4800 + c = y + c + 4800 ∧ y + 4900 + c = y + c + 4900 := by omega
    have leaps := leap_days (y + c)
    rw [ymdToJd, ← count, shifted.1, shifted.2, Int.tdiv_eq_ediv_of_nonneg (a := 1461 * (y + c + 4800)) (by omega),
      Int.tdiv_eq_ediv_of_nonneg (a := 367 * (m - 2 - c * 12)) (by omega),
      Int.tdiv_eq_ediv_of_nonneg (a := y + c + 4900) (by omega),
      Int.tdiv_eq_ediv_of_nonneg (a := 3 * ((y + c + 4900) / 100)) (by omega)]
    linarith only [leaps]

/-- The next day has the next number. -/
theorem julianDay_next (d : Gregorian) : julianDay d.next = julianDay d + 1 := by
  have years := d.years
  have months := d.months
  obtain ⟨Y, n, march, value⟩ := ymdToJd_march years months d.day
  obtain ⟨Y', n', march', value'⟩ := ymdToJd_march d.next.years d.next.months d.next.day
  rw [julianDay, julianDay, value, value']
  obtain ⟨-, year, month, day⟩ | ⟨last, early, year, month, day⟩ | ⟨last, december, year, month, day⟩ := d.next_cases
  · rw [month, year] at march'
    obtain rfl : Y' = Y := by omega
    obtain rfl : n' = n := by omega
    rw [day]
    ring
  · rw [month, year] at march'
    rw [day, last, Gregorian.daysIn]
    by_cases february : d.month = 2
    · -- March is the first month of the next year.
      obtain ⟨y, hasY⟩ : ∃ y, y = d.year := ⟨_, rfl⟩
      obtain rfl : Y = y - 1 := by omega
      obtain rfl : Y' = y := by omega
      obtain rfl : n = 12 := by omega
      obtain rfl : n' = 1 := by omega
      rw [if_pos february, ← hasY]
      split
      next leap =>
        obtain ⟨fourth, hundredth⟩ := leap
        omega
      next common =>
        have common : Y' % 4 ≠ 0 ∨ Y' % 100 = 0 ∧ Y' % 400 ≠ 0 := by
          simp only [Gregorian.Leap] at common
          omega
        omega
    · obtain rfl : Y' = Y := by omega
      obtain rfl : n' = n + 1 := by omega
      obtain ⟨low, high⟩ : 1 ≤ n ∧ n ≤ 11 := by omega
      rw [if_neg february]
      interval_cases n <;> split <;> omega
  · -- January and December are in the same year.
    rw [month, year] at march'
    obtain rfl : Y' = Y := by omega
    obtain rfl : n = 10 := by omega
    obtain rfl : n' = 11 := by omega
    have dim : Gregorian.daysIn d.year 12 = 31 := rfl
    rw [day, last, december, dim]
    omega

section March

variable {C r x jd : Int}

/-- The century and the year are found, and the day of the year is left. -/
theorem jdToIso_march (century : 48 ≤ C) (year : 0 ≤ r ∧ r ≤ 99)
    (day : 0 ≤ x ∧ (x ≤ 364 ∨ x = 365 ∧ r % 4 = 3 ∧ (r = 99 → C % 4 = 3)))
    (count : jd + 68569 = x + 36525 + 36525 * C + 365 * r + r / 4 - 3 * (C + 1) / 4) :
    jdToIso jd = (100 * (C - 48) + r + 80 * (x + 31) / 2447 / 11) * 10000 +
      (80 * (x + 31) / 2447 + 2 - 12 * (80 * (x + 31) / 2447 / 11)) * 100 +
      (x + 31 - 2447 * (80 * (x + 31) / 2447) / 80) := by
  have n : (4 * (jd + 68569)).tdiv 146097 = C + 1 := by
    rw [Int.tdiv_eq_ediv_of_nonneg (by omega)]
    omega
  have q : (146097 * (C + 1) + 3).tdiv 4 = 36525 + 36524 * C + C / 4 := by
    rw [Int.tdiv_eq_ediv_of_nonneg (by omega)]
    omega
  have l : jd + 68569 - (36525 + 36524 * C + C / 4) = x + 365 * r + r / 4 := by omega
  have i : (4000 * (x + 365 * r + r / 4 + 1)).tdiv 1461001 = r := by
    rw [Int.tdiv_eq_ediv_of_nonneg (by omega)]
    omega
  have c : x + 365 * r + r / 4 - (1461 * r).tdiv 4 + 31 = x + 31 := by
    rw [Int.tdiv_eq_ediv_of_nonneg (by omega)]
    omega
  have j : (80 * (x + 31)).tdiv 2447 = 80 * (x + 31) / 2447 := Int.tdiv_eq_ediv_of_nonneg (by omega)
  have k : (2447 * (80 * (x + 31) / 2447)).tdiv 80 = 2447 * (80 * (x + 31) / 2447) / 80 := by
    rw [Int.tdiv_eq_ediv_of_nonneg (by omega)]
  have f : (80 * (x + 31) / 2447).tdiv 11 = 80 * (x + 31) / 2447 / 11 := by
    rw [Int.tdiv_eq_ediv_of_nonneg (by omega)]
  simp only [jdToIso, n, q, l, i, c, j, k, f]
  ring

end March

/-- The Julian day of a date is converted to the date. -/
theorem jdToIso_julianDay (d : Gregorian) : jdToIso (julianDay d) = d.number := by
  have years := d.years
  have months := d.months
  have days := d.days
  obtain ⟨Y, n, march, value⟩ := ymdToJd_march years months d.day
  obtain ⟨y, hasY⟩ : ∃ y, y = Y + 4800 := ⟨_, rfl⟩
  obtain ⟨x, hasX⟩ : ∃ x, x = d.day + 367 * n / 12 - 31 := ⟨_, rfl⟩
  have range : 1 ≤ n ∧ n ≤ 12 := by omega
  -- Only the last day of February of a leap year is the day 365.
  have leap : 0 ≤ x ∧ (x ≤ 364 ∨ x = 365 ∧ y % 100 % 4 = 3 ∧ (y % 100 = 99 → y / 100 % 4 = 3)) := by
    rw [Gregorian.daysIn] at days
    by_cases february : d.month = 2
    · rw [if_pos february] at days
      split at days
      next leap =>
        obtain ⟨fourth, hundredth⟩ := leap
        omega
      next => omega
    · rw [if_neg february] at days
      split at days <;> omega
  have count : julianDay d + 68569 = x + 36525 + 36525 * (y / 100) + 365 * (y % 100) + y % 100 / 4 - 3 * (y / 100 + 1) / 4 := by
    have leaps := leap_days Y
    have century : (Y + 4900) / 100 = y / 100 + 1 := by omega
    have whole : 1461 * (Y + 4800) / 4 = 36525 * (y / 100) + 365 * (y % 100) + y % 100 / 4 := by omega
    rw [century, whole] at leaps
    rw [julianDay, value, hasX]
    linarith only [leaps]
  rw [jdToIso_march (by omega) (by omega) leap count, Gregorian.number]
  have split : 80 * (x + 31) / 2447 = n ∧ x + 31 - 2447 * n / 80 = d.day := by
    have bounds := Gregorian.daysIn_bounds d.year d.month
    rw [Gregorian.daysIn] at days
    obtain ⟨low, high⟩ := range
    interval_cases n <;> split_ifs at days <;> omega
  rw [split.1, split.2]
  omega

/-! ## Without overflow -/

theorem int_of_fits {n : Int} (low : -2 ^ 31 ≤ n) (high : n < 2 ^ 31) : int n = some n := if_pos ⟨low, high⟩

/-- What is computed on the way from a Julian day to a date. -/
theorem computed_fits {l n q i c j k f : Int} (days : 0 ≤ l ∧ l ≤ 81068569) (centuries : 0 ≤ n ∧ n ≤ 2220)
    (rest : 0 ≤ l - q ∧ l - q ≤ 36524) (years : 0 ≤ i ∧ i ≤ 99) (left : 0 ≤ l - q - c ∧ l - q - c ≤ 366)
    (months : 0 ≤ j ∧ j ≤ 13) (before : 0 ≤ k ∧ k ≤ 398) (carry : 0 ≤ f ∧ f ≤ 1) (day : 0 ≤ l - q - c + 31 - k) (month : 0 ≤ j + 2 - 12 * f)
    (date : (100 * (n - 49) + i + f) * 10000 + (j + 2 - 12 * f) * 100 + (l - q - c + 31 - k) < 2 ^ 31) :
    ∀ e ∈ [l, 4 * l, 146097 * n, 146097 * n + 3, l - q, l - q + 1, 4000 * (l - q + 1), 1461 * i, l - q - c,
      l - q - c + 31, 80 * (l - q - c + 31), 2447 * j, l - q - c + 31 - k, j + 2, 12 * f, j + 2 - 12 * f, n - 49,
      100 * (n - 49), 100 * (n - 49) + i, 100 * (n - 49) + i + f, (100 * (n - 49) + i + f) * 10000, (j + 2 - 12 * f) * 100,
      (100 * (n - 49) + i + f) * 10000 + (j + 2 - 12 * f) * 100,
      (100 * (n - 49) + i + f) * 10000 + (j + 2 - 12 * f) * 100 + (l - q - c + 31 - k)], -2 ^ 31 ≤ e ∧ e < 2 ^ 31 := by
  obtain ⟨r, hasR⟩ : ∃ r, r = l - q := ⟨_, rfl⟩
  obtain ⟨t, hasT⟩ : ∃ t, t = r - c := ⟨_, rfl⟩
  rw [← hasR] at rest left day date ⊢
  rw [← hasT] at left day date ⊢
  clear hasR hasT
  simp only [List.forall_mem_cons, List.not_mem_nil, false_implies, implies_true, and_true]
  omega

/-- Up to a day long after the last date of eight digits, only the date itself may overflow. -/
theorem jdToIso32_eq {jd : Int} (low : 0 ≤ jd) (high : jd ≤ 81000000) (fits : jdToIso jd < 2 ^ 31) :
    jdToIso32 jd = some (jdToIso jd) := by
  obtain ⟨l, hasL⟩ : ∃ l, l = jd + 68569 := ⟨_, rfl⟩
  obtain ⟨n, hasN⟩ : ∃ n, n = (4 * l).tdiv 146097 := ⟨_, rfl⟩
  obtain ⟨q, hasQ⟩ : ∃ q, q = (146097 * n + 3).tdiv 4 := ⟨_, rfl⟩
  obtain ⟨i, hasI⟩ : ∃ i, i = (4000 * (l - q + 1)).tdiv 1461001 := ⟨_, rfl⟩
  obtain ⟨c, hasC⟩ : ∃ c, c = (1461 * i).tdiv 4 := ⟨_, rfl⟩
  obtain ⟨j, hasJ⟩ : ∃ j, j = (80 * (l - q - c + 31)).tdiv 2447 := ⟨_, rfl⟩
  obtain ⟨k, hasK⟩ : ∃ k, k = (2447 * j).tdiv 80 := ⟨_, rfl⟩
  obtain ⟨f, hasF⟩ : ∃ f, f = j.tdiv 11 := ⟨_, rfl⟩
  have spelled : jdToIso jd = (100 * (n - 49) + i + f) * 10000 + (j + 2 - 12 * f) * 100 + (l - q - c + 31 - k) := by
    simp only [jdToIso, ← hasL, ← hasN, ← hasQ, ← hasI, ← hasC, ← hasJ, ← hasK, ← hasF]
  -- The remainders are bounded one after the other, each from the one before.
  have boundN : 0 ≤ n ∧ n ≤ 2220 := by
    rw [Int.tdiv_eq_ediv_of_nonneg (by omega)] at hasN
    omega
  have boundQ : 0 ≤ l - q ∧ l - q ≤ 36524 := by
    rw [Int.tdiv_eq_ediv_of_nonneg (by omega)] at hasN
    rw [Int.tdiv_eq_ediv_of_nonneg (by omega)] at hasQ
    omega
  have boundI : 0 ≤ i ∧ i ≤ 99 := by
    rw [Int.tdiv_eq_ediv_of_nonneg (by omega)] at hasI
    omega
  have boundC : 0 ≤ l - q - c ∧ l - q - c ≤ 366 := by
    rw [Int.tdiv_eq_ediv_of_nonneg (by omega)] at hasI
    rw [Int.tdiv_eq_ediv_of_nonneg (by omega)] at hasC
    omega
  have boundJ : 0 ≤ j ∧ j ≤ 13 := by
    rw [Int.tdiv_eq_ediv_of_nonneg (by omega)] at hasJ
    omega
  have boundK : 0 ≤ k ∧ k ≤ 398 ∧ 0 ≤ l - q - c + 31 - k := by
    rw [Int.tdiv_eq_ediv_of_nonneg (by omega)] at hasJ
    rw [Int.tdiv_eq_ediv_of_nonneg (by omega)] at hasK
    omega
  have boundF : 0 ≤ f ∧ f ≤ 1 ∧ 0 ≤ j + 2 - 12 * f := by
    rw [Int.tdiv_eq_ediv_of_nonneg (by omega)] at hasF
    omega
  rw [spelled] at fits ⊢
  have bounds := computed_fits ⟨by omega, by omega⟩ boundN boundQ boundI boundC boundJ ⟨boundK.1, boundK.2.1⟩ ⟨boundF.1, boundF.2.1⟩
    boundK.2.2 boundF.2.2 fits
  have within := fun e inside => int_of_fits (bounds e inside).1 (bounds e inside).2
  simp only [List.forall_mem_cons] at within
  obtain ⟨w1, w2, w3, w4, w5, w6, w7, w8, w9, w10, w11, w12, w13, w14, w15, w16, w17, w18, w19, w20, w21, w22, w23, w24, -⟩ := within
  -- The conversion in an `int` is unfolded one checked operation at a time.
  have next {n m : Int} {f : Int → Option Int} (done : int n = some m) : (int n >>= f) = f m := by rw [done]; rfl
  rw [jdToIso32, ← hasL, next w1, next w2, ← hasN, next w3, next w4, ← hasQ, next w5, next w6, next w7, ← hasI, next w8, ← hasC, next w9,
    next w10, next w11, ← hasJ, next w12, ← hasK, next w13, ← hasF, next w14, next w15, next w16, next w17, next w18, next w19, next w20,
    next w21, next w22, next w23, w24]

theorem julianDay_first : julianDay Gregorian.first = 1721426 := by decide

/-- A date of at most eight digits and a bit is at most these many days away. -/
theorem julianDay_bounds {d : Gregorian} (fits : d.number < 2 ^ 31) : 1721426 ≤ julianDay d ∧ julianDay d ≤ 81000000 := by
  have years := d.years
  have months := d.months
  have days := d.days
  have bounds := Gregorian.daysIn_bounds d.year d.month
  obtain ⟨Y, n, march, value⟩ := ymdToJd_march years months d.day
  rw [Gregorian.number] at fits
  have range : 1 ≤ n ∧ n ≤ 12 := by omega
  rw [julianDay, value]
  omega

/-- The fields of a date are read off its digits. -/
theorem number_fields (d : Gregorian) :
    d.number.tdiv 10000 = d.year ∧ (d.number.tdiv 100).tmod 100 = d.month ∧ d.number.tmod 100 = d.day := by
  have years := d.years
  have months := d.months
  have days := d.days
  have bounds := Gregorian.daysIn_bounds d.year d.month
  have positive : 0 ≤ d.number := by
    rw [Gregorian.number]
    omega
  rw [Int.tdiv_eq_ediv_of_nonneg positive, Int.tdiv_eq_ediv_of_nonneg positive, Int.tmod_eq_emod_of_nonneg positive,
    Int.tmod_eq_emod_of_nonneg (Int.ediv_nonneg positive (by decide)), Gregorian.number]
  omega

/-- No date of an `IsoDate` overflows on the way to its Julian day. -/
theorem isoToJd32_number {d : Gregorian} (fits : d.number < 2 ^ 31) : isoToJd32 d.number = some (julianDay d) := by
  have years := d.years
  have months := d.months
  have days := d.days
  have bounds := Gregorian.daysIn_bounds d.year d.month
  have size := julianDay_bounds fits
  obtain ⟨year, month, day⟩ := number_fields d
  rw [Gregorian.number] at fits
  rw [isoToJd32, year, month, day, ymdToJd32, julianDay, ymdToJd]
  obtain ⟨y, hasY⟩ : ∃ y, y = d.year := ⟨_, rfl⟩
  obtain ⟨m, hasM⟩ : ∃ m, m = d.month := ⟨_, rfl⟩
  obtain ⟨c, hasC⟩ : ∃ c, c = (m - 14).tdiv 12 := ⟨_, rfl⟩
  obtain ⟨a, hasA⟩ : ∃ a, a = (1461 * (y + 4800 + c)).tdiv 4 := ⟨_, rfl⟩
  obtain ⟨b, hasB⟩ : ∃ b, b = (367 * (m - 2 - c * 12)).tdiv 12 := ⟨_, rfl⟩
  obtain ⟨e, hasE⟩ : ∃ e, e = (y + 4900 + c).tdiv 100 := ⟨_, rfl⟩
  obtain ⟨g, hasG⟩ : ∃ g, g = (3 * e).tdiv 4 := ⟨_, rfl⟩
  -- January and February belong to the year before.
  have carried : m ≤ 2 ∧ c = -1 ∨ 3 ≤ m ∧ c = 0 := by
    rw [← hasM] at months
    obtain ⟨low, high⟩ := months
    clear hasM month
    interval_cases m <;> simp [hasC]
  have boundA : 0 ≤ a ∧ a ≤ 80200000 := by
    rw [Int.tdiv_eq_ediv_of_nonneg (by omega)] at hasA
    omega
  have boundB : 0 ≤ b ∧ b ≤ 367 := by
    rw [Int.tdiv_eq_ediv_of_nonneg (by omega)] at hasB
    omega
  have boundE : 0 ≤ e ∧ e ≤ 2200 := by
    rw [Int.tdiv_eq_ediv_of_nonneg (by omega)] at hasE
    omega
  have boundG : 0 ≤ g ∧ g ≤ 2200 := by
    rw [Int.tdiv_eq_ediv_of_nonneg (by omega)] at hasG
    omega
  have next {n : Int} {f : Int → Option Int} (low : -2 ^ 31 ≤ n) (high : n < 2 ^ 31) : (int n >>= f) = f n := by
    rw [int_of_fits low high]
    rfl
  rw [← hasY, ← hasM, ← hasC]
  -- The operations in the order in which they are computed.
  rw [next (by omega) (by omega), next (by omega) (by omega), next (by omega) (by omega), ← hasC, next (by omega) (by omega),
    next (by omega) (by omega), ← hasA, next (by omega) (by omega), next (by omega) (by omega), next (by omega) (by omega),
    next (by omega) (by omega), next (by omega) (by omega), ← hasB, next (by omega) (by omega), next (by omega) (by omega),
    next (by omega) (by omega), ← hasE, next (by omega) (by omega), ← hasG]
  exact int_of_fits (by omega) (by omega)

theorem jdToIso32_julianDay {d : Gregorian} (fits : d.number < 2 ^ 31) : jdToIso32 (julianDay d) = some d.number := by
  have bounds := julianDay_bounds fits
  rw [← jdToIso_julianDay d] at fits
  rw [jdToIso32_eq (by omega) bounds.2 fits, jdToIso_julianDay]

/-- Every day from the first on is the day of a date. -/
theorem julianDay_surjective {j : Int} (after : 1721426 ≤ j) : ∃ d, julianDay d = j := by
  refine Gregorian.exists_after (P := fun j d => julianDay d = j) julianDay_first ?_ after
  intro n d same
  rw [julianDay_next, same]

theorem jdToIso_lt_next {j : Int} (after : 1721426 ≤ j) : jdToIso j < jdToIso (j + 1) := by
  obtain ⟨d, rfl⟩ := julianDay_surjective after
  rw [← julianDay_next, jdToIso_julianDay, jdToIso_julianDay]
  exact d.number_lt_next

theorem jdToIso_strictMono {i j : Int} (after : 1721426 ≤ i) (before : i < j) : jdToIso i < jdToIso j := by
  induction j, before using Int.leInduction with
  | base => exact jdToIso_lt_next after
  | succ j before inductionHypothesis =>
    exact lt_trans inductionHypothesis (jdToIso_lt_next (by omega))

/-- Every date of an `int` and its Julian day are converted to each other, the next day to the next date, and nothing overflows
on the way. -/
theorem conversions_inverse :
    (∀ j, 1721426 ≤ j → jdToIso j < 2 ^ 31 → ∃ d : Gregorian, jdToIso32 j = some d.number ∧ isoToJd32 d.number = some j ∧
      (d.next.number < 2 ^ 31 → jdToIso32 (j + 1) = some d.next.number)) ∧
    (∀ i j, 1721426 ≤ i → i < j → jdToIso j < 2 ^ 31 → ∃ m n, jdToIso32 i = some m ∧ jdToIso32 j = some n ∧ m < n) ∧
    ∀ d : Gregorian, d.number < 2 ^ 31 → ∃ j, 1721426 ≤ j ∧ isoToJd32 d.number = some j ∧ jdToIso32 j = some d.number := by
  have converted {j} (after : 1721426 ≤ j) (fits : jdToIso j < 2 ^ 31) :
      ∃ d, julianDay d = j ∧ d.number = jdToIso j ∧ d.number < 2 ^ 31 ∧ jdToIso32 j = some d.number := by
    obtain ⟨d, rfl⟩ := julianDay_surjective after
    rw [jdToIso_julianDay] at fits ⊢
    exact ⟨d, rfl, rfl, fits, jdToIso32_julianDay fits⟩
  refine ⟨?_, ?_, fun d fits => ?_⟩
  · intro j after fits
    obtain ⟨d, rfl, -, small, done⟩ := converted after fits
    refine ⟨d, done, isoToJd32_number small, fun more => ?_⟩
    rw [← julianDay_next]
    exact jdToIso32_julianDay more
  · intro i j after before fits
    have increasing := jdToIso_strictMono after before
    obtain ⟨d, -, sameD, -, doneD⟩ := converted after (lt_trans increasing fits)
    obtain ⟨e, -, sameE, -, doneE⟩ := converted (by omega) fits
    exact ⟨d.number, e.number, doneD, doneE, by rwa [sameD, sameE]⟩
  · exact ⟨julianDay d, (julianDay_bounds fits).1, isoToJd32_number fits, jdToIso32_julianDay fits⟩

/-- The day after the last of December 214748 has no date of 32 bits. -/
theorem last_date_overflows : jdToIso 80156521 < 2 ^ 31 ∧ jdToIso32 80156521 = some 2147481231 ∧ jdToIso32 80156522 = none := by
  decide

end Swirly
