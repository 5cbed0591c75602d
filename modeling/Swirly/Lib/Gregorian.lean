import Mathlib

/-!
# The Gregorian calendar

Dates from the first year on, in the order of days.
-/

namespace Gregorian

def Leap (year : Int) : Prop := year % 4 = 0 ∧ (year % 100 ≠ 0 ∨ year % 400 = 0)

instance (year : Int) : Decidable (Leap year) := inferInstanceAs (Decidable (_ ∧ _))

def daysIn (year month : Int) : Int :=
  if month = 2 then if Leap year then 29 else 28
  else if month = 4 ∨ month = 6 ∨ month = 9 ∨ month = 11 then 30
  else 31

theorem daysIn_bounds (year month : Int) : 28 ≤ daysIn year month ∧ daysIn year month ≤ 31 := by
  rw [daysIn]
  split_ifs <;> omega

end Gregorian

/-- A date that is in the calendar. -/
@[ext] structure Gregorian where
  year : Int
  month : Int
  day : Int
  years : 1 ≤ year
  months : 1 ≤ month ∧ month ≤ 12
  days : 1 ≤ day ∧ day ≤ Gregorian.daysIn year month

namespace Gregorian

/-- The first of January of the first year. -/
def first : Gregorian := ⟨1, 1, 1, by decide, by decide, by decide⟩

/-- The day after. -/
def next (d : Gregorian) : Gregorian :=
  if more : d.day < daysIn d.year d.month then
    { d with
      day := d.day + 1
      days := ⟨by have := d.days.1; omega, more⟩ }
  else if later : d.month < 12 then
    { d with
      month := d.month + 1
      day := 1
      months := ⟨by have := d.months.1; omega, later⟩
      days := ⟨le_rfl, le_trans (by decide) (daysIn_bounds _ _).1⟩ }
  else
    { year := d.year + 1
      month := 1
      day := 1
      years := by have := d.years; omega
      months := ⟨le_rfl, by decide⟩
      days := ⟨le_rfl, le_trans (by decide) (daysIn_bounds _ _).1⟩ }

/-- What becomes of a date in a step to the next day. -/
theorem next_cases (d : Gregorian) :
    (d.day < daysIn d.year d.month ∧ d.next.year = d.year ∧ d.next.month = d.month ∧ d.next.day = d.day + 1) ∨
    (d.day = daysIn d.year d.month ∧ d.month < 12 ∧ d.next.year = d.year ∧ d.next.month = d.month + 1 ∧ d.next.day = 1) ∨
    (d.day = daysIn d.year d.month ∧ d.month = 12 ∧ d.next.year = d.year + 1 ∧ d.next.month = 1 ∧ d.next.day = 1) := by
  have days := d.days
  have months := d.months
  rw [next]
  split_ifs with more later
  · exact .inl ⟨more, rfl, rfl, rfl⟩
  · exact .inr (.inl ⟨by omega, later, rfl, rfl, rfl⟩)
  · exact .inr (.inr ⟨by omega, by omega, rfl, rfl, rfl⟩)

/-- The digits `yyyymmdd` as a number. -/
def number (d : Gregorian) : Int := d.year * 10000 + d.month * 100 + d.day

theorem number_lt_next (d : Gregorian) : d.number < d.next.number := by
  have bounds := daysIn_bounds d.year d.month
  have days := d.days
  have months := d.months
  rw [number, number]
  obtain ⟨-, year, month, day⟩ | ⟨-, -, year, month, day⟩ | ⟨-, -, year, month, day⟩ := d.next_cases
  all_goals
    rw [year, month, day]
    omega

/-- What the first date has, and each date passes on to the next, with the number of days in between, every date from the
first on has. -/
theorem exists_after {P : Int → Gregorian → Prop} {start : Int} (begins : P start first)
    (steps : ∀ n d, P n d → P (n + 1) d.next) {n : Int} (after : start ≤ n) : ∃ d, P n d := by
  induction n, after using Int.leInduction with
  | base => exact ⟨first, begins⟩
  | succ n _ inductionHypothesis =>
    obtain ⟨d, holds⟩ := inductionHypothesis
    exact ⟨d.next, steps n d holds⟩

end Gregorian
