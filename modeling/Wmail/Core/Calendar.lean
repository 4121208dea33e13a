import Mathlib.Tactic.IntervalCases

/-
  The proleptic Gregorian calendar.

  Key theorems include:
    * `dayNumber_four`
    * `dayNumber_month`
-/

namespace Wmail.Calendar

/- A year with a 29th of February. -/
def leapYear (y : Int) : Bool :=
  y % 4 = 0 && (y % 100 ≠ 0 || y % 400 = 0)

/- The days of a month, from 1 for January on. -/
def monthLength (y : Int) (m : Nat) : Nat :=
  if m = 2 then
    if leapYear y then 29 else 28
  else if m = 4 ∨ m = 6 ∨ m = 9 ∨ m = 11 then
    30
  else
    31

/-
  The days from the first of January 1970 on.  The years give
  365 days and their leap days, and the months 30 or 31 as if
  February had 30.
-/
def dayNumber (y : Int) (m d : Nat) : Int :=
  365 * (y - 1) + (y - 1) / 4 - (y - 1) / 100 + (y - 1) / 400 + (367 * m - 362) / 12 +
    (if m ≤ 2 then 0 else if leapYear y then -1 else -2) +
    d - 719163

example : dayNumber 1970 1 1 = 0 := by
  decide

example : dayNumber 2000 3 1 = 11017 := by
  decide

/- A year without a leap day has 365 days. -/
theorem dayNumber_year {y : Int} (hPlain : leapYear y = false) :
    dayNumber (y + 1) 1 1 = dayNumber y 1 1 + 365 := by
  unfold leapYear at hPlain
  simp only [Bool.and_eq_false_iff, Bool.or_eq_false_iff, decide_eq_false_iff_not] at hPlain
  unfold dayNumber
  rw [if_pos (by decide), if_pos (by decide)]
  omega

theorem dayNumber_leapYear {y : Int} (hLeap : leapYear y = true) :
    dayNumber (y + 1) 1 1 = dayNumber y 1 1 + 366 := by
  unfold leapYear at hLeap
  simp only [Bool.and_eq_true, Bool.or_eq_true, decide_eq_true_eq] at hLeap
  unfold dayNumber
  rw [if_pos (by decide), if_pos (by decide)]
  omega

/- Three years without a leap day follow a leap year. -/
theorem dayNumber_four {y : Int} (hLeap : leapYear y = true) :
    dayNumber (y + 4) 1 1 = dayNumber y 1 1 + 1461 := by
  unfold leapYear at hLeap
  simp only [Bool.and_eq_true, Bool.or_eq_true, decide_eq_true_eq] at hLeap
  unfold dayNumber
  rw [if_pos (by decide), if_pos (by decide)]
  omega

/- One month after the other. -/
theorem dayNumber_succ (y : Int) {m : Nat} (hPos : 0 < m) (hYear : m < 12) :
    dayNumber y (m + 1) 1 = dayNumber y m 1 + monthLength y m := by
  unfold dayNumber monthLength
  cases leapYear y with
  | true =>
    interval_cases m
    all_goals
      norm_num
      omega
  | false =>
    interval_cases m
    all_goals
      norm_num
      omega

/- The days of the months before. -/
theorem dayNumber_month (y : Int) {m : Nat} (hYear : m < 12) :
    dayNumber y (m + 1) 1 = dayNumber y 1 1 + ((List.range m).map fun i =>
        monthLength y (i + 1)).sum := by
  induction m with
  | zero => simp
  | succ m ih =>
    have hNext := @dayNumber_succ y (m + 1) (Nat.succ_pos m) hYear
    rw [hNext, ih (Nat.lt_of_succ_lt hYear), List.range_succ]
    simp only [List.map_append, List.map_cons, List.map_nil,
      List.sum_append, List.sum_cons, List.sum_nil]
    omega

theorem dayNumber_day (y : Int) (m d : Nat) : dayNumber y m d = dayNumber y m 1 + d - 1 := by
  unfold dayNumber
  omega

end Wmail.Calendar
