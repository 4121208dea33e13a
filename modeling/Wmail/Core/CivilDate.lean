import Wmail.Core.Calendar

/-
  Dates and times of the proleptic Gregorian calendar, and the
  date of a day that is given by its number.

  Key theorems include:
    * `timeOf_spec`
    * `timeOf_stamp`
-/

namespace Wmail.Calendar

/- A date; months and days are counted from 1. -/
structure Date where
  year : Int
  month : Nat
  day : Nat
deriving DecidableEq, Repr

structure Date.Valid (date : Date) : Prop where
  month_pos : 0 < date.month
  month_le : date.month ≤ 12
  day_pos : 0 < date.day
  day_le : date.day ≤ monthLength date.year date.month

/- The days since the first of January 1970. -/
def Date.number (date : Date) : Int :=
  dayNumber date.year date.month date.day

/- The order of dates, by year, month and day. -/
def Date.Before (a b : Date) : Prop :=
  a.year < b.year ∨ a.year = b.year ∧ (a.month < b.month ∨ a.month = b.month ∧ a.day < b.day)

instance (a b : Date) : Decidable (a.Before b) :=
  inferInstanceAs (Decidable (_ ∨ _ ∧ (_ ∨ _ ∧ _)))

theorem number_eq (a : Date) : a.number = dayNumber a.year a.month 1 + a.day - 1 :=
  dayNumber_day a.year a.month a.day

/- December is the last month. -/
theorem dayNumber_december (y : Int) : dayNumber (y + 1) 1 1 = dayNumber y 12 1 + 31 := by
  cases hLeap : leapYear y with
  | true =>
    rw [dayNumber_leapYear hLeap]
    unfold dayNumber
    rw [hLeap]
    norm_num
    omega
  | false =>
    rw [dayNumber_year hLeap]
    unfold dayNumber
    rw [hLeap]
    norm_num
    omega

theorem dayNumber_years {y z : Int} (hLess : y < z) : dayNumber (y + 1) 1 1 ≤ dayNumber z 1 1 := by
  unfold dayNumber
  rw [if_pos (by decide), if_pos (by decide)]
  omega

/- The months of a year come one after the other. -/
theorem dayNumber_months (y : Int) {m k : Nat} (hPos : 0 < m) (hLess : m < k)
    (hYear : k ≤ 12) : dayNumber y m 1 + monthLength y m ≤ dayNumber y k 1 := by
  induction k with
  | zero => cases hLess
  | succ k ih =>
    have hNext := @dayNumber_succ y k (by omega) hYear
    rcases Nat.lt_succ_iff_lt_or_eq.mp hLess with hBefore | hSame
    · have hHere := ih hBefore (Nat.le_of_succ_le hYear)
      omega
    · rw [hSame, hNext]

section Order

variable {a b : Date}

/- A day is in its year. -/
theorem Date.Valid.in_year (hA : a.Valid) : dayNumber a.year 1 1 ≤ a.number ∧
      a.number < dayNumber (a.year + 1) 1 1 := by
  have hLength := hA.day_le
  have hPos := hA.day_pos
  have hNext := dayNumber_december a.year
  have hLast : monthLength a.year 12 = 31 := rfl
  rw [number_eq]
  constructor
  · rcases Nat.lt_or_eq_of_le hA.month_pos with hAfter | hFirst
    · have hMonths := dayNumber_months a.year Nat.one_pos hAfter hA.month_le
      omega
    · rw [← hFirst, Nat.succ_eq_add_one, Nat.zero_add]
      omega
  · rcases Nat.lt_or_eq_of_le hA.month_le with hBefore | hEnd
    · have hMonths := dayNumber_months a.year hA.month_pos hBefore (Nat.le_refl 12)
      omega
    · rw [hEnd] at hLength ⊢
      omega

theorem number_lt (hA : a.Valid) (hB : b.Valid) (hBefore : a.Before b) : a.number < b.number := by
  rcases hBefore with hYear | ⟨hYear, hMonth | ⟨hMonth, hDay⟩⟩
  · have hYears := dayNumber_years hYear
    have hIn := hA.in_year
    have hOther := hB.in_year
    omega
  · have hMonths := dayNumber_months a.year hA.month_pos hMonth hB.month_le
    have hLength := hA.day_le
    have hPos := hB.day_pos
    rw [number_eq, number_eq, ← hYear]
    omega
  · rw [number_eq, number_eq, hYear, hMonth]
    omega

theorem before_or (a b : Date) : a.Before b ∨ a = b ∨ b.Before a := by
  cases a
  cases b
  simp only [Date.Before, Date.mk.injEq]
  omega

/- The dates are in the order of their days. -/
theorem before_iff (hA : a.Valid) (hB : b.Valid) : a.Before b ↔ a.number < b.number := by
  refine ⟨number_lt hA hB, ?_⟩
  intro hLess
  rcases before_or a b with hBefore | hSame | hAfter
  · exact hBefore
  · rw [hSame] at hLess
    omega
  · have hMore := number_lt hB hA hAfter
    omega

theorem number_inj (hA : a.Valid) (hB : b.Valid) (hNumber : a.number = b.number) : a = b := by
  rcases before_or a b with hBefore | hSame | hAfter
  · have hLess := number_lt hA hB hBefore
    omega
  · exact hSame
  · have hLess := number_lt hB hA hAfter
    omega

end Order

/-
  The year of a day, which is counted from the first of
  January of the year 1.  400 years have 146097 days, and 100
  years, 4 years and 1 year 36524, 1461 and 365, if they are
  not the last of theirs.
-/
def yearOf (n : Int) : Int :=
  let rest := n % 146097
  let c := min (rest / 36524) 3
  let q := (rest - 36524 * c) / 1461
  let y := min ((rest - 36524 * c - 1461 * q) / 365) 3
  400 * (n / 146097) + 100 * c + 4 * q + y + 1

/- The month of a day, if it is not behind the given one. -/
def monthOf (y n : Int) : Nat → Nat
  | 0 => 1
  | m + 1 => if dayNumber y (m + 1) 1 ≤ n then m + 1 else monthOf y n m

/- The date of a day. -/
def dateOf (n : Int) : Date :=
  let year := yearOf (n + 719162)
  let month := monthOf year n 12
  ⟨year, month, (n - dayNumber year month 1 + 1).toNat⟩

example : dateOf 11016 = ⟨2000, 2, 29⟩ := by
  decide

/- The year before the one with `y` years behind its fourth. -/
theorem years_ediv {w c q y : Int} (hC : 0 ≤ c ∧ c ≤ 3) (hQ : 0 ≤ q ∧ q ≤ 24)
    (hY : 0 ≤ y ∧ y ≤ 3) :
    (400 * w + 100 * c + 4 * q + y) / 4 = 100 * w + 25 * c + q ∧
      (400 * w + 100 * c + 4 * q + y) / 100 = 4 * w + c ∧
        (400 * w + 100 * c + 4 * q + y) / 400 = w := by
  omega

/- The year itself, which may be the first of its four, its hundred, its four hundred. -/
theorem years_succ_ediv {w c q y : Int} (hC : 0 ≤ c ∧ c ≤ 3) (hQ : 0 ≤ q ∧ q ≤ 24)
    (hY : 0 ≤ y ∧ y ≤ 3) :
    (400 * w + 100 * c + 4 * q + y + 1) / 4 = 100 * w + 25 * c + q + (if y = 3 then 1 else 0) ∧
      (400 * w + 100 * c + 4 * q + y + 1) / 100 = 4 * w + c + (if q = 24 ∧ y = 3 then 1 else 0) ∧
        (400 * w + 100 * c + 4 * q + y + 1) / 400 =
          w + (if c = 3 ∧ q = 24 ∧ y = 3 then 1 else 0) := by
  refine ⟨?_, ?_, ?_⟩
  · split_ifs <;> omega
  · split_ifs <;> omega
  · split_ifs <;> omega

theorem yearOf_spec (n : Int) : dayNumber (yearOf (n + 719162)) 1 1 ≤ n ∧
      n < dayNumber (yearOf (n + 719162) + 1) 1 1 := by
  unfold dayNumber yearOf
  rw [if_pos (by decide), if_pos (by decide)]
  dsimp only
  generalize hWhole : (n + 719162) / 146097 = w
  generalize hRest : (n + 719162) % 146097 = r
  have hDays : n = 146097 * w + r - 719162 ∧ 0 ≤ r ∧ r < 146097 := by omega
  clear hWhole hRest
  -- how many of each there are, and when the last is longer
  generalize hC : min (r / 36524) 3 = c
  have hCentury : 0 ≤ c ∧ c ≤ 3 ∧ 36524 * c ≤ r ∧ (r < 36524 * c + 36524 ∨ c = 3 ∧ r < 146097) := by
    omega
  clear hC
  generalize hQ : (r - 36524 * c) / 1461 = q
  have hFour : 0 ≤ q ∧ q ≤ 24 ∧ 1461 * q ≤ r - 36524 * c ∧ r - 36524 * c < 1461 * q + 1461 := by
    omega
  clear hQ
  generalize hY : min ((r - 36524 * c - 1461 * q) / 365) 3 = y
  have hYear : 0 ≤ y ∧ y ≤ 3 ∧ 365 * y ≤ r - 36524 * c - 1461 * q ∧
      (r - 36524 * c - 1461 * q < 365 * y + 365 ∨ y = 3) := by
    omega
  clear hY
  have hHere := @years_ediv w c q y (by omega) (by omega) (by omega)
  have hThere := @years_succ_ediv w c q y (by omega) (by omega) (by omega)
  constructor
  · rw [add_sub_cancel_right, hHere.1, hHere.2.1, hHere.2.2]
    omega
  · rw [add_sub_cancel_right, hThere.1, hThere.2.1, hThere.2.2]
    clear hHere hThere
    split_ifs <;> omega

theorem monthOf_spec {y n : Int} {m : Nat} (hPos : 0 < m) (hYear : m ≤ 12)
    (hFirst : dayNumber y 1 1 ≤ n) (hLast : n < dayNumber y m 1 + monthLength y m) :
    0 < monthOf y n m ∧ monthOf y n m ≤ m ∧ dayNumber y (monthOf y n m) 1 ≤ n ∧
      n < dayNumber y (monthOf y n m) 1 + monthLength y (monthOf y n m) := by
  induction m with
  | zero => cases hPos
  | succ m ih =>
    rw [monthOf]
    split
    · rename_i hHere
      exact ⟨Nat.succ_pos m, Nat.le_refl _, hHere, hLast⟩
    · rename_i hAfter
      rcases Nat.eq_zero_or_pos m with hZero | hMore
      · rw [hZero] at hAfter
        exact absurd hFirst hAfter
      · have hNext := dayNumber_succ y hMore hYear
        have hBefore := ih hMore (Nat.le_of_succ_le hYear) (by omega)
        omega

theorem dateOf_spec (n : Int) : (dateOf n).Valid ∧ (dateOf n).number = n := by
  have hYear := yearOf_spec n
  have hNext := dayNumber_december (yearOf (n + 719162))
  have hLast : monthLength (yearOf (n + 719162)) 12 = 31 := rfl
  have hMonth := @monthOf_spec (yearOf (n + 719162)) n 12
    (by decide) (Nat.le_refl 12) hYear.1 (by omega)
  refine ⟨⟨hMonth.1, hMonth.2.1, ?_, ?_⟩, ?_⟩
  · simp only [dateOf]
    omega
  · simp only [dateOf]
    omega
  · rw [number_eq]
    simp only [dateOf]
    omega

theorem dateOf_number {a : Date} (hA : a.Valid) : dateOf a.number = a :=
  number_inj (dateOf_spec _).1 hA (dateOf_spec _).2

/- A time of a day. -/
structure Time where
  date : Date
  hour : Nat
  min : Nat
  sec : Nat
deriving DecidableEq, Repr

structure Time.Valid (time : Time) : Prop where
  date : time.date.Valid
  hour : time.hour < 24
  min : time.min < 60
  sec : time.sec < 60

/- The seconds since midnight. -/
def Time.seconds (time : Time) : Int :=
  time.hour * 3600 + time.min * 60 + time.sec

/- The seconds since the first of January 1970. -/
def Time.stamp (time : Time) : Int :=
  time.date.number * 86400 + time.seconds

/- The time of a number of seconds. -/
def timeOf (t : Int) : Time where
  date := dateOf (t / 86400)
  hour := (t % 86400 / 3600).toNat
  min := (t % 3600 / 60).toNat
  sec := (t % 60).toNat

theorem seconds_timeOf (t : Int) : (timeOf t).seconds = t % 86400 := by
  unfold Time.seconds timeOf
  dsimp only
  omega

theorem timeOf_spec (t : Int) : (timeOf t).Valid ∧ (timeOf t).stamp = t := by
  have hDate := dateOf_spec (t / 86400)
  refine ⟨⟨hDate.1, ?_, ?_, ?_⟩, ?_⟩
  · unfold timeOf
    dsimp only
    omega
  · unfold timeOf
    dsimp only
    omega
  · unfold timeOf
    dsimp only
    omega
  · unfold Time.stamp
    rw [seconds_timeOf]
    have hNumber : (timeOf t).date.number = t / 86400 := hDate.2
    omega

theorem Time.Valid.seconds {time : Time} (hTime : time.Valid) :
    0 ≤ time.seconds ∧ time.seconds < 86400 := by
  have hHour := hTime.hour
  have hMin := hTime.min
  have hSec := hTime.sec
  unfold Time.seconds
  omega

theorem timeOf_stamp {time : Time} (hTime : time.Valid) : timeOf time.stamp = time := by
  have hSeconds := hTime.seconds
  have hDay : time.stamp / 86400 = time.date.number := by
    unfold Time.stamp
    omega
  have hDate : (timeOf time.stamp).date = time.date := by
    have hOut := dateOf_number hTime.date
    rw [← hDay] at hOut
    exact hOut
  have hSame := seconds_timeOf time.stamp
  have hRest : time.stamp % 86400 = time.seconds := by
    unfold Time.stamp
    omega
  rw [hRest] at hSame
  have hValid := (timeOf_spec time.stamp).1
  generalize timeOf time.stamp = found at hDate hSame hValid
  have hHour := hTime.hour
  have hMin := hTime.min
  have hSec := hTime.sec
  have hHour' := hValid.hour
  have hMin' := hValid.min
  have hSec' := hValid.sec
  unfold Time.seconds at hSame
  cases found
  cases time
  simp only [Time.mk.injEq]
  dsimp only at *
  exact ⟨hDate, by omega⟩

end Wmail.Calendar
