import Mathlib.Data.List.TakeWhile
import Wmail.Core.CivilDate
import Wmail.Rfc822.DateRoundTrip

/-
  Time stamps of the calendar (pcpgmtime.c).

  The C library's times are those of the calendar, and local
  time is a fixed offset, in seconds, from UTC.

  Key theorems include:
    * `pcpGmtime_eq`
    * `pcpGmtimeS_pcpGmtimestr`
-/

namespace Wmail

open Calendar

namespace Pcp

/- `localtime`, with the year and the month as they are read. -/
def localtime (offset t : Int) : Time :=
  timeOf (t + offset)

/- `mktime` of a date and a time of day. -/
def mktime (offset : Int) (tm : Time) : Int :=
  tm.stamp - offset

def leap (y : Int) : Bool :=
  y % 400 = 0 || (y % 4 = 0 && y % 100 ≠ 0)

def mlength : List Nat :=
  [31, 28, 31, 30, 31, 30, 31, 31, 30, 31, 30, 31]

def mdays (m : Nat) (y : Int) : Nat :=
  if m ≠ 2 then mlength.getD (m - 1) 0 else if leap y then 29 else 28

def tmcmp (a b : Date) : Int :=
  if a.year < b.year then
    -1
  else if a.year > b.year then
    1
  else if a.month < b.month then
    -1
  else if a.month > b.month then
    1
  else if a.day < b.day then
    -1
  else if a.day > b.day then
    1
  else
    0

/-
  A loop of `pcp_gmtime`: while the date of `t` in UTC is off,
  go on by a day.
-/
def stepDays (off : Date → Bool) (day : Int) : Nat → Int → Option Int
  | 0, _ => none
  | fuel + 1, t =>
    if off (timeOf t).date then stepDays off day fuel (t + day) else some t

/- The arguments that `pcp_gmtime` takes. -/
def InRange (y m d hh mm ss : Int) : Prop :=
  ¬ (y < 1970 ∨ y > 3000 ∨ m < 1 ∨ m > 12 ∨ d < 1 ∨ d > mdays m.toNat y ∨ hh < 0 ∨ mm < 0 ∨ ss < 0 ∨
    hh > 23 ∨ mm > 59 ∨ ss > 59)

instance (y m d hh mm ss : Int) : Decidable (InRange y m d hh mm ss) :=
  inferInstanceAs (Decidable (¬ _))

/-
  `pcp_gmtime`; none where `fuel` is too small for a loop.
  The second `mktime` is for a change of the zone.
-/
def pcpGmtime (offset : Int) (fuel : Nat) (y m d hh mm ss : Int) : Option Int :=
  if ¬ InRange y m d hh mm ss then
    some 0
  else
    let date : Date := ⟨y, m.toNat, d.toNat⟩
    let midnight : Time := ⟨date, 0, 0, 0⟩
    if mktime offset midnight = -1 then
      some 0
    else
      let t := mktime offset midnight
      let tm := localtime offset t
      if tm.hour ≠ 0 ∨ tm.min ≠ 0 ∨ tm.sec ≠ 0 then
        some 0
      else
        let found :=
          if tmcmp (timeOf t).date date < 0 then
            stepDays (tmcmp · date < 0) 86400 fuel t
          else
            stepDays (tmcmp · date > 0) (-86400) fuel t
        found.map fun t => t - (timeOf t).seconds + hh * 3600 + mm * 60 + ss

/- `%<width>d` of `sscanf`. -/
def scanField (width : Nat) (text : List Byte) : Option (Int × List Byte) :=
  let text := text.dropWhile isspace
  let hasSign :=
    text.head? = some (chr '-') ∨ text.head? = some (chr '+')
  let size := if hasSign then 1 else 0
  let digits := ((text.drop size).take (width - size)).takeWhile isdigit
  if digits = [] then
    none
  else
    some (if text.head? = some (chr '-') then
        -decimalValue digits
      else
        decimalValue digits,
      text.drop (size + digits.length))

def scanFields : List Nat → List Byte → Option (List Int)
  | [], _ => some []
  | width :: widths, text =>
    (scanField width text).bind fun found => (scanFields widths found.2).map (found.1 :: ·)

/- `pcp_gmtime_s`. -/
def pcpGmtimeS (offset : Int) (fuel : Nat) (p : List Byte) : Option Int :=
  match scanFields [4, 2, 2, 2, 2, 2] p with
  | some [y, m, d, hh, mm, ss] => pcpGmtime offset fuel y m d hh mm ss
  | _ => some 0

/- `pcp_gmtimestr`. -/
def pcpGmtimestr (t : Int) : List Byte :=
  let tm := timeOf t
  Rfc822.signed [] 4 tm.date.year ++ (Rfc822.padded 2 tm.date.month ++
      (Rfc822.padded 2 tm.date.day ++
        (Rfc822.padded 2 tm.hour ++ (Rfc822.padded 2 tm.min ++ Rfc822.padded 2 tm.sec))))

theorem mdays_eq {m : Nat} (hPos : 0 < m) (hYear : m ≤ 12) (y : Int) :
    mdays m y = monthLength y m := by
  have hLeap : leap y = leapYear y := by
    unfold leap leapYear
    rw [Bool.eq_iff_iff]
    simp only [Bool.or_eq_true, Bool.and_eq_true, decide_eq_true_eq]
    omega
  unfold mdays monthLength
  rw [hLeap]
  interval_cases m <;> rfl

theorem tmcmp_lt (a b : Date) : tmcmp a b < 0 ↔ a.Before b := by
  unfold tmcmp Date.Before
  split_ifs <;> omega

theorem tmcmp_gt (a b : Date) : tmcmp a b > 0 ↔ b.Before a := by
  unfold tmcmp Date.Before
  split_ifs <;> omega

theorem before_irrefl (a : Date) : ¬ a.Before a := by
  unfold Date.Before
  omega

/- The time that the arguments stand for. -/
def argTime (y m d hh mm ss : Int) : Time :=
  ⟨⟨y, m.toNat, d.toNat⟩, hh.toNat, mm.toNat, ss.toNat⟩

section InRange

variable {y m d hh mm ss : Int}

theorem InRange.valid (hRange : InRange y m d hh mm ss) : (argTime y m d hh mm ss).Valid := by
  unfold InRange at hRange
  have hDays := @mdays_eq m.toNat (by omega) (by omega) y
  refine ⟨⟨?_, ?_, ?_, ?_⟩, ?_, ?_, ?_⟩
  all_goals
    simp only [argTime]
    omega

/-
  Local midnight is less than a day off from midnight in UTC,
  so that one step leads to the day.
-/
theorem pcpGmtime_eq {offset : Int} (hMinutes : offset % 60 = 0)
    (hDay : -86400 < offset ∧ offset < 86400) (hRange : InRange y m d hh mm ss) (fuel : Nat) :
    pcpGmtime offset (fuel + 2) y m d hh mm ss = some (argTime y m d hh mm ss).stamp := by
  have hDate : (⟨y, m.toNat, d.toNat⟩ : Date).Valid := hRange.valid.date
  have hFields : 0 ≤ hh ∧ 0 ≤ mm ∧ 0 ≤ ss := by
    unfold InRange at hRange
    omega
  have hStamp : (argTime y m d hh mm ss).stamp =
      (⟨y, m.toNat, d.toNat⟩ : Date).number * 86400 + (hh * 3600 + mm * 60 + ss) := by
    simp only [argTime, Time.stamp, Time.seconds]
    omega
  rw [hStamp, pcpGmtime, if_neg (not_not.mpr hRange)]
  generalize (⟨y, m.toNat, d.toNat⟩ : Date) = date at hDate
  have hMidnight : (⟨date, 0, 0, 0⟩ : Time).Valid :=
    ⟨hDate, Nat.succ_pos 23, Nat.succ_pos 59, Nat.succ_pos 59⟩
  have hTime : mktime offset ⟨date, 0, 0, 0⟩ = date.number * 86400 - offset := by
    simp [mktime, Time.stamp, Time.seconds]
  have hLocal : localtime offset (mktime offset ⟨date, 0, 0, 0⟩) = ⟨date, 0, 0, 0⟩ := by
    unfold localtime mktime
    rw [Int.sub_add_cancel, timeOf_stamp hMidnight]
  have hDateOf : ∀ t, t / 86400 = date.number → (timeOf t).date = date := by
    intro t hT
    rw [← dateOf_number hDate, ← hT]
    rfl
  dsimp only
  rw [if_neg (by rw [hTime]; omega), hLocal]
  simp only [ne_eq, not_true_eq_false, or_self, if_false, hTime]
  rcases lt_or_ge 0 offset with hEast | hWest
  · -- the date in UTC is that of the day before
    have hBefore : tmcmp (timeOf (date.number * 86400 - offset)).date date < 0 := by
      rw [tmcmp_lt, before_iff (timeOf_spec _).1.date hDate]
      have hNumber := (dateOf_spec ((date.number * 86400 - offset) / 86400)).2
      change (dateOf _).number < _
      omega
    have hNext := hDateOf (date.number * 86400 - offset + 86400) (by omega)
    have hThere : ¬ tmcmp date date < 0 := by
      rw [tmcmp_lt]
      exact before_irrefl date
    rw [if_pos hBefore]
    simp only [stepDays, hBefore, hNext, hThere, decide_true, decide_false, if_true,
      Bool.false_eq_true, if_false, Option.map_some, seconds_timeOf]
    rw [Option.some.injEq]
    omega
  · have hSame := hDateOf (date.number * 86400 - offset) (by omega)
    have hThere : ¬ tmcmp date date < 0 ∧ ¬ tmcmp date date > 0 := by
      rw [tmcmp_lt, tmcmp_gt]
      exact ⟨before_irrefl date, before_irrefl date⟩
    rw [hSame, if_neg hThere.1]
    simp only [stepDays, hSame, hThere.2, decide_false, Bool.false_eq_true, if_false,
      Option.map_some, seconds_timeOf]
    rw [Option.some.injEq]
    omega

end InRange

theorem length_decimalDigits {k n : Nat} (hPos : 0 < k) (hSmall : n < 10 ^ k) (room : Nat) :
    (decimalDigits room n).length ≤ k := by
  induction room generalizing n k with
  | zero => exact Nat.zero_le k
  | succ room ih =>
    rw [decimalDigits, List.length_append]
    split
    · exact hPos
    · rename_i hMore
      cases k with
      | zero => cases hPos
      | succ k =>
        rw [Nat.pow_succ] at hSmall
        have hFront : n / 10 < 10 ^ k := by omega
        cases k with
        | zero =>
          rw [Nat.pow_zero] at hFront
          omega
        | succ k => exact Nat.succ_le_succ (ih (Nat.succ_pos k) hFront)

theorem length_padded {width n : Nat} (hPos : 0 < width) (hSmall : n < 10 ^ width) :
    (Rfc822.padded width n).length = width := by
  have hLength := length_decimalDigits hPos hSmall 20
  unfold Rfc822.padded
  rw [List.length_append, List.length_replicate]
  omega

/- A number that fills its field is read back. -/
theorem scanField_padded {width n : Nat} (hPos : 0 < width) (hWidth : width < 20)
    (hSmall : n < 10 ^ width) (rest : List Byte) :
    scanField width (Rfc822.padded width n ++ rest) = some ((n : Int), rest) := by
  have hLength := length_padded hPos hSmall
  have hDigits : ∀ b, b ∈ Rfc822.padded width n →
      isdigit b = true := fun b hMem => Rfc822.isdigit_padded hMem
  have hValue := Rfc822.decimalValue_padded (Nat.lt_trans hSmall
    (Nat.pow_lt_pow_right (by decide) hWidth)) width
  generalize Rfc822.padded width n = digits at hLength hDigits hValue
  cases digits with
  | nil =>
    rw [List.length_nil] at hLength
    omega
  | cons d digits =>
    have hFirst := isspace_of_isdigit (hDigits d List.mem_cons_self)
    have hBlank : ¬ isspace d = true := Bool.eq_false_iff.mp hFirst.1
    have hTake : ((d :: digits ++ rest).take width).takeWhile isdigit = d :: digits := by
      rw [← hLength, List.take_left, List.takeWhile_eq_self_iff]
      exact hDigits
    have hDrop : (d :: digits ++ rest).drop width = rest := by rw [← hLength, List.drop_left]
    unfold scanField
    rw [List.cons_append, List.dropWhile_cons_of_neg hBlank, ← List.cons_append]
    simp only [List.cons_append, List.head?_cons, Option.some.injEq, hFirst.2.1, hFirst.2.2,
      or_self, if_false, List.drop_zero, Nat.sub_zero]
    rw [← List.cons_append, hTake, hValue, if_neg (List.cons_ne_nil d digits), Nat.zero_add,
      hLength, hDrop]

theorem scanFields_padded {width n : Nat} (hPos : 0 < width) (hWidth : width < 20)
    (hSmall : n < 10 ^ width) (widths : List Nat) (rest : List Byte) :
    scanFields (width :: widths) (Rfc822.padded width n ++ rest) =
      (scanFields widths rest).map ((n : Int) :: ·) := by
  rw [scanFields, scanField_padded hPos hWidth hSmall]
  rfl

/- The first day of the year 3001. -/
def lastStamp : Int :=
  dayNumber 3001 1 1 * 86400

section Stamp

variable {t : Int}

/- The fields of a time up to the year 3000. -/
theorem range_of_stamp (hTime : 0 < t ∧ t < lastStamp) : let tm := timeOf t
    InRange tm.date.year tm.date.month tm.date.day tm.hour
      tm.min tm.sec := by
  have hSpec := timeOf_spec t
  have hDate := hSpec.1.date
  have hIn := hDate.in_year
  have hNumber : (timeOf t).date.number = t / 86400 := (dateOf_spec (t / 86400)).2
  have hFirst : dayNumber 1970 1 1 = 0 := rfl
  unfold lastStamp at hTime
  have hLow : ¬ (timeOf t).date.year < 1970 := by
    intro hLess
    have hYears := dayNumber_years hLess
    omega
  have hHigh : ¬ 3000 < (timeOf t).date.year := by
    intro hLess
    have hYears : dayNumber 3001 1 1 ≤ dayNumber (timeOf t).date.year 1 1 := by
      rcases Int.lt_or_eq_of_le hLess with hAfter | hSame
      · have hMore := dayNumber_years hAfter
        have hStep : dayNumber (3000 + 1) 1 1 ≤ dayNumber (3000 + 1 + 1) 1 1 := by decide
        exact Int.le_trans hStep hMore
      · rw [← hSame]
        exact Int.le_refl _
    omega
  have hDays := mdays_eq hDate.month_pos hDate.month_le (timeOf t).date.year
  have hMonth := hDate.month_pos
  have hMonth' := hDate.month_le
  have hDay := hDate.day_pos
  have hDay' := hDate.day_le
  have hHour := hSpec.1.hour
  have hMin := hSpec.1.min
  have hSec := hSpec.1.sec
  unfold InRange
  dsimp only
  rw [Int.toNat_natCast, hDays]
  omega

/- Every field of a written time has its width. -/
theorem fields_of_stamp (hTime : 0 < t ∧ t < lastStamp) :
    ∃ y : Nat, (timeOf t).date.year = y ∧ y < 10 ^ 4 ∧ (timeOf t).date.month < 10 ^ 2 ∧
      (timeOf t).date.day < 10 ^ 2 ∧ (timeOf t).hour < 10 ^ 2 ∧
      (timeOf t).min < 10 ^ 2 ∧ (timeOf t).sec < 10 ^ 2 ∧
      pcpGmtimestr t = Rfc822.padded 4 y ++ (Rfc822.padded 2 (timeOf t).date.month ++
          (Rfc822.padded 2 (timeOf t).date.day ++
            (Rfc822.padded 2 (timeOf t).hour ++
              (Rfc822.padded 2 (timeOf t).min ++ Rfc822.padded 2 (timeOf t).sec)))) := by
  have hRange := range_of_stamp hTime
  have hSpec := (timeOf_spec t).1
  have hMonth := hSpec.date.month_le
  have hDays := hSpec.date.day_le
  have hHour := hSpec.hour
  have hMin := hSpec.min
  have hSec := hSpec.sec
  have hLength : monthLength (timeOf t).date.year (timeOf t).date.month ≤ 31 := by
    unfold monthLength
    split_ifs <;> decide
  unfold InRange at hRange
  dsimp only at hRange
  refine ⟨(timeOf t).date.year.natAbs, by omega, by omega,
    by omega, by omega, by omega, by omega, by omega, ?_⟩
  unfold pcpGmtimestr Rfc822.signed
  dsimp only
  rw [if_neg (by omega)]
  rfl

/- Every field of a written time is read back. -/
theorem scanFields_pcpGmtimestr (hTime : 0 < t ∧ t < lastStamp) :
    scanFields [4, 2, 2, 2, 2, 2] (pcpGmtimestr t) =
      some [(timeOf t).date.year, (timeOf t).date.month,
        (timeOf t).date.day, (timeOf t).hour, (timeOf t).min,
        (timeOf t).sec] := by
  rcases fields_of_stamp hTime with ⟨y, hYear, hY, hMonth, hDay, hHour, hMin, hSec, hText⟩
  rw [hText, scanFields_padded (by decide) (by decide) hY,
    scanFields_padded (by decide) (by decide) hMonth,
    scanFields_padded (by decide) (by decide) hDay,
    scanFields_padded (by decide) (by decide) hHour,
    scanFields_padded (by decide) (by decide) hMin,
    ← List.append_nil (Rfc822.padded 2 (timeOf t).sec),
    scanFields_padded (by decide) (by decide) hSec, hYear]
  rfl

/- A written time has 14 digits. -/
theorem digits_of_stamp (hTime : 0 < t ∧ t < lastStamp) : (pcpGmtimestr t).length = 14 ∧
      ∀ b, b ∈ pcpGmtimestr t → isdigit b = true := by
  rcases fields_of_stamp hTime with ⟨y, _, hY, hMonth, hDay, hHour, hMin, hSec, hText⟩
  rw [hText]
  constructor
  · simp only [List.length_append, length_padded (Nat.succ_pos 3) hY,
      length_padded (Nat.succ_pos 1) hMonth, length_padded (Nat.succ_pos 1) hDay,
      length_padded (Nat.succ_pos 1) hHour, length_padded (Nat.succ_pos 1) hMin,
      length_padded (Nat.succ_pos 1) hSec]
  · intro b hMem
    simp only [List.mem_append] at hMem
    rcases hMem with hIn | hIn | hIn | hIn | hIn | hIn
    all_goals exact Rfc822.isdigit_padded hIn

end Stamp

/- The loops come to an end whatever the arguments are. -/
theorem pcpGmtime_some {offset : Int} (hMinutes : offset % 60 = 0)
    (hDay : -86400 < offset ∧ offset < 86400) (y m d hh mm ss : Int) :
    ∃ t, ∀ fuel, 2 ≤ fuel → pcpGmtime offset fuel y m d hh mm ss = some t := by
  by_cases hRange : InRange y m d hh mm ss
  · refine ⟨(argTime y m d hh mm ss).stamp, ?_⟩
    intro fuel hFuel
    rw [← Nat.sub_add_cancel hFuel]
    exact pcpGmtime_eq hMinutes hDay hRange (fuel - 2)
  · refine ⟨0, ?_⟩
    intro fuel _
    rw [pcpGmtime, if_pos hRange]

/-
  A time that is written is read back as it was, and the loops
  come to an end, whatever is read.
-/
theorem pcpGmtimeS_pcpGmtimestr {offset : Int} (hMinutes : offset % 60 = 0)
    (hDay : -86400 < offset ∧ offset < 86400) :
    (∀ p, ∃ t, ∀ fuel, 2 ≤ fuel → pcpGmtimeS offset fuel p = some t) ∧
    ∀ t, 0 < t → t < lastStamp → ∀ fuel, 2 ≤ fuel →
      pcpGmtimeS offset fuel (pcpGmtimestr t) = some t := by
  constructor
  · intro p
    unfold pcpGmtimeS
    split
    · exact pcpGmtime_some hMinutes hDay _ _ _ _ _ _
    · exact ⟨0, fun _ _ => rfl⟩
  · intro t hPos hLast fuel hFuel
    have hRange := range_of_stamp ⟨hPos, hLast⟩
    have hArgs : ∀ tm : Time, argTime tm.date.year tm.date.month
        tm.date.day tm.hour tm.min tm.sec = tm := fun _ => rfl
    unfold pcpGmtimeS
    rw [scanFields_pcpGmtimestr ⟨hPos, hLast⟩, ← Nat.sub_add_cancel hFuel]
    dsimp only
    rw [pcpGmtime_eq hMinutes hDay hRange, hArgs, (timeOf_spec t).2]

/- A zone that is 5 hours and 30 minutes ahead. -/
theorem pcpGmtimeS_leapDay : pcpGmtimestr 951782399 = bytes "20000228235959" ∧
      pcpGmtimeS 19800 2 (pcpGmtimestr 951782399) = some 951782399 := by
  refine ⟨by decide +kernel, ?_⟩
  exact (pcpGmtimeS_pcpGmtimestr (by decide)
    ⟨by decide, by decide⟩).2 951782399 (by decide) (by decide) 2
    (Nat.le_refl 2)

end Pcp

end Wmail
