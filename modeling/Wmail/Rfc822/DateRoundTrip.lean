import Mathlib.Algebra.BigOperators.Ring.List
import Mathlib.Tactic.Ring
import Wmail.Core.Calendar
import Wmail.Core.Decimal
import Wmail.Rfc822.ParseDate

/-
  Dates as they are written (rfc822_mkdate.c), and read back.

  The C library's `localtime` and `gmtime` are parameters.

  Key theorems include:
    * `rfc822Parsedt_written`
    * `rfc822Parsedt_mkdateBuf`
-/

namespace Wmail.Rfc822

/-
  `struct tm`: the month is counted from 0 and the year from
  1900.
-/
structure Tm where
  sec : Nat
  min : Nat
  hour : Nat
  mday : Nat
  mon : Nat
  year : Int
  wday : Nat
  isdst : Int
  gmtoff : Int
deriving DecidableEq, Repr

/- How the program was configured to find the zone. -/
inductive UseTime
  | altzone
  | daylight
  | gmtoff
  | none
deriving DecidableEq, Repr

/- What the C library says of the time. -/
structure Clock where
  use : UseTime
  localtime : Int → Tm
  gmtime : Int → Tm
  timezone : Int
  altzone : Int

/- The time that is shown. -/
def Clock.tm (clock : Clock) (t : Int) : Tm :=
  match clock.use with
  | .none => clock.gmtime t
  | _ => clock.localtime t

/- Its offset from UTC, in seconds. -/
def Clock.offset (clock : Clock) (t : Int) : Int :=
  match clock.use with
  | .altzone =>
    if (clock.tm t).isdst > 0 then -clock.altzone else -clock.timezone
  | .daylight => -clock.timezone + (if (clock.tm t).isdst > 0 then 60 * 60 else 0)
  | .gmtoff => (clock.tm t).gmtoff
  | .none => 0

def wdays : List (List Byte) :=
  ["Sun", "Mon", "Tue", "Wed", "Thu", "Fri", "Sat"].map bytes

def months : List (List Byte) :=
  ["Jan", "Feb", "Mar", "Apr", "May", "Jun", "Jul", "Aug", "Sep", "Oct", "Nov", "Dec"].map bytes

/- A number with zeros before it, as `%0*d` writes it. -/
def padded (width n : Nat) : List Byte :=
  List.replicate (width - (decimalDigits 20 n).length) (chr '0') ++ decimalDigits 20 n

/- The same with a sign, which is part of the width. -/
def signed (plus : List Byte) (width : Nat) (n : Int) : List Byte :=
  let sign := if n < 0 then bytes "-" else plus
  sign ++ padded (width - sign.length) n.natAbs

/- `rfc822_mkdate_buf`. -/
def rfc822MkdateBuf (clock : Clock) (t : Int) : List Byte :=
  let offset := clock.offset t
  let whole := offset.tmod 60 = 0
  let p := if whole then clock.tm t else clock.gmtime t
  let offset := (if whole then offset else 0).tdiv 60
  let offset := offset.tmod 60 + offset.tdiv 60 * 100
  wdays.getD p.wday [] ++ bytes ", " ++ padded 2 p.mday ++ bytes " " ++
    months.getD p.mon [] ++ bytes " " ++
    signed [] 4 (p.year + 1900) ++ bytes " " ++
    padded 2 p.hour ++ bytes ":" ++
    padded 2 p.min ++ bytes ":" ++
    padded 2 p.sec ++ bytes " " ++
    signed (bytes "+") 5 offset

example : rfc822MkdateBuf
        { use := .gmtoff
          localtime := fun _ => ⟨0, 0, 10, 25, 1, 97, 2, 0, -19800⟩
          gmtime := fun _ => ⟨0, 30, 15, 25, 1, 97, 2, 0, 0⟩
          timezone := 0
          altzone := 0 } 856884600 =
      bytes "Tue, 25 Feb 1997 10:00:00 -0530" := by
  decide

theorem leap_eq (y : Nat) : leap y = Calendar.leapYear y := by
  unfold leap Calendar.leapYear
  rw [Bool.eq_iff_iff]
  simp only [Bool.or_eq_true, Bool.and_eq_true, decide_eq_true_eq]
  omega

theorem mdays_eq (y : Nat) {m : Nat} (hPos : 0 < m) (hYear : m ≤ 12) :
    mdays m y = Calendar.monthLength y m := by
  unfold mdays Calendar.monthLength
  rw [leap_eq]
  interval_cases m
  all_goals
    rfl

/- The years from one new year's day to another. -/
theorem yearSeconds_eq {year fuel y : Nat} (hYear : y ≤ year) (hFuel : year - y ≤ fuel) :
    (yearSeconds year fuel y : Int) =
      86400 * (Calendar.dayNumber year 1 1 - Calendar.dayNumber y 1 1) := by
  induction fuel generalizing y with
  | zero =>
    have hSame : y = year := by omega
    rw [hSame]
    simp [yearSeconds]
  | succ fuel ih =>
    unfold yearSeconds
    by_cases hLess : y < year
    · rw [if_pos hLess, leap_eq]
      cases hLeap : Calendar.leapYear y with
      | true =>
        rw [if_pos rfl]
        by_cases hFour : year - y ≥ 4
        · rw [if_pos hFour]
          have hRest := @ih (y + 4) (by omega) (by omega)
          have hDays := Calendar.dayNumber_four hLeap
          push_cast at hRest ⊢
          rw [hRest, hDays]
          ring
        · rw [if_neg hFour]
          have hRest := @ih (y + 1) (by omega) (by omega)
          have hDays := Calendar.dayNumber_leapYear hLeap
          push_cast at hRest ⊢
          rw [hRest, hDays]
          ring
      | false =>
        rw [if_neg Bool.false_ne_true]
        have hRest := @ih (y + 1) (by omega) (by omega)
        have hDays := Calendar.dayNumber_year hLeap
        push_cast at hRest ⊢
        rw [hRest, hDays]
        ring
    · have hSame : y = year := by omega
      rw [if_neg hLess, hSame]
      simp

/- The months before a day of a year. -/
theorem monthSeconds_eq (year : Nat) {mon : Nat} (hYear : mon < 12) :
    (monthSeconds year (mon + 1) : Int) =
      86400 * (Calendar.dayNumber year (mon + 1) 1 - Calendar.dayNumber year 1 1) := by
  have hMonths : monthSeconds year (mon + 1) = 86400 * ((List.range mon).map fun i =>
        Calendar.monthLength year (i + 1)).sum := by
    unfold monthSeconds
    rw [Nat.add_sub_cancel, ← List.sum_map_mul_left]
    apply congrArg List.sum
    apply List.map_congr_left
    intro i hI
    have hLess := List.mem_range.mp hI
    rw [mdays_eq year (Nat.succ_pos i) (by omega)]
    ring
  rw [hMonths, Calendar.dayNumber_month year hYear]
  push_cast
  ring

theorem isdigit_padded {width n : Nat} {b : Byte} (hMem : b ∈ padded width n) :
    isdigit b = true := by
  unfold padded at hMem
  rcases List.mem_append.mp hMem with hZero | hDigit
  · rw [(List.mem_replicate.mp hZero).2]
    rfl
  · exact isdigit_decimalDigits hDigit

theorem decimalValue_padded {n : Nat} (hSmall : n < 10 ^ 20) (width : Nat) :
    decimalValue (padded width n) = n := by
  have hZeros : ∀ k digits, decimalValue (List.replicate k (chr '0') ++ digits) =
        decimalValue digits := by
    intro k digits
    induction k with
    | zero => rfl
    | succ k ih => exact ih
  unfold padded
  rw [hZeros, decimalValue_decimalDigits hSmall]

/- The value of digits, in 32-bit arithmetic. -/
theorem parsedig_fold (digits : List Byte) (n : Nat) : digits.foldl (fun i c =>
        (i * 10 + (c.toNat - 48)) % 2 ^ 32) (n % 2 ^ 32) =
      digits.foldl (fun i c => i * 10 + (c.toNat - 48)) n % 2 ^ 32 := by
  induction digits generalizing n with
  | nil => rfl
  | cons c digits ih =>
    rw [List.foldl_cons, List.foldl_cons, ← ih]
    apply congrArg (List.foldl _ · digits)
    omega

/- A padded number is read back. -/
theorem parsedig_padded {n : Nat} (hSmall : n < 2 ^ 32) (width : Nat) {rest : List Byte}
    (hRest : ∀ b, rest.head? = some b → isdigit b = false) :
    parsedig (padded width n ++ rest) = (n, rest) := by
  have hDigits : ∀ b, b ∈ padded width n → isdigit b = true := fun b hMem => isdigit_padded hMem
  have hNone : rest.takeWhile isdigit = [] ∧ rest.dropWhile isdigit = rest := by
    cases rest with
    | nil => exact ⟨rfl, rfl⟩
    | cons b more =>
      have hStop : ¬ isdigit b = true := Bool.eq_false_iff.mp (hRest b rfl)
      exact ⟨List.takeWhile_cons_of_neg hStop, List.dropWhile_cons_of_neg hStop⟩
  have hValue := parsedig_fold (padded width n) 0
  have hDecimal := decimalValue_padded (Nat.lt_trans hSmall (by decide)) width
  unfold decimalValue at hDecimal
  rw [hDecimal, Nat.mod_eq_of_lt hSmall] at hValue
  unfold parsedig
  rw [List.takeWhile_append_of_pos hDigits, List.dropWhile_append_of_pos hDigits, hNone.1, hNone.2,
    List.append_nil]
  exact congrArg (fun n => (n, rest)) hValue

/- A padded number begins with a digit. -/
theorem padded_cons (width n : Nat) :
    ∃ d digits, padded width n = d :: digits ∧ isdigit d = true := by
  cases hPadded : padded width n with
  | nil =>
    unfold padded at hPadded
    exact absurd (List.append_eq_nil_iff.mp hPadded).2 (decimalDigits_ne_nil 19 n)
  | cons d digits =>
    refine ⟨d, digits, rfl, ?_⟩
    apply @isdigit_padded width n
    rw [hPadded]
    exact List.mem_cons_self

theorem plain_of_isdigit {b : Byte} (hDigit : isdigit b = true) :
    isalpha b = false ∧ isspace b = false ∧ isalnum b = true := by
  have hAll : ∀ b, isdigit b = true → isalpha b = false ∧ isspace b = false ∧ isalnum b = true := by
    apply byte_forall
    decide +kernel
  exact hAll b hDigit

/- The name of the day is not the name of a month. -/
theorem parseDaymon_wday {wday : Nat} (hWeek : wday < 7) (fuel : Nat) (rest : List Byte) :
    parseDaymon (fuel + 3) 0 0 (wdays.getD wday [] ++ (bytes ", " ++ rest)) =
      parseDaymon fuel 0 0 rest := by
  interval_cases wday
  all_goals
    rfl

theorem parseDaymon_mday {day : Nat} (hPos : day ≠ 0) (hSmall : day < 2 ^ 32) (fuel : Nat)
    (rest : List Byte) :
    parseDaymon (fuel + 2) 0 0 (padded 2 day ++ (bytes " " ++ rest)) =
      parseDaymon fuel day 0 rest := by
  have hDig := @parsedig_padded day hSmall 2 (bytes " " ++ rest) (by
      intro b hB
      cases hB
      rfl)
  rcases padded_cons 2 day with ⟨d, digits, hPadded, hDigit⟩
  rw [hPadded, List.cons_append] at hDig ⊢
  rcases plain_of_isdigit hDigit with ⟨hAlpha, _⟩
  have hBlank : parseDaymon (fuel + 1) day 0 (bytes " " ++ rest) = parseDaymon fuel day 0 rest := by
    simp only [parseDaymon]
    rw [if_neg (by simp)]
    rfl
  simp only [parseDaymon, hAlpha, hDigit, hDig, Bool.false_eq_true, if_false, if_true]
  rw [if_neg (by simp), if_neg (by simp), if_neg hPos]
  exact hBlank

theorem parseDaymon_mon {mon : Nat} (hYear : mon < 12) {day : Nat} (hPos : day ≠ 0)
    (fuel : Nat) (rest : List Byte) :
    parseDaymon (fuel + 2) day 0 (months.getD mon [] ++ rest) = some (day, mon + 1, rest) := by
  have hDone : parseDaymon (fuel + 1) day (mon + 1) rest = some (day, mon + 1, rest) := by
    simp only [parseDaymon]
    rw [if_pos ⟨hPos, Nat.succ_ne_zero mon⟩]
  have hHere : ¬ (day ≠ 0 ∧ (0 : Nat) ≠ 0) := by
    rintro ⟨_, hZero⟩
    exact hZero rfl
  rw [← hDone]
  interval_cases mon
  all_goals
    exact if_neg hHere

/- Two digits and a colon, with a number behind it. -/
theorem afterColon_padded (width n : Nat) (rest : List Byte) :
    afterColon (bytes ":" ++ (padded width n ++ rest)) = some (padded width n ++ rest) := by
  rcases padded_cons width n with ⟨d, digits, hPadded, hDigit⟩
  rw [hPadded]
  exact if_pos ⟨rfl, hDigit⟩

theorem parsetime_padded {hour min sec : Nat} (hHour : hour ≤ 23) (hMin : min ≤ 59)
    (hSec : sec ≤ 59) (rest : List Byte) :
    parsetime (padded 2 hour ++ (bytes ":" ++ (padded 2 min ++ (bytes ":" ++
          (padded 2 sec ++ (bytes " " ++ rest)))))) =
      some (hour * 60 * 60 + min * 60 + sec, bytes " " ++ rest) := by
  have hH := @parsedig_padded hour (by omega) 2 (bytes ":" ++ (padded 2 min ++ (bytes ":" ++
      (padded 2 sec ++ (bytes " " ++ rest))))) (by
      intro b hB
      cases hB
      rfl)
  have hM := @parsedig_padded min (by omega) 2
    (bytes ":" ++ (padded 2 sec ++ (bytes " " ++ rest))) (by
      intro b hB
      cases hB
      rfl)
  have hS := @parsedig_padded sec (by omega) 2 (bytes " " ++ rest) (by
      intro b hB
      cases hB
      rfl)
  have hColon : (bytes ":" ++ (padded 2 sec ++ (bytes " " ++ rest))).head? = some (chr ':') := rfl
  have hFirst : ((padded 2 hour ++ (bytes ":" ++ (padded 2 min ++ (bytes ":" ++ (padded 2 sec ++
        (bytes " " ++ rest)))))).head?.map isdigit).getD
          false = true := by
    rcases padded_cons 2 hour with ⟨d, digits, hPadded, hDigit⟩
    rw [hPadded]
    exact hDigit
  unfold parsetime
  simp only [hFirst, hH, afterColon_padded, hM, hColon, hS, if_true, Option.map_some]
  rw [if_neg (by omega), if_neg (by omega)]

/- The zone in minutes and hours. -/
theorem offset_digits {offset : Int} (hMinutes : offset % 60 = 0)
    (hDay : -86400 < offset ∧ offset < 86400) :
    ∃ n : Nat, n % 100 ≤ 59 ∧ n ≤ 2359 ∧ offset.natAbs = n % 100 * 60 + n / 100 * 60 * 60 ∧
      (offset.tdiv 60).tmod 60 + (offset.tdiv 60).tdiv 60 * 100 =
        if offset < 0 then -(n : Int) else n := by
  have hDiv : ∀ m : Nat, (m : Int).tdiv 60 = (m / 60 : Nat) := fun m => rfl
  have hMod : ∀ m : Nat, (m : Int).tmod 60 = (m % 60 : Nat) := fun m => rfl
  refine ⟨offset.natAbs / 60 % 60 + offset.natAbs / 60 / 60 * 100, ?_, ?_, ?_, ?_⟩
  · omega
  · omega
  · omega
  · rcases Int.natAbs_eq offset with hPos | hNeg
    · rw [if_neg (by omega)]
      generalize offset.natAbs = m at hPos
      rw [hPos, hDiv, hMod, hDiv]
      push_cast
      rfl
    · by_cases hZero : offset = 0
      · rw [hZero]
        rfl
      · rw [if_pos (by omega)]
        generalize offset.natAbs = m at hNeg
        rw [hNeg, Int.neg_tdiv, hDiv, Int.neg_tdiv, Int.neg_tmod, hDiv, hMod]
        push_cast
        ring

theorem parsezone_signed {offset : Int} (hMinutes : offset % 60 = 0)
    (hDay : -86400 < offset ∧ offset < 86400) :
    parsezone (bytes " " ++ signed (bytes "+") 5 ((offset.tdiv 60).tmod 60 +
          (offset.tdiv 60).tdiv 60 * 100)) = offset := by
  rcases offset_digits hMinutes hDay with ⟨n, hMin, hHour, hSize, hShown⟩
  rw [hShown]
  have hDig := @parsedig_padded n (by omega) 4 [] (by
    intro b hB
    cases hB)
  rw [List.append_nil] at hDig
  rcases padded_cons 4 n with ⟨d, digits, hPadded, hDigit⟩
  have hFirst : ((padded 4 n).head?.map isdigit).getD false = true := by
    rw [hPadded]
    exact hDigit
  by_cases hNeg : offset < 0
  · rw [if_pos hNeg]
    have hText : signed (bytes "+") 5 (-(n : Int)) = chr '-' :: padded 4 n := by
      unfold signed
      rw [if_pos (by omega), Int.natAbs_neg, Int.natAbs_natCast]
      rfl
    have hDrop : (bytes " " ++ chr '-' :: padded 4 n).dropWhile
        (fun c => !(isalnum c || c = chr '+' || c = chr '-')) = chr '-' :: padded 4 n := rfl
    have hAlpha : isalpha (chr '-') = false := rfl
    rw [hText]
    unfold parsezone
    simp only [hDrop, hAlpha, Bool.false_eq_true, if_false, if_true, true_or, hFirst, hDig]
    rw [if_neg (by omega)]
    omega
  · rw [if_neg hNeg]
    have hText : signed (bytes "+") 5 (n : Int) = chr '+' :: padded 4 n := by
      unfold signed
      rw [if_neg (by omega), Int.natAbs_natCast]
      rfl
    have hDrop : (bytes " " ++ chr '+' :: padded 4 n).dropWhile
        (fun c => !(isalnum c || c = chr '+' || c = chr '-')) = chr '+' :: padded 4 n := rfl
    have hAlpha : isalpha (chr '+') = false := rfl
    have hOther : ¬ chr '+' = chr '-' := by decide
    rw [hText]
    unfold parsezone
    simp only [hDrop, hAlpha, Bool.false_eq_true, if_false, hOther, false_or, if_true, hFirst, hDig]
    rw [if_neg (by omega)]
    omega

/- The fields show an instant in the calendar. -/
structure Tm.Shows (tm : Tm) (seconds : Int) : Prop where
  mon : tm.mon < 12
  mday : 0 < tm.mday ∧ tm.mday ≤ Calendar.monthLength (tm.year + 1900) (tm.mon + 1)
  hour : tm.hour ≤ 23
  min : tm.min ≤ 59
  sec : tm.sec ≤ 59
  wday : tm.wday < 7
  instant : seconds = 86400 * Calendar.dayNumber (tm.year + 1900) (tm.mon + 1) tm.mday +
    3600 * tm.hour + 60 * tm.min + tm.sec

/- A date that is written from the fields of a day. -/
theorem rfc822Parsedt_written {tm : Tm} {seconds offset : Int} (hShows : tm.Shows seconds)
    (hYear : 1970 ≤ tm.year + 1900 ∧ tm.year + 1900 ≤ 9999) (hMinutes : offset % 60 = 0)
    (hDay : -86400 < offset ∧ offset < 86400) :
    rfc822Parsedt (wdays.getD tm.wday [] ++ (bytes ", " ++ (padded 2 tm.mday ++ (bytes " " ++
            (months.getD tm.mon [] ++ (bytes " " ++
              (signed [] 4 (tm.year + 1900) ++ (bytes " " ++
                (padded 2 tm.hour ++ (bytes ":" ++
                  (padded 2 tm.min ++ (bytes ":" ++
                    (padded 2 tm.sec ++ (bytes " " ++
                      signed (bytes "+") 5 ((offset.tdiv 60).tmod 60 + (offset.tdiv 60).tdiv 60 *
                            100))))))))))))))) =
      seconds - offset := by
  rcases Int.eq_ofNat_of_zero_le (show 0 ≤ tm.year + 1900 by omega) with ⟨year, hNat⟩
  have hInstant := hShows.instant
  have hMday := hShows.mday
  rw [hNat] at hYear hInstant hMday ⊢
  have hLength : Calendar.monthLength year (tm.mon + 1) ≤ 31 := by
    unfold Calendar.monthLength
    repeat' split
    all_goals omega
  have hText : signed [] 4 (year : Int) = padded 4 year := by
    unfold signed
    rw [if_neg (by omega), Int.natAbs_natCast]
    rfl
  rw [hText]
  have hZone := parsezone_signed hMinutes hDay
  generalize signed (bytes "+") 5 ((offset.tdiv 60).tmod 60 +
      (offset.tdiv 60).tdiv 60 * 100) = zone at hZone ⊢
  have hTime := parsetime_padded hShows.hour hShows.min hShows.sec zone
  generalize hClock : padded 2 tm.hour ++ (bytes ":" ++
    (padded 2 tm.min ++ (bytes ":" ++ (padded 2 tm.sec ++ (bytes " " ++ zone))))) = time at hTime ⊢
  have hSpace : ∀ width n rest, (bytes " " ++ (padded width n ++ rest)).dropWhile
        isspace = padded width n ++ rest := by
    intro width n rest
    rcases padded_cons width n with ⟨d, digits, hPadded, hDigit⟩
    rw [hPadded]
    show List.dropWhile isspace (chr ' ' :: d :: (digits ++ rest)) = _
    rw [List.dropWhile_cons_of_pos rfl, List.dropWhile_cons_of_neg (by
        rw [(plain_of_isdigit hDigit).2.1]
        exact Bool.false_ne_true)]
    rfl
  have hBehind : (bytes " " ++ time).dropWhile isspace = time := by
    rw [← hClock]
    exact hSpace 2 tm.hour _
  have hFirst : ((padded 4 year ++ (bytes " " ++ time)).head?.map isdigit).getD false = true := by
    rcases padded_cons 4 year with ⟨d, digits, hPadded, hDigit⟩
    rw [hPadded]
    exact hDigit
  have hDig := @parsedig_padded year (by omega) 4 (bytes " " ++ time) (by
      intro b hB
      cases hB
      rfl)
  have hFuel : ∃ k, (wdays.getD tm.wday [] ++ (bytes ", " ++ (padded 2 tm.mday ++ (bytes " " ++
        (months.getD tm.mon [] ++ (bytes " " ++
          (padded 4 year ++ (bytes " " ++ time)))))))).length + 1 = k + (4 + 3) := by
    have hName : (wdays.getD tm.wday []).length = 3 := by
      have hWeek := hShows.wday
      generalize tm.wday = wday at hWeek
      interval_cases wday
      all_goals
        rfl
    have hGap : (bytes ", ").length = 2 := rfl
    have hBlank : (bytes " ").length = 1 := rfl
    apply Nat.exists_eq_add_of_le'
    simp only [List.length_append, hName, hGap, hBlank]
    omega
  rcases hFuel with ⟨fuel, hFuel⟩
  rw [← Nat.add_assoc] at hFuel
  have hDaymon := parseDaymon_mon hShows.mon (Nat.pos_iff_ne_zero.mp hMday.1) fuel
    (bytes " " ++ (padded 4 year ++ (bytes " " ++ time)))
  unfold rfc822Parsedt
  rw [hFuel, parseDaymon_wday hShows.wday,
    parseDaymon_mday (Nat.pos_iff_ne_zero.mp hMday.1) (by omega),
    hDaymon]
  have hSeventy : ¬ year < 70 := by omega
  have hHundred : ¬ year < 100 := by omega
  simp only [hSpace, hFirst, hDig, if_true, hSeventy, hHundred, if_false, hBehind]
  rw [if_neg]
  · simp only [hTime, hZone]
    rw [if_neg (by omega), hInstant, Calendar.dayNumber_day year (tm.mon + 1) tm.mday]
    have hYears := @yearSeconds_eq year year 1970 (by omega) (by omega)
    have hMonths := monthSeconds_eq year hShows.mon
    have hEpoch : Calendar.dayNumber (1970 : Nat) 1 1 = 0 := rfl
    rw [hEpoch] at hYears
    push_cast at hYears hMonths ⊢
    omega
  · have hMon := hShows.mon
    rw [@mdays_eq year (tm.mon + 1) (Nat.succ_pos tm.mon) hMon]
    omega

/-
  The date of a time, read back, is the time: the local time
  is in the calendar, from 1970 to 9999, and its offset from
  UTC is of whole minutes and less than a day.
-/
theorem rfc822Parsedt_mkdateBuf {clock : Clock} {t : Int}
    (hShows : (clock.tm t).Shows (t + clock.offset t))
    (hYear : 1970 ≤ (clock.tm t).year + 1900 ∧
      (clock.tm t).year + 1900 ≤ 9999) (hMinutes : clock.offset t % 60 = 0)
    (hDay : -86400 < clock.offset t ∧
      clock.offset t < 86400) : rfc822Parsedt (rfc822MkdateBuf clock t) = t := by
  have hWhole : (clock.offset t).tmod 60 = 0 :=
    Int.tmod_eq_zero_of_dvd (Int.dvd_of_emod_eq_zero hMinutes)
  have hBack := rfc822Parsedt_written hShows hYear hMinutes hDay
  unfold rfc822MkdateBuf
  simp only [hWhole, if_true, List.append_assoc]
  rw [hBack]
  omega

/- A time five and a half hours behind UTC. -/
theorem rfc822Parsedt_mkdateBuf_west : rfc822Parsedt (rfc822MkdateBuf
          { use := .gmtoff
            localtime := fun _ => ⟨0, 0, 10, 25, 1, 97, 2, 0, -19800⟩
            gmtime := fun _ => ⟨0, 30, 15, 25, 1, 97, 2, 0, 0⟩
            timezone := 0
            altzone := 0 } 856884600) =
      856884600 := by
  apply rfc822Parsedt_mkdateBuf
  · exact
      { mon := by decide
        mday := by decide
        hour := by decide
        min := by decide
        sec := by decide
        wday := by decide
        instant := by decide }
  · decide
  · decide
  · decide

end Wmail.Rfc822
