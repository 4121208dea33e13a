import Wmail.Pcp.Gmtime

/-
  Recurring events (pcplocale.c, pcpparseymd.c).

  The function that an occurrence is given to returns 0, as
  both that the program has.  The until-date is read before.

  Key theorems include:
    * `addWeek_eq`
    * `addMonth_eq`
-/

namespace Wmail

open Calendar

namespace Pcp

def addWeek (offset n : Int) (cnt : Nat) : Int :=
  let tm := localtime offset n
  let noon := mktime offset ⟨tm.date, 13, 0, 0⟩
  if noon = -1 then
    0
  else
    let day := localtime offset (noon + cnt * 7 * 86400)
    let t := mktime offset ⟨day.date, tm.hour, tm.min, tm.sec⟩
    if t = -1 then 0 else t

/- `sod`: a second `mktime` gives the same. -/
def sod (offset : Int) (date : Date) : Int :=
  let t := mktime offset ⟨date, 0, 0, 0⟩
  if t = -1 then 0 else t

/- `pcp_parse_ymd`: the start of a day and of the next. -/
def pcpParseYmd (offset : Int) (date : Date) : Option (Int × Int) :=
  let s := sod offset date
  if s = 0 then
    none
  else
    let e := sod offset (localtime offset (s + 36 * 60 * 60)).date
    if e = 0 then none else some (s, e)

/-
  The loop of `add_month`, which goes back day by day; none
  where `mktime` fails.
-/
def backtrack (offset : Int) (isEom : Bool) (mday : Nat) : Nat → Time → Int → Option Time
  | 0, tm, _ => some tm
  | rounds + 1, _, a =>
    let tm := localtime offset a
    if isEom ∨ tm.date.day ≤ mday then
      some tm
    else
      let noon : Time := ⟨tm.date, 13, 0, 0⟩
      if mktime offset noon = -1 then
        none
      else
        backtrack offset isEom mday rounds noon (mktime offset noon - 24 * 60 * 60)

/- `add_month`: from the first of the month behind, go back. -/
def addMonth (offset n : Int) (cnt : Nat) : Int :=
  let tm := localtime offset n
  match pcpParseYmd offset tm.date with
  | none => 0
  | some (_, b) =>
    let isEom : Bool := (localtime offset b).date.day = 1
    let y := tm.date.year + (cnt + 1) / 12
    let m := tm.date.month + (cnt + 1) % 12
    let first : Time :=
      ⟨if m > 12 then ⟨y + 1, m - 12, 1⟩ else ⟨y, m, 1⟩, 13, 0, 0⟩
    let a := mktime offset first
    if a = -1 then
      0
    else
      match backtrack offset isEom tm.date.day 32 first (a - 24 * 60 * 60) with
      | none => 0
      | some day =>
        let a :=
          mktime offset ⟨day.date, tm.hour, tm.min, tm.sec⟩
        if a = -1 then
          0
        else
          let again := localtime offset a
          let a :=
            mktime offset ⟨again.date, tm.hour, tm.min, tm.sec⟩
          if a = -1 then 0 else a

/- `PCP_RECURRING_WEEKLY` and the others. -/
inductive Recurring where
  | weekly
  | monthly
  | annually
deriving DecidableEq

def recur (type : Recurring) (offset n : Int) (cnt : Nat) : Int :=
  match type with
  | .monthly => addMonth offset n cnt
  | .annually => addMonth offset n (cnt * 12)
  | .weekly => addWeek offset n cnt

/- The loop of `pcp_parse_datetime_until`. -/
def untilLoop (type : Recurring) (offset start stop : Int) (last : Date) :
    Nat → Nat → List (Int × Int)
  | 0, _ => []
  | rounds + 1, cnt =>
    let newStart := recur type offset start cnt
    let newEnd := recur type offset stop cnt
    if newStart = 0 ∨ newEnd = 0 then
      untilLoop type offset start stop last rounds (cnt + 1)
    else if last.Before (localtime offset newStart).date then
      []
    else
      (newStart, newEnd) :: untilLoop type offset start stop last rounds (cnt + 1)

/- What `pcp_parse_datetime_until` passes to `save_date_time`. -/
def pcpParseDatetimeUntil (type : Recurring) (offset start stop : Int) (last : Date) :
    List (Int × Int) :=
  untilLoop type offset start stop last 100 0

/- The number of a month, counted from the year 0. -/
def monthIndex (date : Date) : Int :=
  12 * date.year + date.month - 1

/- A day of a month that is given by its number. -/
def monthDate (i : Int) (day : Nat) : Date :=
  ⟨i / 12, (i % 12).toNat + 1, day⟩

def monthDays (i : Int) : Nat :=
  monthLength (i / 12) ((i % 12).toNat + 1)

theorem monthDate_valid {i : Int} {day : Nat} (hPos : 0 < day) (hDay : day ≤ monthDays i) :
    (monthDate i day).Valid where
  month_pos := Nat.succ_pos _
  month_le := by
    simp only [monthDate]
    omega
  day_pos := hPos
  day_le := hDay

theorem monthDate_monthIndex {date : Date} (hDate : date.Valid) :
    monthDate (monthIndex date) date.day = date := by
  have hPos := hDate.month_pos
  have hLe := hDate.month_le
  cases date
  simp only [monthDate, monthIndex, Date.mk.injEq, and_true] at hPos hLe ⊢
  omega

theorem monthDays_bounds (i : Int) : 28 ≤ monthDays i ∧ monthDays i ≤ 31 := by
  unfold monthDays monthLength
  split_ifs <;> omega

theorem number_monthDate (i : Int) (day : Nat) :
    (monthDate i day).number = (monthDate i 1).number + day - 1 :=
  number_eq _

/- The first of the month behind comes after the last day. -/
theorem number_next_month (i : Int) : (monthDate (i + 1) 1).number =
      (monthDate i 1).number + monthDays i := by
  unfold Date.number monthDate monthDays
  dsimp only
  by_cases hLast : i % 12 = 11
  · have hYear : (i + 1) / 12 = i / 12 + 1 := by omega
    have hFirst : ((i + 1) % 12).toNat + 1 = 1 := by omega
    have hDecember : (i % 12).toNat + 1 = 12 := by omega
    rw [hYear, hFirst, hDecember, dayNumber_december]
    rfl
  · have hYear : (i + 1) / 12 = i / 12 := by omega
    have hNext : ((i + 1) % 12).toNat + 1 = (i % 12).toNat + 1 + 1 := by omega
    rw [hYear, hNext, dayNumber_succ _ (Nat.succ_pos _) (by omega)]

/- The day of the month that is meant in another month. -/
def dayIn (date : Date) (i : Int) : Nat :=
  if date.day = monthLength date.year date.month then monthDays i else min date.day (monthDays i)

/- The months that are gone on by. -/
def months : Recurring → Nat → Nat
  | .annually, cnt => cnt * 12
  | _, cnt => cnt

/- The day on which an occurrence should fall. -/
def dateOn (type : Recurring) (date : Date) (cnt : Nat) : Date :=
  match type with
  | .weekly => dateOf (date.number + 7 * cnt)
  | _ =>
    let i := monthIndex date + months type cnt
    monthDate i (dayIn date i)

/- An occurrence: the time of day on that day. -/
def occurrence (type : Recurring) (offset n : Int) (cnt : Nat) : Int :=
  let tm := localtime offset n
  mktime offset ⟨dateOn type tm.date cnt, tm.hour, tm.min, tm.sec⟩

section Dates

variable {a b : Date}

theorem dayIn_bounds (hA : a.Valid) (i : Int) : 0 < dayIn a i ∧ dayIn a i ≤ monthDays i := by
  have hDays := monthDays_bounds i
  have hPos := hA.day_pos
  unfold dayIn
  split <;> omega

theorem dateOn_valid (hA : a.Valid) (type : Recurring) (cnt : Nat) : (dateOn type a cnt).Valid := by
  have hMonth : ∀ i, (monthDate i (dayIn a i)).Valid := fun i =>
    monthDate_valid (dayIn_bounds hA i).1 (dayIn_bounds hA i).2
  cases type with
  | weekly => exact (dateOf_spec _).1
  | monthly => exact hMonth _
  | annually => exact hMonth _

theorem dateOn_zero (hA : a.Valid) (type : Recurring) : dateOn type a 0 = a := by
  have hMonth : monthDate (monthIndex a) (dayIn a (monthIndex a)) = a := by
    have hSame := monthDate_monthIndex hA
    have hDays : monthDays (monthIndex a) = monthLength a.year a.month := by
      conv_rhs => rw [← hSame]
      rfl
    have hDay : dayIn a (monthIndex a) = a.day := by
      have hLe := hA.day_le
      unfold dayIn
      rw [hDays]
      split <;> omega
    rw [hDay, hSame]
  cases type with
  | weekly =>
    simp only [dateOn, Int.natCast_zero, mul_zero, add_zero]
    exact dateOf_number hA
  | monthly => simpa [dateOn, months] using hMonth
  | annually => simpa [dateOn, months] using hMonth

/- Months in a row do not overlap. -/
theorem number_months {i j : Int} (hLess : i < j) {d e : Nat} (hD : 0 < d ∧ d ≤ monthDays i)
    (hE : 0 < e ∧ e ≤ monthDays j) : (monthDate i d).number < (monthDate j e).number := by
  apply number_lt (monthDate_valid hD.1 hD.2) (monthDate_valid hE.1 hE.2)
  unfold Date.Before monthDate
  dsimp only
  omega

theorem dateOn_lt (hA : a.Valid) (type : Recurring) {k l : Nat} (hLess : k < l) :
    (dateOn type a k).number < (dateOn type a l).number := by
  cases type with
  | weekly =>
    simp only [dateOn, (dateOf_spec _).2]
    omega
  | monthly =>
    exact number_months (by simp [months, hLess]) (dayIn_bounds hA _) (dayIn_bounds hA _)
  | annually =>
    exact number_months (by simp [months, hLess]) (dayIn_bounds hA _) (dayIn_bounds hA _)

end Dates

section Offset

variable {offset : Int}

theorem localtime_valid (t : Int) : (localtime offset t).Valid :=
  (timeOf_spec _).1

theorem mktime_localtime (t : Int) : mktime offset (localtime offset t) = t := by
  unfold mktime localtime
  rw [(timeOf_spec _).2, Int.add_sub_cancel]

theorem localtime_mktime {tm : Time} (hTime : tm.Valid) :
    localtime offset (mktime offset tm) = tm := by
  unfold mktime localtime
  rw [Int.sub_add_cancel, timeOf_stamp hTime]

theorem mktime_eq (date : Date) (hour min sec : Nat) : mktime offset ⟨date, hour, min, sec⟩ =
      date.number * 86400 + hour * 3600 + min * 60 + sec - offset := by
  unfold mktime Time.stamp Time.seconds
  dsimp only
  omega

/- A date that is given by the time of a day. -/
theorem localtime_date {t day : Int} (hDay : (t + offset) / 86400 = day) :
    (localtime offset t).date = dateOf day := by
  rw [← hDay]
  rfl

/- A day behind `lo`, up to `hi`, at 13:00 is taken for a failure. -/
def Lost (offset lo hi : Int) : Prop :=
  offset % 86400 = 46801 ∧ lo < (offset - 46801) / 86400 ∧ (offset - 46801) / 86400 ≤ hi

instance (offset lo hi : Int) : Decidable (Lost offset lo hi) :=
  inferInstanceAs (Decidable (_ ∧ _ ∧ _))

/- The local midnight at the start of the day of `n`. -/
def midnight (offset n : Int) : Int :=
  mktime offset ⟨(localtime offset n).date, 0, 0, 0⟩

/- Where the code takes a time that it meets for a failure. -/
def NoDay (offset n : Int) : Prop :=
  midnight offset n = 0 ∨ midnight offset n = -1 ∨
    midnight offset n = -86400 ∨ midnight offset n = -86401

instance (offset n : Int) : Decidable (NoDay offset n) :=
  inferInstanceAs (Decidable (_ ∨ _ ∨ _ ∨ _))

def Blocked (type : Recurring) (offset n : Int) (cnt : Nat) : Prop :=
  let date := (localtime offset n).date
  match type with
  | .weekly => Lost offset (date.number - 1) date.number
  | _ =>
    NoDay offset n ∨ Lost offset (dateOn type date cnt).number
        (monthDate (monthIndex date + months type cnt + 1) 1).number

instance (type : Recurring) (offset n : Int) (cnt : Nat) :
    Decidable (Blocked type offset n cnt) := by
  unfold Blocked
  cases type <;> exact inferInstance

theorem addWeek_eq (n : Int) (cnt : Nat) : addWeek offset n cnt =
      if Blocked .weekly offset n cnt ∨ occurrence .weekly offset n cnt = -1 then
        0
      else
        occurrence .weekly offset n cnt := by
  have hDate : (localtime offset (mktime offset
      ⟨(localtime offset n).date, 13, 0, 0⟩ + cnt * 7 * 86400)).date =
      dateOn .weekly (localtime offset n).date cnt := by
    apply localtime_date
    rw [mktime_eq]
    omega
  have hNoon : mktime offset ⟨(localtime offset n).date, 13, 0, 0⟩ = -1 ↔
      Blocked .weekly offset n cnt := by
    rw [mktime_eq]
    unfold Blocked Lost
    dsimp only
    omega
  unfold addWeek
  dsimp only
  rw [hDate]
  simp only [hNoon, ← ite_or]
  rfl

theorem pcpParseYmd_eq (n : Int) : pcpParseYmd offset (localtime offset n).date =
      if NoDay offset n then none else some (midnight offset n, midnight offset n + 86400) := by
  have hNext : (localtime offset (midnight offset n + 36 * 60 * 60)).date =
      dateOf ((localtime offset n).date.number + 1) := by
    apply localtime_date
    unfold midnight
    rw [mktime_eq]
    omega
  have hEnd : mktime offset ⟨dateOf ((localtime offset n).date.number + 1), 0, 0, 0⟩ =
      midnight offset n + 86400 := by
    unfold midnight
    rw [mktime_eq, mktime_eq, (dateOf_spec _).2]
    omega
  have hSod : sod offset (localtime offset n).date =
      if midnight offset n = -1 then 0 else midnight offset n := rfl
  have hBehind : sod offset (dateOf ((localtime offset n).date.number + 1)) =
      if midnight offset n + 86400 = -1 then 0 else midnight offset n + 86400 := by
    rw [← hEnd]
    rfl
  unfold pcpParseYmd
  by_cases hNone : midnight offset n = -1
  · have hDay : NoDay offset n := Or.inr (Or.inl hNone)
    rw [if_pos hDay]
    simp only [hSod, hNone, if_true]
  · simp only [hSod, if_neg hNone, hNext, hBehind]
    by_cases hDay : NoDay offset n
    · rw [if_pos hDay]
      unfold NoDay at hDay
      split_ifs <;> first | rfl | omega
    · rw [if_neg hDay]
      unfold NoDay at hDay
      split_ifs <;> first | rfl | omega

/- The day behind is a first if the day is the last. -/
theorem day_after {date : Date} (hDate : date.Valid) : (dateOf (date.number + 1)).day = 1 ↔
      date.day = monthLength date.year date.month := by
  have hSame := monthDate_monthIndex hDate
  have hDays : monthDays (monthIndex date) = monthLength date.year date.month := by
    conv_rhs => rw [← hSame]
    rfl
  have hNumber := number_monthDate (monthIndex date) date.day
  have hPos := hDate.day_pos
  rw [hSame] at hNumber
  rcases Nat.lt_or_eq_of_le hDate.day_le with hMore | hLast
  · have hNext : date.number + 1 = (monthDate (monthIndex date) (date.day + 1)).number := by
      rw [number_monthDate]
      omega
    rw [hNext, dateOf_number (monthDate_valid (Nat.succ_pos _) (by omega))]
    simp only [monthDate]
    omega
  · have hNext : date.number + 1 = (monthDate (monthIndex date + 1) 1).number := by
      rw [number_next_month]
      omega
    have hFew := monthDays_bounds (monthIndex date + 1)
    rw [hNext, dateOf_number (monthDate_valid Nat.one_pos (by omega))]
    exact ⟨fun _ => hLast, fun _ => rfl⟩

/- The loop of `add_month` stops at the day that is meant. -/
theorem backtrack_eq (i : Int) (isEom : Bool) {mday : Nat} (hPos : 0 < mday)
    (rounds day : Nat) (hDay : 0 < day ∧ day ≤ monthDays i ∧ day < rounds) (tm : Time) :
    backtrack offset isEom mday rounds tm (mktime offset ⟨monthDate i day, 13, 0, 0⟩) =
      if Lost offset (monthDate i (if isEom then day else min mday day)).number
          (monthDate i day).number then
        none
      else
        some ⟨monthDate i (if isEom then day else min mday day), 13, 0, 0⟩ := by
  induction rounds generalizing day tm with
  | zero => omega
  | succ rounds ih =>
    have hValid : (⟨monthDate i day, 13, 0, 0⟩ : Time).Valid :=
      ⟨monthDate_valid hDay.1 hDay.2.1, (by decide : 13 < 24),
        (by decide : 0 < 60), (by decide : 0 < 60)⟩
    rw [backtrack, localtime_mktime hValid]
    dsimp only
    by_cases hStop : isEom = true ∨ (monthDate i day).day ≤ mday
    · have hMin : (if isEom = true then day else min mday day) = day := by
        rcases hStop with hEom | hLe
        · rw [if_pos hEom]
        · have hSmall : day ≤ mday := hLe
          rw [Nat.min_eq_right hSmall, ite_self]
      have hNone : ¬ Lost offset (monthDate i day).number (monthDate i day).number := by
        unfold Lost
        omega
      rw [if_pos hStop, hMin, if_neg hNone]
    · have hGo := not_or.mp hStop
      have hLess : mday < day := Nat.lt_of_not_le hGo.2
      have hBack : mktime offset ⟨monthDate i day, 13, 0, 0⟩ - 24 * 60 * 60 =
          mktime offset ⟨monthDate i (day - 1), 13, 0, 0⟩ := by
        rw [mktime_eq, mktime_eq, number_monthDate i day, number_monthDate i (day - 1)]
        omega
      have hMin : min mday (day - 1) = min mday day := by omega
      have hLost : Lost offset (monthDate i (min mday day)).number (monthDate i day).number ↔
          mktime offset ⟨monthDate i day, 13, 0, 0⟩ = -1 ∨
            Lost offset (monthDate i (min mday day)).number (monthDate i (day - 1)).number := by
        unfold Lost
        rw [mktime_eq, number_monthDate i day,
          number_monthDate i (day - 1), number_monthDate i (min _ _)]
        omega
      rw [if_neg hStop, hBack, ih (day - 1) (by omega)]
      simp only [if_neg hGo.1, hMin, hLost, ite_or]

/- The first of the month behind the one that is meant. -/
theorem first_behind {date : Date} (hDate : date.Valid) (cnt : Nat) :
    (if date.month + (cnt + 1) % 12 > 12 then
      (⟨date.year + ((cnt : Int) + 1) / 12 + 1, date.month + (cnt + 1) % 12 - 12, 1⟩ : Date)
    else
      ⟨date.year + ((cnt : Int) + 1) / 12, date.month + (cnt + 1) % 12, 1⟩) =
      monthDate (monthIndex date + cnt + 1) 1 := by
  have hPos := hDate.month_pos
  have hLe := hDate.month_le
  unfold monthDate monthIndex
  split_ifs
  all_goals
    simp only [Date.mk.injEq, and_true]
    omega

theorem addMonth_eq (n : Int) {type : Recurring} (hType : type ≠ .weekly) (cnt : Nat) :
    addMonth offset n (months type cnt) =
      if Blocked type offset n cnt ∨ occurrence type offset n cnt = -1 then
        0
      else
        occurrence type offset n cnt := by
  have hDate := (@localtime_valid offset n).date
  have hEnd : (localtime offset (midnight offset n + 86400)).date =
      dateOf ((localtime offset n).date.number + 1) := by
    apply localtime_date
    unfold midnight
    rw [mktime_eq]
    omega
  have hEom := day_after hDate
  have hFirst := first_behind hDate (months type cnt)
  have hDay := dayIn_bounds hDate (monthIndex (localtime offset n).date + months type cnt)
  have hDays := monthDays_bounds (monthIndex (localtime offset n).date + months type cnt)
  have hValid : ∀ date : Date, date.Valid →
      (⟨date, (localtime offset n).hour, (localtime offset n).min,
        (localtime offset n).sec⟩ : Time).Valid :=
    fun date hThis => ⟨hThis, (localtime_valid n).hour,
      (localtime_valid n).min, (localtime_valid n).sec⟩
  unfold addMonth
  dsimp only
  rw [pcpParseYmd_eq]
  have hBlocked : Blocked type offset n cnt ↔ NoDay offset n ∨
      Lost offset (dateOn type (localtime offset n).date cnt).number
        (monthDate (monthIndex (localtime offset n).date + months type cnt + 1) 1).number := by
    cases type with
    | weekly => exact absurd rfl hType
    | monthly => rfl
    | annually => rfl
  by_cases hDayless : NoDay offset n
  · rw [if_pos hDayless, if_pos (Or.inl (hBlocked.mpr (Or.inl hDayless)))]
  rw [if_neg hDayless]
  dsimp only
  rw [hEnd]
  rw [hFirst]
  generalize hI : monthIndex (localtime offset n).date +
    (months type cnt : Int) = i at hDay hDays hBlocked
  have hLast : mktime offset ⟨monthDate (i + 1) 1, 13, 0, 0⟩ - 24 * 60 * 60 =
      mktime offset ⟨monthDate i (monthDays i), 13, 0, 0⟩ := by
    rw [mktime_eq, mktime_eq, number_next_month, number_monthDate i (monthDays i)]
    omega
  have hMeant : (if decide ((dateOf ((localtime offset n).date.number + 1)).day = 1) = true then
        monthDays i
      else
        min (localtime offset n).date.day (monthDays i)) =
      dayIn (localtime offset n).date i := by
    unfold dayIn
    simp only [decide_eq_true_eq, hEom]
  have hOn : dateOn type (localtime offset n).date cnt =
      monthDate i (dayIn (localtime offset n).date i) := by
    rw [← hI]
    cases type with
    | weekly => exact absurd rfl hType
    | monthly => rfl
    | annually => rfl
  have hAgain := @localtime_mktime offset _ (hValid _ (monthDate_valid hDay.1 hDay.2))
  have hOcc : occurrence type offset n cnt = mktime offset
      ⟨monthDate i (dayIn (localtime offset n).date i),
        (localtime offset n).hour, (localtime offset n).min,
        (localtime offset n).sec⟩ := by
    unfold occurrence
    dsimp only
    rw [hOn]
  have hLost : Blocked type offset n cnt ↔
      mktime offset ⟨monthDate (i + 1) 1, 13, 0, 0⟩ = -1 ∨ Lost offset
          (monthDate i (dayIn (localtime offset n).date i)).number
          (monthDate i (monthDays i)).number := by
    rw [hBlocked, hOn, mktime_eq, number_next_month,
      number_monthDate i (monthDays i), number_monthDate i (dayIn _ _)]
    unfold Lost
    simp only [hDayless, false_or]
    omega
  rw [hLast, backtrack_eq i _ hDate.day_pos 32 (monthDays i) (by omega), hMeant]
  by_cases hFirstLost : mktime offset ⟨monthDate (i + 1) 1, 13, 0, 0⟩ = -1
  · rw [if_pos hFirstLost, if_pos (Or.inl (hLost.mpr (Or.inl hFirstLost)))]
  rw [if_neg hFirstLost]
  by_cases hBack : Lost offset (monthDate i (dayIn (localtime offset n).date i)).number
      (monthDate i (monthDays i)).number
  · rw [if_pos hBack, if_pos (Or.inl (hLost.mpr (Or.inr hBack)))]
  rw [if_neg hBack]
  have hFree : ¬ Blocked type offset n cnt := by
    rw [hLost]
    exact not_or.mpr ⟨hFirstLost, hBack⟩
  dsimp only
  rw [hAgain]
  simp only [hOcc, hFree, false_or]
  split_ifs <;> rfl

end Offset

end Pcp

end Wmail
