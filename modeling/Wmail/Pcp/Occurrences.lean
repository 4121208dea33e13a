import Wmail.Pcp.Recurring

/-
  What a recurring event gives (pcplocale.c).

  Key theorems include:
    * `occurrence_forward`
    * `recurs_iff`
-/

namespace Wmail

open Calendar

namespace Pcp

section Occurrences

variable {offset : Int}

/- An occurrence that is not taken for a failure. -/
def Usable (type : Recurring) (offset n : Int) (cnt : Nat) : Prop :=
  ¬ Blocked type offset n cnt ∧ occurrence type offset n cnt ≠ -1 ∧ occurrence type offset n cnt ≠ 0

instance (type : Recurring) (offset n : Int) (cnt : Nat) : Decidable (Usable type offset n cnt) :=
  inferInstanceAs (Decidable (¬ _ ∧ _ ∧ _))

theorem recur_eq (type : Recurring) (n : Int) (cnt : Nat) : recur type offset n cnt =
      if Usable type offset n cnt then occurrence type offset n cnt else 0 := by
  have hMonthly : Recurring.monthly ≠ .weekly := by decide
  have hAnnually : Recurring.annually ≠ .weekly := by decide
  have hBoth : recur type offset n cnt =
      if Blocked type offset n cnt ∨ occurrence type offset n cnt = -1 then
        0
      else
        occurrence type offset n cnt := by
    cases type with
    | weekly => exact addWeek_eq n cnt
    | monthly =>
      rw [← addMonth_eq n hMonthly]
      rfl
    | annually =>
      rw [← addMonth_eq n hAnnually]
      rfl
  rw [hBoth]
  by_cases hZero : occurrence type offset n cnt = 0
  · rw [hZero, ite_self, ite_self]
  · simp only [Usable, hZero, ne_eq, not_false_eq_true, and_true, ← not_or, ite_not]

/- An occurrence has its day, and the time of day of the first. -/
theorem localtime_occurrence (type : Recurring) (n : Int) (cnt : Nat) :
    localtime offset (occurrence type offset n cnt) = ⟨dateOn type (localtime offset n).date cnt,
        (localtime offset n).hour, (localtime offset n).min,
        (localtime offset n).sec⟩ :=
  have hValid := @localtime_valid offset n
  localtime_mktime ⟨dateOn_valid hValid.date type cnt, hValid.hour, hValid.min, hValid.sec⟩

theorem occurrence_zero (type : Recurring) (n : Int) : occurrence type offset n 0 = n := by
  unfold occurrence
  dsimp only
  rw [dateOn_zero (localtime_valid n).date]
  exact mktime_localtime n

theorem occurrence_lt (type : Recurring) (n : Int) {k l : Nat} (hLess : k < l) :
    occurrence type offset n k < occurrence type offset n l := by
  have hDays := dateOn_lt (@localtime_valid offset n).date type hLess
  unfold occurrence
  dsimp only
  rw [mktime_eq, mktime_eq]
  omega

variable {type : Recurring} {start stop : Int} {last : Date}

/- An occurrence that starts on the last day or before. -/
def InTime (type : Recurring) (offset start : Int) (last : Date) (cnt : Nat) : Prop :=
  ¬ last.Before (localtime offset (occurrence type offset start cnt)).date

/- Later occurrences are not in time when an earlier is not. -/
theorem inTime_of_le {k l : Nat} (hLess : k ≤ l) (hIn : InTime type offset start last l) :
    InTime type offset start last k := by
  rcases Nat.lt_or_eq_of_le hLess with hLt | hSame
  · intro hLate
    apply hIn
    have hValid := (@localtime_valid offset start).date
    have hDays := dateOn_lt hValid type hLt
    rw [localtime_occurrence] at hLate ⊢
    have hBefore := (before_iff (dateOn_valid hValid type k) (dateOn_valid hValid type l)).mpr hDays
    unfold Date.Before at hLate hBefore ⊢
    dsimp only at hLate hBefore ⊢
    omega
  · rw [hSame]
    exact hIn

/- The occurrences that are passed on. -/
def Passed (type : Recurring) (offset start stop : Int) (last : Date) (cnt : Nat) : Prop :=
  Usable type offset start cnt ∧ Usable type offset stop cnt ∧ InTime type offset start last cnt

instance (cnt : Nat) : Decidable (Passed type offset start stop last cnt) :=
  inferInstanceAs (Decidable (_ ∧ _ ∧ ¬ _))

theorem untilLoop_eq (rounds cnt : Nat) :
    untilLoop type offset start stop last rounds cnt = ((List.range' cnt rounds).filter
        (Passed type offset start stop last ·)).map fun k =>
          (occurrence type offset start k, occurrence type offset stop k) := by
  induction rounds generalizing cnt with
  | zero => rfl
  | succ rounds ih =>
    have hStart := @recur_eq offset type start cnt
    have hStop := @recur_eq offset type stop cnt
    rw [untilLoop, List.range'_succ, ih]
    by_cases hUse : Usable type offset start cnt ∧ Usable type offset stop cnt
    · rw [if_pos hUse.1] at hStart
      rw [if_pos hUse.2] at hStop
      simp only [hStart, hStop, hUse.1.2.2, hUse.2.2.2, or_self, if_false]
      by_cases hIn : InTime type offset start last cnt
      · have hPassed : Passed type offset start stop last cnt := ⟨hUse.1, hUse.2, hIn⟩
        rw [if_neg hIn]
        simp only [List.filter_cons, hPassed, decide_true, if_true, List.map_cons]
      · have hNone : (cnt :: List.range' (cnt + 1) rounds).filter
            (Passed type offset start stop last ·) = [] := by
          apply List.filter_eq_nil_iff.mpr
          intro k hK
          rw [← List.range'_succ, List.mem_range'_1] at hK
          rw [decide_eq_true_eq]
          exact fun hThis => hIn (inTime_of_le hK.1 hThis.2.2)
        rw [if_pos (not_not.mp hIn), hNone]
        rfl
    · have hSkip : recur type offset start cnt = 0 ∨ recur type offset stop cnt = 0 := by
        rw [hStart, hStop]
        by_cases hUsed : Usable type offset start cnt
        · right
          exact if_neg fun hThis => hUse ⟨hUsed, hThis⟩
        · left
          exact if_neg hUsed
      have hPassed : ¬ Passed type offset start stop last cnt :=
        fun hThis => hUse ⟨hThis.1, hThis.2.1⟩
      simp only [if_pos hSkip]
      simp only [List.filter_cons, hPassed, decide_false, if_false, Bool.false_eq_true]

theorem pcpParseDatetimeUntil_eq :
    pcpParseDatetimeUntil type offset start stop last = ((List.range' 0 100).filter
        (Passed type offset start stop last ·)).map fun k =>
          (occurrence type offset start k, occurrence type offset stop k) :=
  untilLoop_eq 100 0

theorem mem_passed {k : Nat} : k ∈ (List.range' 0 100).filter
        (Passed type offset start stop last ·) ↔
      k < 100 ∧ Passed type offset start stop last k := by
  rw [List.mem_filter, List.mem_range'_1, decide_eq_true_eq, Nat.zero_add]
  exact and_congr_left' (and_iff_right (Nat.zero_le k))

/- The same day of the week, or of the month. -/
def SameDay (type : Recurring) (a b : Date) : Prop :=
  match type with
  | .weekly => b.number % 7 = a.number % 7
  | _ =>
    b.day =
      if a.day = monthLength a.year a.month then
        monthLength b.year b.month
      else
        min a.day (monthLength b.year b.month)

/- An occurrence of a time. -/
structure Again (type : Recurring) (a b : Time) : Prop where
  hour : b.hour = a.hour
  min : b.min = a.min
  sec : b.sec = a.sec
  day : SameDay type a.date b.date

/- What is passed to `save_date_time` is what was asked for. -/
structure Recurs (type : Recurring) (offset start stop : Int) (last : Date)
    (out : List (Int × Int)) :
    Prop where
  few : out.length ≤ 100
  first : ∀ p, out.head? = some p → p = (start, stop)
  increasing : out.Pairwise fun p q => p.1 < q.1
  inTime : ∀ p, p ∈ out → ¬ last.Before (localtime offset p.1).date
  starts : ∀ p, p ∈ out → Again type (localtime offset start) (localtime offset p.1)
  stops : ∀ p, p ∈ out → Again type (localtime offset stop) (localtime offset p.2)
  forward : ∀ p, p ∈ out → p.1 < p.2

theorem sameDay_dateOn {date : Date} (type : Recurring) (cnt : Nat) :
    SameDay type date (dateOn type date cnt) := by
  cases type with
  | weekly =>
    unfold SameDay dateOn
    dsimp only
    rw [(dateOf_spec _).2]
    omega
  | monthly => rfl
  | annually => rfl

theorem again_occurrence (type : Recurring) (n : Int) (cnt : Nat) :
    Again type (localtime offset n) (localtime offset (occurrence type offset n cnt)) := by
  rw [localtime_occurrence]
  exact ⟨rfl, rfl, rfl, sameDay_dateOn type cnt⟩

/-
  Both ends fall on the last day of a month that is too short
  for the days that they are on, and the end is earlier.
-/
def Collides (type : Recurring) (offset start stop : Int) (cnt : Nat) : Prop :=
  let a := localtime offset start
  let b := localtime offset stop
  type ≠ .weekly ∧ monthIndex a.date = monthIndex b.date ∧ a.date.day < b.date.day ∧
    monthDays (monthIndex a.date + months type cnt) ≤ a.date.day ∧
    b.seconds ≤ a.seconds

/- Two days of a month stay apart where the first is there. -/
theorem dayIn_lt {a b : Date} (hA : a.Valid) (hB : b.Valid)
    (hSame : monthIndex a = monthIndex b) (hLess : a.day < b.day) (i : Int) :
    dayIn a i < dayIn b i ∧ a.day < monthDays i ∨ dayIn a i = dayIn b i ∧ monthDays i ≤ a.day := by
  have hMonth : a.year = b.year ∧ a.month = b.month := by
    have hAPos := hA.month_pos
    have hALe := hA.month_le
    have hBPos := hB.month_pos
    have hBLe := hB.month_le
    unfold monthIndex at hSame
    omega
  have hLe := hB.day_le
  unfold dayIn
  rw [hMonth.1, hMonth.2]
  split_ifs <;> omega

/- Both dates are moved by the same number of months. -/
theorem months_forward {a b : Date} (hA : a.Valid) (hB : b.Valid)
    (hLess : a.number < b.number) {type : Recurring} (hType : type ≠ .weekly) (cnt : Nat) :
    (dateOn type a cnt).number < (dateOn type b cnt).number ∧
        ¬ (monthIndex a = monthIndex b ∧ monthDays (monthIndex a + months type cnt) ≤ a.day) ∨
      dateOn type a cnt = dateOn type b cnt ∧ monthIndex a = monthIndex b ∧ a.day < b.day ∧
        monthDays (monthIndex a + months type cnt) ≤ a.day := by
  have hOn : ∀ date : Date, dateOn type date cnt = monthDate (monthIndex date + months type cnt)
        (dayIn date (monthIndex date + months type cnt)) := by
    intro date
    cases type with
    | weekly => exact absurd rfl hType
    | monthly => rfl
    | annually => rfl
  have hADay := monthDate_monthIndex hA
  have hBDay := monthDate_monthIndex hB
  have hDay : ∀ date : Date, date.Valid →
      0 < date.day ∧ date.day ≤ monthDays (monthIndex date) := by
    intro date hValid
    refine ⟨hValid.day_pos, ?_⟩
    have hDays := monthDate_monthIndex hValid
    have hLe := hValid.day_le
    rw [← hDays] at hLe
    exact hLe
  rw [hOn, hOn]
  rcases lt_trichotomy (monthIndex a) (monthIndex b) with hEarly | hSame | hLate
  · left
    refine ⟨number_months (by omega) (dayIn_bounds hA _) (dayIn_bounds hB _), ?_⟩
    omega
  · rw [← hADay, ← hBDay, hSame, number_monthDate, number_monthDate (monthIndex b) b.day] at hLess
    rw [hSame]
    rcases dayIn_lt hA hB hSame (by omega) (monthIndex b + months type cnt) with hApart | hBoth
    · left
      rw [number_monthDate, number_monthDate _ (dayIn b _)]
      omega
    · right
      exact ⟨by rw [hBoth.1], rfl, by omega, hBoth.2⟩
  · have hMore := number_months hLate (hDay b hB) (hDay a hA)
    rw [hADay, hBDay] at hMore
    omega

/- The parts of an occurrence. -/
theorem occurrence_eq (type : Recurring) (n : Int) (cnt : Nat) :
    occurrence type offset n cnt = (dateOn type (localtime offset n).date cnt).number * 86400 +
        (localtime offset n).seconds - offset :=
  rfl

/- The days of two times are in order, or the times of the day. -/
theorem dates_of_lt (hBefore : start < stop) : (localtime offset start).date.number <
        (localtime offset stop).date.number ∨
      (localtime offset start).date = (localtime offset stop).date ∧
        (localtime offset start).seconds < (localtime offset stop).seconds := by
  have hStart := @occurrence_zero offset .weekly start
  have hStop := @occurrence_zero offset .weekly stop
  have hA := @localtime_valid offset start
  have hB := @localtime_valid offset stop
  have hASec := hA.seconds
  have hBSec := hB.seconds
  rw [occurrence_eq, dateOn_zero hA.date] at hStart
  rw [occurrence_eq, dateOn_zero hB.date] at hStop
  rcases lt_trichotomy (localtime offset start).date.number
    (localtime offset stop).date.number with hLess | hSame | hMore
  · exact Or.inl hLess
  · right
    exact ⟨number_inj hA.date hB.date hSame, by omega⟩
  · omega

theorem occurrence_forward (hBefore : start < stop) (cnt : Nat) :
    occurrence type offset start cnt < occurrence type offset stop cnt ↔
      ¬ Collides type offset start stop cnt := by
  have hA := @localtime_valid offset start
  have hB := @localtime_valid offset stop
  have hASec := hA.seconds
  have hBSec := hB.seconds
  rw [occurrence_eq, occurrence_eq]
  unfold Collides
  dsimp only
  rcases @dates_of_lt offset start stop hBefore with hLess | hSame
  · by_cases hType : type = .weekly
    · rw [hType]
      simp only [dateOn, (dateOf_spec _).2, ne_eq, not_true_eq_false,
        false_and, not_false_eq_true, iff_true]
      omega
    · rcases months_forward hA.date hB.date hLess hType cnt with hApart | hTogether
      · constructor
        · exact fun _ hThis => hApart.2 ⟨hThis.2.1, hThis.2.2.2.1⟩
        · omega
      · rw [hTogether.1]
        constructor
        · intro hLater hThis
          have hTime := hThis.2.2.2.2
          omega
        · intro hFree
          by_contra hNot
          exact hFree ⟨hType, hTogether.2.1, hTogether.2.2.1, hTogether.2.2.2, by omega⟩
  · rw [hSame.1]
    constructor
    · exact fun _ hThis => Nat.lt_irrefl _ hThis.2.2.1
    · omega

theorem occurrence_inj {k l : Nat}
    (hSame : occurrence type offset start k = occurrence type offset start l) : k = l := by
  rcases Nat.lt_trichotomy k l with hLess | hEq | hMore
  · have hEarly := @occurrence_lt offset type start k l hLess
    omega
  · exact hEq
  · have hLate := @occurrence_lt offset type start l k hMore
    omega

theorem passed_zero {k : Nat} (hPassed : Passed type offset start stop last k)
    (hStart : Usable type offset start 0) (hStop : Usable type offset stop 0) :
    Passed type offset start stop last 0 :=
  ⟨hStart, hStop, inTime_of_le (Nat.zero_le k) hPassed.2.2⟩

/-
  The occurrences are as they should be if and only if, when
  there are any, the first is usable, and at none do both
  ends fall on one day in the wrong order.
-/
theorem recurs_iff (hBefore : start < stop) (type : Recurring) (last : Date) :
    Recurs type offset start stop last (pcpParseDatetimeUntil type offset start stop last) ↔
      ∀ k < 100, Passed type offset start stop last k →
        (Usable type offset start 0 ∧ Usable type offset stop 0) ∧
          ¬ Collides type offset start stop k := by
  rw [pcpParseDatetimeUntil_eq]
  have hMem := @mem_passed offset type start stop last
  constructor
  · intro hRecurs k hFew hPassed
    have hIn := hMem.mpr ⟨hFew, hPassed⟩
    constructor
    · cases hList : (List.range' 0 100).filter (Passed type offset start stop last ·) with
      | nil =>
        rw [hList] at hIn
        cases hIn
      | cons l rest =>
        have hFirst := hRecurs.first
        rw [hList] at hFirst
        have hHead := (Prod.mk.inj (hFirst _ rfl)).1
        have hZero : l = 0 := by
          apply @occurrence_inj offset type start
          rw [hHead, occurrence_zero]
        have hThere := (hMem (k := l)).mp (hList ▸ List.mem_cons_self)
        rw [hZero] at hThere
        exact ⟨hThere.2.1, hThere.2.2.1⟩
    · exact (occurrence_forward hBefore k).mp (hRecurs.forward _ (List.mem_map_of_mem hIn))
  · intro hFine
    have hEach : ∀ (P : Int × Int → Prop), (∀ k < 100,
        Passed type offset start stop last k → P (occurrence type offset start k,
            occurrence type offset stop k)) →
        ∀ p, p ∈ ((List.range' 0 100).filter (Passed type offset start stop last ·)).map (fun k =>
            (occurrence type offset start k, occurrence type offset stop k)) → P p := by
      intro P hAll p hIn
      rcases List.mem_map.mp hIn with ⟨k, hK, hP⟩
      have hK := hMem.mp hK
      rw [← hP]
      exact hAll k hK.1 hK.2
    exact
      { few := by
          rw [List.length_map]
          exact Nat.le_trans (List.length_filter_le _ _) (Nat.le_of_eq List.length_range')
        first := by
          intro p hHead
          have hSome := List.mem_of_mem_head? hHead
          rcases List.mem_map.mp hSome with ⟨k, hK, hP⟩
          have hK := hMem.mp hK
          have hUsable := (hFine k hK.1 hK.2).1
          have hZero := passed_zero hK.2 hUsable.1 hUsable.2
          have hCons : List.range' 0 100 = 0 :: List.range' 1 99 := rfl
          rw [hCons] at hHead
          simp only [List.filter_cons, hZero, decide_true, if_true,
            List.map_cons, List.head?_cons, occurrence_zero] at hHead
          exact (Option.some.inj hHead).symm
        increasing := by
          rw [List.pairwise_map]
          apply List.Pairwise.filter
          exact (List.pairwise_lt_range' (s := 0)).imp fun hLess => occurrence_lt type start hLess
        inTime := hEach _ fun k _ hPassed => hPassed.2.2
        starts := hEach _ fun k _ _ => again_occurrence type start k
        stops := hEach _ fun k _ _ => again_occurrence type stop k
        forward := hEach _ fun k hFew hPassed =>
          (occurrence_forward hBefore k).mpr
            (hFine k hFew hPassed).2 }

/- An evening in January that is repeated every week. -/
theorem recurs_weekly : Recurs .weekly 0 1043964000 1043978400 ⟨2003, 2, 28⟩
      (pcpParseDatetimeUntil .weekly 0 1043964000 1043978400
        ⟨2003, 2, 28⟩) :=
  (recurs_iff (by decide) .weekly ⟨2003, 2, 28⟩).mpr
    fun _ _ _ => ⟨⟨by decide +kernel, by decide +kernel⟩, fun hThis => hThis.1 rfl⟩

/- The same evening every month ends before it begins. -/
theorem not_recurs_monthly :
    ¬ ∀ (type : Recurring) (offset start stop : Int) (last : Date), start < stop →
      Recurs type offset start stop last (pcpParseDatetimeUntil type offset start stop last) := by
  intro hAll
  have hRecurs := hAll .monthly 0 1043964000 1043978400 ⟨2003, 2, 28⟩ (by decide)
  have hMem : ((1046469600, 1046397600) : Int × Int) ∈
      pcpParseDatetimeUntil .monthly 0 1043964000 1043978400 ⟨2003, 2, 28⟩ := by
    decide +kernel
  have hForward := hRecurs.forward _ hMem
  omega

end Occurrences

end Pcp

end Wmail
