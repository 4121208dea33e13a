import Wmail.Pcp.CalendarRuns

/-
  Which events of a calendar can have a time in common.

  Key theorems include:
    * `NoOverlap.step`
    * `noOverlap_of_reachable`
-/

namespace Wmail.Pcpdir

open Pcp (pcpOkConflict)

/- The time in a field. -/
def fieldTime (p : List Byte) : Option EventTime :=
  if lbIsField p TIME_FIELD then parseTimeField (lbFieldValue p) else none

theorem lbTimes_eq (pi : List Byte) : lbTimes pi = (lbFields pi).filterMap fieldTime :=
  rfl

/- Fields with other names of one letter have no time. -/
theorem fieldTime_other {p n : List Byte} (hLength : n.length = 1) (hNe : TIME_FIELD ≠ n)
    (hIs : lbIsField p n = true) : fieldTime p = none := by
  have hTime : TIME_FIELD.length = n.length := by
    rw [hLength]
    rfl
  unfold fieldTime
  rw [not_isField_of_ne hTime hNe hIs]
  exact if_neg Bool.false_ne_true

theorem filterMap_fieldTime_filter {n : List Byte} (hLength : n.length = 1)
    (hNe : TIME_FIELD ≠ n) (fields : List (List Byte)) :
    (fields.filter (!lbIsField · n)).filterMap fieldTime = fields.filterMap fieldTime := by
  rw [List.filterMap_filter]
  apply List.filterMap_congr
  intro p _
  cases hIs : lbIsField p n with
  | false => rfl
  | true => exact (fieldTime_other hLength hNe hIs).symm

/- A line of the same event, with the same times. -/
structure SameEvent (pi line : List Byte) : Prop where
  id : lbEventId line = lbEventId pi
  times : lbTimes line = lbTimes pi
  cancelled : lbIsCancelled pi = true → lbIsCancelled line = true

theorem SameEvent.not_cancelled {pi line : List Byte} (hSame : SameEvent pi line)
    (hLine : lbIsCancelled line = false) : lbIsCancelled pi = false := by
  rw [← Bool.not_eq_true] at hLine ⊢
  exact fun hPi => hLine (hSame.cancelled hPi)

theorem SameEvent.refl (pi : List Byte) : SameEvent pi pi :=
  ⟨rfl, rfl, fun hCancelled => hCancelled⟩

/- What a booking or a commit writes for a line. -/
theorem sameEvent_copied {ae : NewEventid} {bookmode : Bool} {pi line : List Byte}
    (hPlain : ae.Plain) (hTab : tab ∈ pi) (hCopy : copied ae bookmode pi = some line) :
    SameEvent pi line := by
  have hId := copied_id hCopy
  unfold copied at hCopy
  split at hCopy
  · split at hCopy
    · cases hCopy
    · cases hCopy
      refine ⟨hId, ?_, ?_⟩
      · rw [lbTimes_eq, lbFields_lbRemoveField hTab,
          filterMap_fieldTime_filter (by decide) (by decide)]
        rfl
      · intro hCancelled
        unfold lbIsCancelled
        rw [lbFields_lbRemoveField hTab, any_isField_filter (by decide) (by decide)]
        exact hCancelled
  · split at hCopy
    · split at hCopy
      · cases hCopy
        unfold held
        split
        · exact SameEvent.refl pi
        · have hField := hPlain.holdField
          refine ⟨lbEventId_lbRemoveField pi PENDEL_FIELD _, ?_, ?_⟩
          · rw [lbTimes_eq, lbFields_lbRemoveField_some hTab hField, List.filterMap_append,
              filterMap_fieldTime_filter (by decide) (by decide)]
            exact List.append_nil _
          · intro hCancelled
            unfold lbIsCancelled
            rw [lbFields_lbRemoveField_some hTab hField, List.any_append,
              any_isField_filter (by decide) (by decide)]
            exact Bool.or_eq_true_iff.mpr (Or.inl hCancelled)
      · cases hCopy
    · cases hCopy
      exact SameEvent.refl pi

theorem sameEvent_cancelLine {pi : List Byte} (hTab : tab ∈ pi) (event : List Byte) :
    SameEvent pi (cancelLine event pi) := by
  have hId := cancelLine_id event pi
  unfold cancelLine at hId ⊢
  split
  · exact SameEvent.refl pi
  · split
    · exact SameEvent.refl pi
    · rename_i hIs hNone
      rw [if_neg hIs, if_neg hNone] at hId
      refine ⟨hId, ?_, fun hCancelled => absurd hCancelled hNone⟩
      rw [lbTimes_eq, lbFields_append hTab (by decide), List.filterMap_append]
      exact List.append_nil _

theorem lbTimes_uncancelLine {pi : List Byte} (hTab : tab ∈ pi) (event : List Byte) :
    lbTimes (uncancelLine event pi) = lbTimes pi := by
  unfold uncancelLine
  split
  · rfl
  · split
    · rfl
    · rw [lbTimes_eq, lbFields_lbRemoveField hTab,
        filterMap_fieldTime_filter (by decide) (by decide)]
      rfl

theorem tab_not_mem_timeText (t : EventTime) : tab ∉ timeText t := by
  have hDigits : ∀ x : Int64, tab ∉ strUlong x := by
    intro x hMem
    exact absurd (isdigit_decimalDigits hMem) (by decide)
  unfold timeText
  rw [List.mem_append, List.mem_cons, List.mem_append, List.mem_cons]
  rintro (hName | hEq | hStart | hComma | hStop)
  · exact absurd hName (by decide)
  · exact absurd hEq (by decide)
  · exact hDigits t.start hStart
  · exact absurd hComma (by decide)
  · exact hDigits t.stop hStop

section NewLine

variable {ae : NewEventid} {bookmode : Bool} {ci : CommitInfo} {bookTime : Int64}
variable {times : List EventTime}

theorem tab_not_mem_recordFields (hPlain : ae.Plain) (isCancelled : Bool) :
    ∀ p, p ∈ recordFields ae bookmode ci bookTime times isCancelled → tab ∉ p := by
  intro p hMem
  unfold recordFields at hMem
  simp only [List.mem_append, List.mem_map] at hMem
  rcases hMem with
    (((hOne | hOne) | hOne) | ⟨t, _, rfl⟩) | ⟨q, hQ, rfl⟩
  · split at hOne
    · rw [List.mem_singleton.mp hOne]
      decide
    · cases hOne
  · split at hOne
    · rw [List.mem_singleton.mp hOne]
      decide
    · cases hOne
  · split at hOne
    · rw [List.mem_singleton.mp hOne, List.mem_append, List.mem_cons]
      rintro (hName | hEq | hTime)
      · exact absurd hName (by decide)
      · exact absurd hEq (by decide)
      · exact absurd (isdigit_decimalDigits hTime) (by decide)
    · cases hOne
  · exact tab_not_mem_timeText t
  · exact hPlain.participants q hQ

/- The times of a new line are those that were asked for. -/
theorem lbTimes_newLine (hPlain : ae.Plain) (index : List (List Byte)) :
    lbTimes (newLine index ae bookmode ci times bookTime) = times := by
  have hTime : ∀ t, fieldTime (timeText t) = some t := by
    intro t
    have hIs : lbIsField (timeText t) TIME_FIELD = true := rfl
    unfold fieldTime
    rw [hIs, if_pos rfl, parseTimeField_timeText]
  have hTimes : (times.map timeText).filterMap fieldTime = times := by
    rw [List.filterMap_map]
    exact (List.filterMap_congr fun t _ => hTime t).trans (List.filterMap_some (l := times))
  have hOthers : ∀ fields : List (List Byte),
      (∀ p, p ∈ fields → ∃ n : List Byte, n.length = 1 ∧ TIME_FIELD ≠ n ∧ lbIsField p n = true) →
      fields.filterMap fieldTime = [] := by
    intro fields hNames
    rw [List.filterMap_eq_nil_iff]
    intro p hMem
    rcases hNames p hMem with ⟨n, hLength, hNe, hIs⟩
    exact fieldTime_other hLength hNe hIs
  unfold newLine
  rw [lbTimes_eq, (lineText_parts hPlain.eventid hPlain.newfile
    (tab_not_mem_recordFields hPlain _)).2.2]
  unfold recordFields
  simp only [List.filterMap_append, hTimes]
  rw [hOthers, hOthers, hOthers, hOthers]
  · exact List.append_nil _
  · intro p hMem
    rcases List.mem_map.mp hMem with ⟨q, _, rfl⟩
    exact ⟨PARTICIPANT_FIELD, rfl, by decide, rfl⟩
  · intro p hMem
    split at hMem
    · rw [List.mem_singleton.mp hMem]
      exact ⟨BOOKED_FIELD, rfl, by decide, rfl⟩
    · cases hMem
  · intro p hMem
    split at hMem
    · rw [List.mem_singleton.mp hMem]
      exact ⟨PROXY_FIELD, rfl, by decide, rfl⟩
    · cases hMem
  · intro p hMem
    split at hMem
    · rw [List.mem_singleton.mp hMem]
      exact ⟨CANCELLED_FIELD, rfl, by decide, rfl⟩
    · cases hMem

end NewLine

theorem conflicts_perm {times times' : List EventTime} (hPerm : times.Perm times')
    (pi : List Byte) : conflicts pi times = conflicts pi times' := by
  unfold conflicts
  exact List.any_congr rfl fun time => hPerm.any_eq

theorem perm_pcpAddSortTimes {t times : List EventTime}
    (hSort : pcpAddSortTimes t = some times) : times.Perm t := by
  unfold pcpAddSortTimes at hSort
  split at hSort
  · cases hSort
  · simp only [] at hSort
    split at hSort
    · cases hSort
      exact List.perm_insertionSort timesUpTo t
    · cases hSort

theorem perm_uncancelTimes {pi : List Byte} {times : List EventTime}
    (hTimes : uncancelTimes pi = some times) : times.Perm (lbTimes pi) := by
  unfold uncancelTimes at hTimes
  split at hTimes
  · rename_i hNone
    cases hTimes
    rw [hNone]
  · exact perm_pcpAddSortTimes hTimes

theorem conflicts_comm (a b : List Byte) : conflicts a (lbTimes b) = conflicts b (lbTimes a) := by
  have hOne : ∀ a b, conflicts a (lbTimes b) = true → conflicts b (lbTimes a) = true := by
    intro a b hMeet
    unfold conflicts at hMeet ⊢
    rcases List.any_eq_true.mp hMeet with ⟨x, hX, hAny⟩
    rcases List.any_eq_true.mp hAny with ⟨y, hY, hMeets⟩
    refine List.any_eq_true.mpr ⟨y, hY, ?_⟩
    refine List.any_eq_true.mpr ⟨x, hX, ?_⟩
    unfold EventTime.meets at hMeets ⊢
    rw [Bool.and_comm]
    exact hMeets
  exact Bool.eq_iff_iff.mpr ⟨hOne a b, hOne b a⟩

/- Two events are not cancelled, and have times that meet. -/
def overlaps (a b : List Byte) : Bool :=
  !lbIsCancelled a && !lbIsCancelled b && conflicts a (lbTimes b)

theorem overlaps_comm (a b : List Byte) : overlaps a b = overlaps b a := by
  unfold overlaps
  rw [conflicts_comm, Bool.and_comm (!lbIsCancelled a)]

theorem overlaps_eq_false {a b : List Byte}
    (hApart : lbIsCancelled a = false →
      lbIsCancelled b = false → conflicts a (lbTimes b) = false) : overlaps a b = false := by
  unfold overlaps
  cases hA : lbIsCancelled a with
  | true => rfl
  | false =>
    cases hB : lbIsCancelled b with
    | true => rfl
    | false => exact hApart hA hB

theorem conflicts_of_overlaps {a b : List Byte} (hNo : overlaps a b = false)
    (hA : lbIsCancelled a = false) (hB : lbIsCancelled b = false) :
    conflicts a (lbTimes b) = false := by
  unfold overlaps at hNo
  rw [hA, hB] at hNo
  exact hNo

/- No event that is not cancelled overlaps another one. -/
def NoOverlap (index : List (List Byte)) : Prop :=
  ∀ a, a ∈ index → ∀ b, b ∈ index → lbEventId a ≠ lbEventId b → overlaps a b = false

instance (index : List (List Byte)) : Decidable (NoOverlap index) :=
  inferInstanceAs (Decidable (∀ a, a ∈ index → ∀ b, b ∈ index →
    lbEventId a ≠ lbEventId b → overlaps a b = false))

theorem SameEvent.overlaps {a b a' b' : List Byte} (hA : SameEvent a a')
    (hB : SameEvent b b') (hNo : overlaps a b = false) : Pcpdir.overlaps a' b' = false := by
  apply overlaps_eq_false
  intro hA' hB'
  unfold conflicts
  rw [hA.times, hB.times]
  exact conflicts_of_overlaps hNo (hA.not_cancelled hA') (hB.not_cancelled hB')

variable {index : List (List Byte)}

/- Lines are left out, or keep their times. -/
theorem NoOverlap.filterMap {f : List Byte → Option (List Byte)} (hNo : NoOverlap index)
    (hSame : ∀ pi, pi ∈ index → ∀ line, f pi = some line →
      SameEvent pi line) : NoOverlap (index.filterMap f) := by
  intro a' hA' b' hB' hIds
  rcases List.mem_filterMap.mp hA' with ⟨a, hA, hFrom⟩
  rcases List.mem_filterMap.mp hB' with ⟨b, hB, hTo⟩
  have hOne := hSame a hA a' hFrom
  have hTwo := hSame b hB b' hTo
  rw [hOne.id, hTwo.id] at hIds
  exact hOne.overlaps hTwo (hNo a hA b hB hIds)

theorem NoOverlap.filter (hNo : NoOverlap index) (p : List Byte → Bool) :
    NoOverlap (index.filter p) :=
  fun a hA b hB => hNo a (List.mem_of_mem_filter hA) b (List.mem_of_mem_filter hB)

theorem NoOverlap.concat {line : List Byte} (hNo : NoOverlap index)
    (hLine : ∀ pi, pi ∈ index → overlaps pi line = false) : NoOverlap (index ++ [line]) := by
  intro a hA b hB hIds
  rcases List.mem_append.mp hA with hA | hA
  · rcases List.mem_append.mp hB with hB | hB
    · exact hNo a hA b hB hIds
    · exact List.mem_singleton.mp hB ▸ hLine a hA
  · rw [List.mem_singleton.mp hA] at hIds ⊢
    rcases List.mem_append.mp hB with hB | hB
    · exact overlaps_comm line b ▸ hLine b hB
    · exact absurd (List.mem_singleton.mp hB).symm fun hSame => hIds (congrArg lbEventId hSame)

------------
-- Bookings and Commits
------------

/- Conflicts are not ignored. -/
def Op.RefusesConflicts : Op → Prop
  | .book _ ci _ _ => ci.flags &&& pcpOkConflict = 0
  | .commit _ ci _ => ci.flags &&& pcpOkConflict = 0
  | .uncancel _ flags _ _ => flags &&& pcpOkConflict = 0
  | _ => True

/- The lines that an uncancel looks for conflicts with. -/
def uncancelOthers (index : List (List Byte)) (event : List Byte) : List (List Byte) :=
  index.filter fun pi => !lbIsEventid pi event && !lbIsCancelled pi

/-
  The result of an uncancel's checks stands: if a line is in
  conflict, the last line that is checked is.  A booking does
  not meet the event that it is to replace, which stays.
-/
def Op.CheckStands (s : Calendar) : Op → Prop
  | .book k ci _ _ =>
    ∀ ae, s.events[k]? = some ae → ∀ pi, pi ∈ s.index → ae.ownBooking pi = false →
        ae.isOld pi = true → lbIsCancelled pi = false → conflicts pi ci.eventTimes = false
  | .uncancel event _ _ disk =>
    disk.locks = true → disk.renames = true → ∀ pi, pi ∈ s.index → lbIsEventid pi event = true →
        let others := uncancelOthers s.index event
        others.any (conflicts · (lbTimes pi)) = true →
          others.getLast?.any (conflicts · (lbTimes pi)) = true
  | _ => True

section Accept

variable {index : List (List Byte)} {ae : NewEventid} {bookmode : Bool} {ci : CommitInfo}
variable {times : List EventTime} {bookTime : Int64} {done : Committed}

/- What stays of the others is apart from a new line. -/
theorem conflicts_of_accepted (hPlain : ae.Plain) (hTabs : ∀ pi, pi ∈ index → tab ∈ pi)
    (hDone : Accepted index ae bookmode ci times bookTime done)
    (hFlags : ci.flags &&& pcpOkConflict = 0)
    (hOld : bookmode = true → ∀ pi, pi ∈ index →
      ae.ownBooking pi = false → ae.isOld pi = true →
        lbIsCancelled pi = false → conflicts pi ci.eventTimes = false)
    (hAdds : (ae.booked && !bookmode) = false) {pi line : List Byte} (hMem : pi ∈ index)
    (hCopy : copied ae bookmode pi = some line) (hLine : lbIsCancelled line = false) :
    conflicts line times = false := by
  have hSame := sameEvent_copied hPlain (hTabs pi hMem) hCopy
  have hNone := hSame.not_cancelled hLine
  have hTimes : conflicts line times = conflicts pi times := by
    unfold conflicts
    rw [hSame.times]
  have hFine := hDone.fine pi hMem
  rw [hTimes]
  unfold copied at hCopy
  unfold refuses at hFine
  cases hOwn : ae.ownBooking pi with
  | true =>
    have hBooked : ae.booked = true := (Bool.and_eq_true_iff.mp hOwn).1
    rw [hBooked, Bool.true_and, Bool.not_eq_false'] at hAdds
    rw [hOwn, if_pos rfl, hAdds, if_pos rfl] at hCopy
    cases hCopy
  | false =>
    rw [hOwn, if_neg Bool.false_ne_true] at hCopy
    rw [hOwn, Bool.not_false, Bool.true_and] at hFine
    cases hIsOld : ae.isOld pi with
    | true =>
      rw [hIsOld, if_pos rfl] at hCopy
      cases hMode : bookmode with
      | false =>
        rw [hMode, if_neg Bool.false_ne_true] at hCopy
        cases hCopy
      | true =>
        rw [conflicts_perm (perm_pcpAddSortTimes hDone.sorted)]
        exact hOld hMode pi hMem hOwn hIsOld hNone
    | false =>
      have hChecks : checksLine ae bookmode ci pi = true := by
        have hMode : (!ae.booked || bookmode) = true := by
          have hNot := congrArg Bool.not hAdds
          rw [Bool.not_and, Bool.not_not] at hNot
          exact hNot
        unfold checksLine
        rw [decide_eq_true hFlags, hMode, hNone]
        rfl
      rw [hIsOld, if_neg Bool.false_ne_true, hChecks, Bool.true_and] at hFine
      exact hFine

/- A booking or a commit is in no event's way. -/
theorem NoOverlap.accepted (hNo : NoOverlap index) (hPlain : ae.Plain)
    (hTabs : ∀ pi, pi ∈ index → tab ∈ pi)
    (hDone : Accepted index ae bookmode ci times bookTime done)
    (hFlags : ci.flags &&& pcpOkConflict = 0)
    (hOld : bookmode = true → ∀ pi, pi ∈ index →
      ae.ownBooking pi = false → ae.isOld pi = true →
        lbIsCancelled pi = false → conflicts pi ci.eventTimes = false) :
    NoOverlap done.index := by
  have hCopies : NoOverlap (index.filterMap (copied ae bookmode)) :=
    hNo.filterMap fun pi hMem line => sameEvent_copied hPlain (hTabs pi hMem)
  rw [hDone.index]
  unfold committedIndex
  cases hAdds : ae.booked && !bookmode with
  | true =>
    rw [if_pos rfl, List.append_nil]
    exact hCopies
  | false =>
    rw [if_neg Bool.false_ne_true]
    apply hCopies.concat
    intro line hLine
    rcases List.mem_filterMap.mp hLine with ⟨pi, hMem, hCopy⟩
    apply overlaps_eq_false
    intro hNone _
    rw [lbTimes_newLine hPlain]
    exact conflicts_of_accepted hPlain hTabs hDone hFlags hOld hAdds hMem hCopy hNone

end Accept

/- The last line that is checked says what comes out. -/
theorem rc_foldl_uncancelCheck {flags : UInt32} (hFlags : flags &&& pcpOkConflict = 0)
    (event : List Byte) (callback : ConflictCallback) (times : List EventTime)
    (index : List (List Byte)) :
    (index.foldl (uncancelCheck event flags callback times) ⟨false, 0⟩).rc =
      (uncancelOthers index event).getLast?.any (conflicts · times) := by
  -- from the end, where the last check is made
  induction index using List.reverseRecOn with
  | nil => rfl
  | append_singleton index pi ih =>
    rw [List.foldl_append, List.foldl_cons, List.foldl_nil]
    generalize index.foldl (uncancelCheck event flags callback times) ⟨false, 0⟩ = s at ih ⊢
    have hOthers : uncancelOthers (index ++ [pi]) event = uncancelOthers index event ++
          [pi].filter fun pi => !lbIsEventid pi event && !lbIsCancelled pi := by
      unfold uncancelOthers
      rw [List.filter_append]
    rw [hOthers, List.filter_singleton]
    unfold uncancelCheck
    cases hIs : lbIsEventid pi event with
    | true =>
      rw [Bool.not_true, if_neg Bool.false_ne_true, Bool.false_and, cond_false, List.append_nil]
      exact ih
    | false =>
      cases hCancelled : lbIsCancelled pi with
      | true =>
        have hSkip : ¬ (flags &&& pcpOkConflict = 0 ∧
            (!true) = true) := fun hBoth => nomatch hBoth.2
        rw [if_neg hSkip, Bool.not_true, Bool.and_false, cond_false, List.append_nil,
          Bool.not_false, if_pos rfl]
        exact ih
      | false =>
        rw [Bool.not_false, if_pos rfl, Bool.true_and, cond_true, if_pos ⟨hFlags, rfl⟩,
          List.getLast?_concat, rc_pcpIsConflict]
        rfl

theorem uncancelLine_other {event pi : List Byte} (hIs : lbIsEventid pi event = false) :
    uncancelLine event pi = pi := by
  unfold uncancelLine
  rw [hIs]
  rfl

/- An event that is apart from the others is uncancelled. -/
theorem NoOverlap.uncancelled {event pi : List Byte} (hNo : NoOverlap index)
    (hTabs : ∀ line, line ∈ index → tab ∈ line) (hDistinct : (index.map lbEventId).Nodup)
    (hFind : index.find? (lbIsEventid · event) = some pi)
    (hApart : ∀ line, line ∈ uncancelOthers index event →
      conflicts line (lbTimes pi) = false) : NoOverlap (index.map (uncancelLine event)) := by
  have hIs : lbIsEventid pi event = true := List.find?_some (p := (lbIsEventid · event)) hFind
  have hMem : pi ∈ index := List.mem_of_find?_eq_some hFind
  have hOnly : ∀ line, line ∈ index → lbIsEventid line event = true → line = pi := by
    intro line hLine hToo
    apply List.inj_on_of_nodup_map hDistinct hLine hMem
    rw [(eventid_of_isEventid hIs).2, (eventid_of_isEventid hToo).2]
  -- the event's line, and one of another event
  have hPair : ∀ line, line ∈ index → lbIsEventid line event = false →
        overlaps line (uncancelLine event pi) = false := by
    intro line hLine hOther
    apply overlaps_eq_false
    intro hNone _
    rw [lbTimes_uncancelLine (hTabs pi hMem)]
    apply hApart
    apply List.mem_filter.mpr
    rw [hOther, hNone]
    exact ⟨hLine, rfl⟩
  intro a' hA' b' hB' hIds
  rcases List.mem_map.mp hA' with ⟨a, hA, rfl⟩
  rcases List.mem_map.mp hB' with ⟨b, hB, rfl⟩
  rw [uncancelLine_id, uncancelLine_id] at hIds
  cases hIsA : lbIsEventid a event with
  | true =>
    rw [hOnly a hA hIsA] at hIds ⊢
    cases hIsB : lbIsEventid b event with
    | true => exact absurd (congrArg lbEventId (hOnly b hB hIsB)).symm hIds
    | false =>
      rw [overlaps_comm, uncancelLine_other hIsB]
      exact hPair b hB hIsB
  | false =>
    rw [uncancelLine_other hIsA]
    cases hIsB : lbIsEventid b event with
    | true =>
      rw [hOnly b hB hIsB]
      exact hPair a hA hIsA
    | false =>
      rw [uncancelLine_other hIsB]
      exact hNo a hA b hB hIds

------------
-- Runs
------------

theorem NoOverlap.step {s : Calendar} {op : Op} (hNo : NoOverlap s.index) (hSound : s.Sound)
    (hRefuses : op.RefusesConflicts) (hStands : op.CheckStands s) :
    NoOverlap (s.step op).index := by
  have hStep := stepped s op
  generalize s.step op = next at hStep
  cases hStep with
  | same => exact hNo
  | made => exact hNo
  | accepted hAt hDone =>
    rename_i k ae bookmode ci times bookTime disk done
    have hPlain := hSound.plain ae (List.mem_of_getElem? hAt)
    cases bookmode with
    | true => exact hNo.accepted hPlain hSound.tabs hDone hRefuses fun _ => hStands ae hAt
    | false => exact hNo.accepted hPlain hSound.tabs hDone hRefuses nofun
  | kept => exact hNo
  | destroyed hAt hIndex =>
    rcases hIndex with rfl | rfl
    · exact hNo
    · exact hNo.filter _
  | cancelled event disk =>
    rw [← List.filterMap_eq_map]
    apply hNo.filterMap
    intro pi hMem line hLine
    cases hLine
    exact sameEvent_cancelLine (hSound.tabs pi hMem) event
  | uncancelled hDisk hFind hTimes hChecks =>
    rename_i event flags callback disk pi times
    have hMem := List.mem_of_find?_eq_some hFind
    have hIs : lbIsEventid pi event = true := List.find?_some (p := (lbIsEventid · event)) hFind
    rw [rc_foldl_uncancelCheck hRefuses] at hChecks
    apply hNo.uncancelled hSound.tabs hSound.distinct hFind
    intro line hLine
    have hPerm := perm_uncancelTimes hTimes
    rw [← Bool.not_eq_true]
    intro hMeets
    have hLast := hStands hDisk.1 hDisk.2 pi hMem hIs (List.any_eq_true.mpr ⟨line, hLine, hMeets⟩)
    simp only [conflicts_perm hPerm] at hChecks
    exact Bool.false_ne_true (hChecks.symm.trans hLast)
  | deleted event disk => exact hNo.filter _
  | cleaned kept => exact hNo.filter kept

/-
  No double booking, when conflicts are not ignored and the
  result of each uncancel's checks stands.
-/
theorem noOverlap_of_reachable {s : Calendar}
    (hRun : Reachable
      (fun s op => op.RefusesConflicts ∧ op.CheckStands s) s) : NoOverlap s.index := by
  induction hRun with
  | start => exact nofun
  | step hRun hUnique hAllowed ih => exact ih.step hRun.sound hAllowed.1 hAllowed.2

/- Three events that are not in the index yet. -/
def threeEvents : Calendar :=
  ((Calendar.step ⟨[], []⟩
    (.neweventid (bytes "a") (bytes "f") none [])).step
    (.neweventid (bytes "b") (bytes "g") none [])).step
    (.neweventid (bytes "c") (bytes "h") none [])

theorem reachable_threeEvents (allowed : Calendar → Op → Prop)
    (hMade : ∀ s eventid newfile,
      allowed s (.neweventid eventid newfile none [])) : Reachable allowed threeEvents := by
  refine .step (.step (.step .start ?_ (hMade _ _ _)) ?_ (hMade _ _ _)) ?_ (hMade _ _ _)
  · exact ⟨by decide, by decide, by decide⟩
  · exact ⟨by decide, by decide, by decide⟩
  · exact ⟨by decide, by decide, by decide⟩

/- Two of them follow one another. -/
theorem noOverlap_threeEvents : let disk : Disk := ⟨true, true⟩
    NoOverlap ((threeEvents.step (.commit 0 ⟨0, [⟨1, 2⟩], none⟩ disk)).step
        (.commit 1 ⟨0, [⟨2, 3⟩], none⟩ disk)).index := by
  have hMade := reachable_threeEvents (fun s op => op.RefusesConflicts ∧ op.CheckStands s)
    fun _ _ _ => ⟨trivial, trivial⟩
  have hOne := hMade.next (.commit 0 ⟨0, [⟨1, 2⟩], none⟩ ⟨true, true⟩)
    trivial ⟨rfl, trivial⟩
  have hTwo := hOne.next (.commit 1 ⟨0, [⟨2, 3⟩], none⟩ ⟨true, true⟩)
    trivial ⟨rfl, trivial⟩
  exact noOverlap_of_reachable hTwo

/- An event is uncancelled though another one has its hour. -/
theorem not_noOverlap : ¬ ∀ s, Reachable (fun _ op => op.RefusesConflicts ∧ op.isBook = false) s →
      NoOverlap s.index := by
  intro hAll
  have hMade := reachable_threeEvents (fun _ op => op.RefusesConflicts ∧ op.isBook = false)
    fun _ _ _ => ⟨trivial, rfl⟩
  have hFirst := hMade.next (.commit 0 ⟨0, [⟨1, 2⟩], none⟩ ⟨true, true⟩)
    trivial ⟨rfl, rfl⟩
  have hCancelled := hFirst.next (.cancel (bytes "a") ⟨true, true⟩) trivial ⟨trivial, rfl⟩
  have hSecond := hCancelled.next (.commit 1 ⟨0, [⟨1, 2⟩], none⟩ ⟨true, true⟩)
    trivial ⟨rfl, rfl⟩
  -- the check of this one replaces that of the second
  have hThird := hSecond.next (.commit 2 ⟨0, [⟨2, 3⟩], none⟩ ⟨true, true⟩)
    trivial ⟨rfl, rfl⟩
  have hBack := hThird.next (.uncancel (bytes "a") 0 none ⟨true, true⟩)
    trivial ⟨rfl, rfl⟩
  exact absurd (hAll _ hBack) (by decide)

/- One of two times ends no later than the other starts. -/
def EventTime.apart (a b : EventTime) : Prop :=
  a.stop ≤ b.start ∨ b.stop ≤ a.start

/- Every time is one, and no two of them meet. -/
def ValidTimes (t : List EventTime) : Prop :=
  (∀ a ∈ t, a.start ≤ a.stop) ∧ t.Pairwise EventTime.apart

instance : Std.Total timesUpTo where
  total a b := by
    unfold timesUpTo
    rw [Int64.lt_iff_toInt_lt, Int64.lt_iff_toInt_lt, Int64.le_iff_toInt_le,
      Int64.le_iff_toInt_le, ← Int64.toInt_inj, ← Int64.toInt_inj]
    omega

instance : IsTrans EventTime timesUpTo where
  trans a b c := by
    unfold timesUpTo
    simp only [Int64.lt_iff_toInt_lt, Int64.le_iff_toInt_le, ← Int64.toInt_inj]
    omega

/- What the neighbours in order say about all pairs. -/
theorem timesInOrder_iff {t : List EventTime} (hSorted : t.Pairwise timesUpTo) :
    timesInOrder t = true ↔ ValidTimes t := by
  unfold ValidTimes
  induction t with
  | nil => simp [timesInOrder]
  | cons a t ih =>
    have hRest := ih (List.pairwise_cons.mp hSorted).2
    cases t with
    | nil => simp [timesInOrder]
    | cons b t =>
      have hAfter := (List.pairwise_cons.mp hSorted).1
      have hBehind := (List.pairwise_cons.mp (List.pairwise_cons.mp hSorted).2).1
      rw [timesInOrder, Bool.and_eq_true, Bool.and_eq_true, decide_eq_true_eq,
        decide_eq_true_eq, hRest, List.forall_mem_cons (a := a), List.pairwise_cons (a := a)]
      constructor
      · rintro ⟨⟨hA, hNext⟩, hAll, hApart⟩
        refine ⟨⟨hA, hAll⟩, ?_, hApart⟩
        intro c hC
        -- what comes later starts no earlier than the next one
        have hStart : b.start ≤ c.start := by
          rcases List.mem_cons.mp hC with rfl | hIn
          · exact Int64.le_refl _
          · rcases hBehind c hIn with hLess | hSame
            · exact Int64.le_of_lt hLess
            · exact hSame.1 ▸ Int64.le_refl _
        exact Or.inl (Int64.le_trans hNext hStart)
      · rintro ⟨⟨hA, hAll⟩, hFirst, hApart⟩
        refine ⟨⟨hA, ?_⟩, hAll, hApart⟩
        have hUpTo := hAfter b List.mem_cons_self
        have hB := hAll b List.mem_cons_self
        rcases hFirst b List.mem_cons_self with hEnds | hEnds
        · exact hEnds
        · unfold timesUpTo at hUpTo
          simp only [Int64.lt_iff_toInt_lt, Int64.le_iff_toInt_le, ← Int64.toInt_inj] at *
          omega

/-
  The times come back in order just when they are valid; none
  is the null pointer with `EINVAL`.
-/
theorem pcpAddSortTimes_iff (t : List EventTime) :
    (∀ times, pcpAddSortTimes t = some times → times.Perm t ∧ times.Pairwise timesUpTo) ∧
      ((pcpAddSortTimes t).isSome = true ↔ t ≠ [] ∧ ValidTimes t) := by
  have hSorted := List.pairwise_insertionSort timesUpTo t
  have hPerm := List.perm_insertionSort timesUpTo t
  have hSame : ValidTimes (t.insertionSort timesUpTo) ↔ ValidTimes t := by
    unfold ValidTimes
    have hSymm : ∀ {a b : EventTime}, a.apart b → b.apart a := Or.symm
    rw [hPerm.pairwise_iff hSymm]
    simp only [hPerm.mem_iff]
  constructor
  · intro times hSort
    refine ⟨perm_pcpAddSortTimes hSort, ?_⟩
    unfold pcpAddSortTimes at hSort
    split at hSort
    · cases hSort
    · dsimp only at hSort
      split at hSort
      · cases hSort
        exact hSorted
      · cases hSort
  · unfold pcpAddSortTimes
    rw [← hSame, ← timesInOrder_iff hSorted]
    split
    · rename_i hNone
      simp [hNone]
    · rename_i hSome
      dsimp only
      split
      · rename_i hOrder
        simp [hSome, hOrder]
      · rename_i hOrder
        simp [hOrder]

end Wmail.Pcpdir
