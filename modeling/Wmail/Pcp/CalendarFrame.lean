import Wmail.Pcp.CalendarRuns

/-
  What an operation on a calendar leaves alone.

  Key theorems include:
    * `cancel_uncancel_iff`
    * `calendar_frame`
-/

namespace Wmail.Pcpdir

/- The events that an operation is about. -/
def Op.named (s : Calendar) : Op → List (List Byte)
  | .neweventid _ _ _ _ => []
  | .book k _ _ _ | .commit k _ _ =>
    match s.events[k]? with
    | none => []
    | some ae => idPart ae.eventid :: (ae.oldeventid.map idPart).toList
  | .destroyeventid k _ =>
    match s.events[k]? with
    | none => []
    | some ae => [idPart ae.eventid]
  | .cancel event _ => [idPart event]
  | .uncancel event _ _ _ => [idPart event]
  | .delete event _ => [idPart event]
  | .cleanup kept => (s.index.filter (!kept ·)).map lbEventId

/- A line is of an event that is not in the list. -/
def isOther (names : List (List Byte)) (pi : List Byte) : Bool :=
  !names.contains (lbEventId pi)

section Others

variable {names : List (List Byte)} {pi : List Byte}

theorem isOther_iff : isOther names pi = true ↔ lbEventId pi ∉ names := by
  unfold isOther
  rw [Bool.not_eq_true', ← Bool.not_eq_true, List.contains_iff_mem]

theorem not_isEventid_of_isOther {event : List Byte}
    (hOther : isOther [idPart event] pi = true) : lbIsEventid pi event = false := by
  rw [isOther_iff, List.mem_singleton] at hOther
  cases hIs : lbIsEventid pi event with
  | false => rfl
  | true => exact absurd (eventid_of_isEventid hIs).2 hOther

/- Other lines stay when each line keeps its event. -/
theorem filter_isOther_map {f : List Byte → List Byte}
    (hKey : ∀ pi, lbEventId (f pi) = lbEventId pi)
    (hStay : ∀ pi, isOther names pi = true → f pi = pi) (index : List (List Byte)) :
    (index.map f).filter (isOther names) = index.filter (isOther names) := by
  rw [← List.filterMap_eq_map]
  apply filter_filterMap_of_keys (p := fun id => !names.contains id)
  · intro pi line hLine
    cases hLine
    exact hKey pi
  · intro pi hOther
    exact congrArg some (hStay pi hOther)

/- Other lines stay when they are among those that are kept. -/
theorem filter_isOther_filter {p : List Byte → Bool} {index : List (List Byte)}
    (hStay : ∀ pi, pi ∈ index → isOther names pi = true → p pi = true) :
    (index.filter p).filter (isOther names) = index.filter (isOther names) := by
  rw [List.filter_filter]
  apply List.filter_congr
  intro pi hMem
  cases hOther : isOther names pi with
  | false => rfl
  | true => exact hStay pi hMem hOther

end Others

variable {index : List (List Byte)}

/- What a booking or a commit writes. -/
theorem filter_isOther_committedIndex {ae : NewEventid} {bookmode : Bool} {ci : CommitInfo}
    {times : List EventTime} {bookTime : Int64} {names : List (List Byte)}
    (hNames : names = idPart ae.eventid :: (ae.oldeventid.map idPart).toList) :
    (committedIndex index ae bookmode ci times bookTime).filter (isOther names) =
      index.filter (isOther names) := by
  have hOwn : idPart ae.eventid ∈ names := hNames ▸ List.mem_cons_self
  have hCopies : (index.filterMap (copied ae bookmode)).filter
      (isOther names) = index.filter (isOther names) := by
    apply filter_filterMap_of_keys (p := fun id => !names.contains id)
    · exact fun pi line hCopy => copied_id hCopy
    · intro pi hOther
      have hOut := isOther_iff.mp hOther
      apply copied_other
      · exact fun hSame => hOut (hSame ▸ hOwn)
      · intro old hOld hSame
        apply hOut
        rw [hNames, hOld, hSame]
        exact List.mem_cons_of_mem _ List.mem_cons_self
  have hNew : isOther names (newLine index ae bookmode ci times bookTime) = false := by
    rw [← Bool.not_eq_true, isOther_iff, not_not]
    unfold newLine lineText
    rw [lbEventId_begins]
    exact hOwn
  unfold committedIndex
  rw [List.filter_append, hCopies]
  split
  · exact List.append_nil _
  · rw [List.filter_singleton, hNew]
    exact List.append_nil _

/- The lines of other events stay, in their order. -/
theorem step_filter_other (s : Calendar) (op : Op) :
    (s.step op).index.filter (isOther (op.named s)) = s.index.filter (isOther (op.named s)) := by
  have hStep := stepped s op
  generalize s.step op = next at hStep
  cases hStep with
  | same => rfl
  | made hMade => rfl
  | accepted hAt hDone =>
    rename_i k ae bookmode ci times bookTime disk done
    simp only [hDone.index]
    apply filter_isOther_committedIndex
    cases bookmode with
    | true => simp only [if_true, Op.named, hAt]
    | false => simp only [Bool.false_eq_true, if_false, Op.named, hAt]
  | kept hAt hKept => rfl
  | destroyed hAt hIndex =>
    rename_i k ae index disk
    simp only [Op.named, hAt]
    rcases hIndex with rfl | rfl
    · rfl
    · apply filter_isOther_filter
      intro pi _ hOther
      rw [not_isEventid_of_isOther hOther]
      rfl
  | cancelled event disk =>
    apply filter_isOther_map (cancelLine_id event)
    intro pi hOther
    unfold cancelLine
    rw [not_isEventid_of_isOther hOther]
    exact if_pos rfl
  | uncancelled =>
    apply filter_isOther_map (uncancelLine_id _)
    intro pi hOther
    unfold uncancelLine
    rw [not_isEventid_of_isOther hOther]
    exact if_pos rfl
  | deleted event disk =>
    apply filter_isOther_filter
    intro pi _ hOther
    rw [not_isEventid_of_isOther hOther]
    rfl
  | cleaned kept =>
    apply filter_isOther_filter
    intro pi hMem hOther
    cases hKept : kept pi with
    | true => rfl
    | false =>
      apply absurd _ (isOther_iff.mp hOther)
      exact List.mem_map_of_mem (List.mem_filter.mpr ⟨hMem, by rw [hKept]; rfl⟩)

/- No field is left out, or some are. -/
theorem lbRemoveField_eq_self_iff {pi : List Byte} (hTab : tab ∈ pi) (fieldname : List Byte) :
    lbRemoveField pi fieldname none = pi ↔ (lbFields pi).any (lbIsField · fieldname) = false := by
  rcases exists_lineText hTab with ⟨id, file, fields, rfl, hId, hFile, hFields⟩
  have hKept : ∀ p, p ∈ fields.filter (!lbIsField · fieldname) → tab ∉ p :=
    fun p hMem => hFields p (List.mem_of_mem_filter hMem)
  rw [(lbRemoveField_eq hId hFile hFields fieldname).1,
    (lineText_parts hId hFile hFields).2.2, List.any_eq_false]
  constructor
  · intro hSame p hMem hIs
    have hBack := congrArg lbFields hSame
    rw [(lineText_parts hId hFile hKept).2.2, (lineText_parts hId hFile hFields).2.2] at hBack
    have hPass := List.filter_eq_self.mp hBack p hMem
    rw [hIs] at hPass
    exact Bool.false_ne_true hPass
  · intro hNone
    rw [List.filter_eq_self.mpr]
    intro p hMem
    rw [Bool.not_eq_true', ← Bool.not_eq_true]
    exact hNone p hMem

/- A field that is added is the only one that is left out. -/
theorem lbRemoveField_append {pi : List Byte} (hTab : tab ∈ pi) (fieldname : List Byte)
    (hPlain : tab ∉ fieldname) (hNone : (lbFields pi).any (lbIsField · fieldname) = false)
    (hIs : lbIsField fieldname fieldname = true) :
    (lbFields (pi ++ tab :: fieldname)).any (lbIsField · fieldname) = true ∧
      lbRemoveField (pi ++ tab :: fieldname) fieldname none = pi := by
  have hSame := (lbRemoveField_eq_self_iff hTab fieldname).mpr hNone
  rcases exists_lineText hTab with ⟨id, file, fields, rfl, hId, hFile, hFields⟩
  have hMore : ∀ p, p ∈ fields ++ [fieldname] → tab ∉ p := by
    intro p hMem
    rcases List.mem_append.mp hMem with hIn | hIn
    · exact hFields p hIn
    · exact List.mem_singleton.mp hIn ▸ hPlain
  rw [(lbRemoveField_eq hId hFile hFields fieldname).1] at hSame
  rw [lineText_concat, (lineText_parts hId hFile hMore).2.2,
    (lbRemoveField_eq hId hFile hMore fieldname).1]
  constructor
  · rw [List.any_append, List.any_cons, hIs, Bool.true_or, Bool.or_true]
  · have hDrop : [fieldname].filter (!lbIsField · fieldname) = [] := by
      rw [List.filter_singleton, hIs]
      rfl
    rw [List.filter_append, hDrop, List.append_nil]
    exact hSame

section Lines

variable {event pi : List Byte}

theorem uncancelLine_eq_self_iff : uncancelLine event pi = pi ↔ (lbIsEventid pi event = true →
        lbIsCancelled pi = false) := by
  unfold uncancelLine
  cases hIs : lbIsEventid pi event with
  | false => exact iff_of_true (if_pos rfl) nofun
  | true =>
    rw [Bool.not_true, if_neg Bool.false_ne_true, imp_iff_right (rfl : true = true)]
    cases hCancelled : lbIsCancelled pi with
    | false => exact iff_of_true (if_pos rfl) rfl
    | true =>
      rw [Bool.not_true, if_neg Bool.false_ne_true,
        lbRemoveField_eq_self_iff (eventid_of_isEventid hIs).1]
      exact hCancelled ▸ Iff.rfl

/- A line that is cancelled has its field once. -/
theorem uncancelLine_cancelLine (hIs : lbIsEventid pi event = true)
    (hNone : lbIsCancelled pi = false) : uncancelLine event (cancelLine event pi) = pi := by
  have hTab := (eventid_of_isEventid hIs).1
  have hLine : cancelLine event pi = pi ++ tab :: CANCELLED_FIELD := by
    unfold cancelLine
    rw [hIs, hNone]
    rfl
  have hStill : lbIsEventid (pi ++ tab :: CANCELLED_FIELD) event = true := by
    apply List.isPrefixOf_iff_prefix.mpr
    exact (List.isPrefixOf_iff_prefix.mp hIs).trans (List.prefix_append pi _)
  rcases lbRemoveField_append hTab CANCELLED_FIELD (by decide)
    hNone (by decide) with ⟨hCancelled, hBack⟩
  rw [hLine]
  unfold uncancelLine lbIsCancelled
  rw [hStill, hCancelled]
  exact hBack

/- Both together give a line back, if it was not cancelled. -/
theorem uncancelLine_cancelLine_iff :
    uncancelLine event (cancelLine event pi) = pi ↔ (lbIsEventid pi event = true →
        lbIsCancelled pi = false) := by
  cases hIs : lbIsEventid pi event with
  | false =>
    have hStay : cancelLine event pi = pi := by
      unfold cancelLine
      rw [hIs]
      rfl
    rw [hStay, uncancelLine_eq_self_iff, hIs]
  | true =>
    cases hCancelled : lbIsCancelled pi with
    | false => exact iff_of_true (uncancelLine_cancelLine hIs hCancelled) fun _ => rfl
    | true =>
      have hStay : cancelLine event pi = pi := by
        unfold cancelLine
        rw [hIs, hCancelled]
        rfl
      rw [hStay, uncancelLine_eq_self_iff, hIs, hCancelled]

end Lines

/- What is changed line by line stays if each line does. -/
theorem map_eq_self_iff {f : List Byte → List Byte} {index : List (List Byte)} :
    index.map f = index ↔ ∀ pi, pi ∈ index → f pi = pi := by
  nth_rewrite 2 [← List.map_id index]
  exact List.map_inj_left

/- An uncancel that succeeds changes the event's lines. -/
theorem uncancelevent_ok {disk : Disk} {event : List Byte} {flags : UInt32}
    {callback : ConflictCallback}
    (hOk : (uncancelevent disk index event flags callback).ok = true) :
    (uncancelevent disk index event flags callback).index = index.map (uncancelLine event) := by
  unfold uncancelevent at hOk ⊢
  split at hOk
  · cases hOk
  · rename_i hLocks
    rw [if_neg hLocks]
    split at hOk
    · cases hOk
    · split at hOk
      · cases hOk
      · simp only [] at hOk ⊢
        split at hOk
        · rename_i hFine
          rw [if_pos hFine]
        · cases hOk

/-
  A cancel, and an uncancel that succeeds, give the index back
  if no line of the event was cancelled before.
-/
theorem cancel_uncancel_iff {disk disk' : Disk} {event : List Byte} {flags : UInt32}
    {callback : ConflictCallback}
    (hOk :
      (uncancelevent disk' (cancelevent disk index event).index event flags callback).ok = true) :
    (uncancelevent disk' (cancelevent disk index event).index event flags callback).index = index ↔
      ∀ pi, pi ∈ index → lbIsEventid pi event = true → lbIsCancelled pi = false := by
  rw [uncancelevent_ok hOk]
  rcases cancelevent_index disk index event with hSame | hMap
  · rw [hSame, map_eq_self_iff]
    exact forall₂_congr fun _ _ => uncancelLine_eq_self_iff
  · rw [hMap, List.map_map, map_eq_self_iff]
    exact forall₂_congr fun _ _ => uncancelLine_cancelLine_iff

/-
  In every calendar that can be reached an operation leaves
  the lines of the events it does not name, no two lines have
  one event id, and uncancelling gives back the lines of an
  event that was not cancelled before it was cancelled.
-/
theorem calendar_frame {s : Calendar} (hRun : Reachable (fun _ _ => True) s) :
    (∀ op : Op,
      (s.step op).index.filter (isOther (op.named s)) = s.index.filter (isOther (op.named s))) ∧
    (s.index.map lbEventId).Nodup ∧
    ∀ event flags callback disk disk', (uncancelevent disk' (cancelevent disk s.index event).index
          event flags callback).ok = true →
        (((s.step (.cancel event disk)).step
            (.uncancel event flags callback disk')).index =
            s.index ↔
          ∀ pi, pi ∈ s.index → lbIsEventid pi event = true → lbIsCancelled pi = false) := by
  refine ⟨step_filter_other s, hRun.sound.distinct, ?_⟩
  intro event flags callback disk disk' hOk
  exact cancel_uncancel_iff hOk

/- A calendar with an event. -/
def someCalendar : Calendar :=
  (Calendar.step ⟨[], []⟩
      (.neweventid (bytes "a") (bytes "f") none [])).step
    (.commit 0 ⟨0, [⟨1, 2⟩], none⟩ ⟨true, true⟩)

theorem reachable_someCalendar : Reachable (fun _ _ => True) someCalendar := by
  refine .step (.step .start ?_ trivial) trivial trivial
  exact ⟨nofun, by decide, by decide⟩

theorem calendar_frame_some : ((someCalendar.step (.cancel (bytes "a") ⟨true, true⟩)).step
      (.uncancel (bytes "a") 0 none ⟨true, true⟩)).index = someCalendar.index :=
  ((calendar_frame reachable_someCalendar).2.2 (bytes "a") 0 none
    ⟨true, true⟩ ⟨true, true⟩ (by decide)).mpr (by decide)

/- The calendar with its event cancelled. -/
def cancelledCalendar : Calendar :=
  someCalendar.step (.cancel (bytes "a") ⟨true, true⟩)

/- An event that is cancelled twice is uncancelled at once. -/
theorem not_calendar_frame : ¬ ∀ s, Reachable (fun _ _ => True) s →
      ∀ event flags callback disk disk', (uncancelevent disk' (cancelevent disk s.index event).index
            event flags callback).ok = true →
          ((s.step (.cancel event disk)).step
            (.uncancel event flags callback disk')).index = s.index := by
  intro hAll
  have hSame := hAll cancelledCalendar (reachable_someCalendar.step trivial trivial) (bytes "a")
    0 none ⟨true, true⟩ ⟨true, true⟩ (by decide)
  exact absurd hSame (by decide)

end Wmail.Pcpdir
