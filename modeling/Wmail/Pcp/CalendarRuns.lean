import Wmail.Core.Keyed
import Wmail.Pcp.Pcpdir

/-
  The calendars that can be reached, and the lines of their
  indexes.

  Key theorems include:
    * `Calendar.Sound.docommit`
    * `Reachable.sound`
-/

namespace Wmail.Pcpdir

/- `mkunique`: what is made is new, and has no tabs. -/
def Op.Unique (s : Calendar) : Op → Prop
  | .neweventid eventid newfile _ _ =>
    (∀ ae, ae ∈ s.events → ae.eventid ≠ eventid) ∧ tab ∉ eventid ∧ tab ∉ newfile
  | _ => True

/- The calendars that allowed operations lead to. -/
inductive Reachable (allowed : Calendar → Op → Prop) : Calendar → Prop where
  | start : Reachable allowed ⟨[], []⟩
  | step
      {s : Calendar}
      {op : Op}
      (hRun : Reachable allowed s)
      (hUnique : op.Unique s)
      (hAllowed : allowed s op) :
      Reachable allowed (s.step op)

/- A booking, before the event is committed. -/
def Op.isBook : Op → Bool
  | .book _ _ _ _ => true
  | _ => false

theorem Reachable.next {allowed : Calendar → Op → Prop} {s : Calendar}
    (hRun : Reachable allowed s) (op : Op) (hUnique : op.Unique s)
    (hAllowed : allowed s op) : Reachable allowed (s.step op) :=
  .step hRun hUnique hAllowed

/- What an event writes into its line has no tabs. -/
structure NewEventid.Plain (ae : NewEventid) : Prop where
  eventid : tab ∉ ae.eventid
  newfile : tab ∉ ae.newfile
  participants : ∀ p, p ∈ ae.eventParticipants → tab ∉ participantText p

variable {ae : NewEventid}

/- The field of a hold. -/
theorem NewEventid.Plain.holdField (hPlain : ae.Plain) :
    tab ∉ PENDEL_FIELD ++ chr '=' :: ae.eventid := by
  rw [List.mem_append, List.mem_cons]
  rintro (hName | hEq | hValue)
  · exact absurd hName (by decide)
  · exact absurd hEq (by decide)
  · exact hPlain.eventid hValue

/-
  The lines of the index are those of events that were made,
  one for each, and an event that may still be committed has
  a line when it is booked only.
-/
structure Calendar.Sound (s : Calendar) : Prop where
  ids : (s.events.map (·.eventid)).Nodup
  plain : ∀ ae, ae ∈ s.events → ae.Plain
  tabs : ∀ pi, pi ∈ s.index → tab ∈ pi
  made : ∀ id, id ∈ s.index.map lbEventId → id ∈ s.events.map (·.eventid)
  distinct : (s.index.map lbEventId).Nodup
  absent : ∀ ae, ae ∈ s.events → ae.tmpfile = true → ae.booked = false →
        ae.eventid ∉ s.index.map lbEventId

theorem sound_start : Calendar.Sound ⟨[], []⟩ where
  ids := List.nodup_nil
  plain := nofun
  tabs := nofun
  made := nofun
  distinct := List.nodup_nil
  absent := nofun

/- A line keeps its event when it is copied. -/
theorem copied_id {bookmode : Bool} {pi line : List Byte}
    (hCopy : copied ae bookmode pi = some line) : lbEventId line = lbEventId pi := by
  unfold copied at hCopy
  split at hCopy
  · split at hCopy
    · cases hCopy
    · cases hCopy
      exact lbEventId_lbRemoveField pi BOOKED_FIELD none
  · split at hCopy
    · split at hCopy
      · cases hCopy
        unfold held
        split
        · rfl
        · exact lbEventId_lbRemoveField pi PENDEL_FIELD _
      · cases hCopy
    · cases hCopy
      rfl

theorem copied_tab {bookmode : Bool} {pi line : List Byte} (hTab : tab ∈ pi)
    (hCopy : copied ae bookmode pi = some line) : tab ∈ line := by
  unfold copied at hCopy
  split at hCopy
  · split at hCopy
    · cases hCopy
    · cases hCopy
      exact tab_mem_lbRemoveField pi BOOKED_FIELD none
  · split at hCopy
    · split at hCopy
      · cases hCopy
        unfold held
        split
        · exact hTab
        · exact tab_mem_lbRemoveField pi PENDEL_FIELD _
      · cases hCopy
    · cases hCopy
      exact hTab

variable {pi : List Byte}

/- Lines of events that are not named stay. -/
theorem copied_other (hOwn : lbEventId pi ≠ idPart ae.eventid)
    (hOld : ∀ old, ae.oldeventid = some old →
      lbEventId pi ≠ idPart old) (bookmode : Bool) : copied ae bookmode pi = some pi := by
  have hNotOwn : ¬ ae.ownBooking pi = true := by
    unfold NewEventid.ownBooking
    rw [Bool.and_eq_true]
    exact fun hIs => hOwn (eventid_of_isEventid hIs.2).2
  have hNotOld : ¬ ae.isOld pi = true := by
    unfold NewEventid.isOld
    rw [Option.any_eq_true]
    rintro ⟨old, hSome, hIs⟩
    exact hOld old hSome (eventid_of_isEventid hIs).2
  unfold copied
  rw [if_neg hNotOwn, if_neg hNotOld]

/- An event that is cancelled keeps its line's beginning. -/
theorem cancelLine_id (event pi : List Byte) : lbEventId (cancelLine event pi) = lbEventId pi := by
  unfold cancelLine
  cases hIs : lbIsEventid pi event with
  | false => rfl
  | true =>
    rw [Bool.not_true, if_neg Bool.false_ne_true]
    split
    · rfl
    · exact lbEventId_append (eventid_of_isEventid hIs).1 _

theorem cancelLine_tab (hTab : tab ∈ pi) (event : List Byte) : tab ∈ cancelLine event pi := by
  unfold cancelLine
  split
  · exact hTab
  · split
    · exact hTab
    · exact List.mem_append_left _ hTab

theorem uncancelLine_id (event pi : List Byte) :
    lbEventId (uncancelLine event pi) = lbEventId pi := by
  unfold uncancelLine
  split
  · rfl
  · split
    · rfl
    · exact lbEventId_lbRemoveField pi CANCELLED_FIELD none

theorem uncancelLine_tab (hTab : tab ∈ pi) (event : List Byte) : tab ∈ uncancelLine event pi := by
  unfold uncancelLine
  split
  · exact hTab
  · split
    · exact hTab
    · exact tab_mem_lbRemoveField pi CANCELLED_FIELD none

theorem cancelevent_index (disk : Disk) (index : List (List Byte)) (event : List Byte) :
    (cancelevent disk index event).index = index ∨
      (cancelevent disk index event).index = index.map (cancelLine event) := by
  unfold cancelevent
  split
  · exact Or.inl rfl
  · split
    · exact Or.inl rfl
    · split
      · exact Or.inr rfl
      · exact Or.inl rfl

/- An event is uncancelled after the checks of all lines. -/
theorem uncancelevent_index (disk : Disk) (index : List (List Byte)) (event : List Byte)
    (flags : UInt32) (callback : ConflictCallback) :
    (uncancelevent disk index event flags callback).index = index ∨
      ((uncancelevent disk index event flags callback).index = index.map (uncancelLine event) ∧
        (disk.locks = true ∧ disk.renames = true) ∧
        ∃ pi times, index.find? (lbIsEventid · event) = some pi ∧
          uncancelTimes pi = some times ∧ (index.foldl (uncancelCheck event flags callback times)
              ⟨false, 0⟩).rc = false) := by
  unfold uncancelevent
  split
  · exact Or.inl rfl
  · rename_i hLocks
    rw [Bool.not_eq_true', Bool.not_eq_false] at hLocks
    split
    · exact Or.inl rfl
    · rename_i pi hFind
      split
      · exact Or.inl rfl
      · rename_i times hTimes
        simp only []
        split
        · rename_i hOk
          rw [Bool.and_eq_true, Bool.not_eq_true'] at hOk
          exact Or.inr ⟨rfl, ⟨hLocks, hOk.2⟩, pi, times, hFind, hTimes, hOk.1⟩
        · exact Or.inl rfl

theorem deleteevent_index (disk : Disk) (index : List (List Byte)) (event : List Byte) :
    (deleteevent disk index event).index = index ∨
      (deleteevent disk index event).index = index.filter (!lbIsEventid · event) := by
  unfold deleteevent
  split
  · exact Or.inl rfl
  · split
    · exact Or.inl rfl
    · split
      · exact Or.inr rfl
      · exact Or.inl rfl

/- What an operation can do with a calendar. -/
inductive Stepped (s : Calendar) : Op → Calendar → Prop where
  | same (op : Op) : Stepped s op s
  | made
      {eventid newfile : List Byte}
      {oldeventid : Option (List Byte)}
      {participants : List (List Byte × Option (List Byte))}
      {ae : NewEventid}
      (hMade :
        neweventid eventid newfile oldeventid participants = some ae) :
      Stepped s (.neweventid eventid newfile oldeventid participants)
        { s with events := s.events ++ [ae] }
  | accepted
      {k : Nat}
      {ae : NewEventid}
      {bookmode : Bool}
      {ci : CommitInfo}
      {times : List EventTime}
      {bookTime : Int64}
      {disk : Disk}
      {done : Committed}
      (hAt : s.events[k]? = some ae)
      (hDone :
        Accepted s.index ae bookmode ci times bookTime done) :
      Stepped s (if bookmode then .book k ci bookTime disk
          else .commit k ci disk)
        ⟨done.index, s.events.set k done.ae⟩
  | kept
      {op : Op}
      {k : Nat}
      {ae ae' : NewEventid}
      (hAt : s.events[k]? = some ae)
      (hKept : Kept s.index ae ae') :
      Stepped s op { s with events := s.events.set k ae' }
  | destroyed
      {k : Nat}
      {ae : NewEventid}
      {index : List (List Byte)}
      {disk : Disk}
      (hAt : s.events[k]? = some ae)
      (hIndex : index = s.index ∨ index = s.index.filter (!lbIsEventid · ae.eventid)) :
      Stepped s (.destroyeventid k disk) ⟨index, s.events.set k { ae with tmpfile := false }⟩
  | cancelled (event : List Byte) (disk : Disk) : Stepped s (.cancel event disk)
        { s with index := s.index.map (cancelLine event) }
  | uncancelled
      {event : List Byte}
      {flags : UInt32}
      {callback : ConflictCallback}
      {disk : Disk}
      {pi : List Byte}
      {times : List EventTime}
      (hDisk : disk.locks = true ∧ disk.renames = true)
      (hFind : s.index.find? (lbIsEventid · event) = some pi)
      (hTimes : uncancelTimes pi = some times)
      (hChecks :
        (s.index.foldl
          (uncancelCheck event flags callback times)
          ⟨false, 0⟩).rc = false) :
      Stepped s (.uncancel event flags callback disk)
        { s with index := s.index.map (uncancelLine event) }
  | deleted (event : List Byte) (disk : Disk) : Stepped s (.delete event disk)
        { s with
          index := s.index.filter (!lbIsEventid · event) }
  | cleaned (kept : List Byte → Bool) : Stepped s (.cleanup kept)
        { s with index := s.index.filter kept }

theorem stepped_docommit (s : Calendar) (k : Nat) (bookmode : Bool) (ci : CommitInfo)
    (bookTime : Int64) (disk : Disk) :
    Stepped s (if bookmode then .book k ci bookTime disk
        else .commit k ci disk)
      (s.docommit k bookmode ci bookTime disk) := by
  unfold Calendar.docommit
  cases hAt : s.events[k]? with
  | none => exact .same _
  | some ae =>
    rcases docommitevent_cases disk bookTime s.index ae bookmode
      ci with ⟨_, times, hDone⟩ | ⟨_, hIndex, hKept⟩
    · exact .accepted hAt hDone
    · simp only [hIndex]
      exact .kept hAt hKept

theorem stepped (s : Calendar) (op : Op) : Stepped s op (s.step op) := by
  cases op with
  | neweventid eventid newfile oldeventid participants =>
    simp only [Calendar.step]
    cases hMade : neweventid eventid newfile oldeventid participants with
    | none => exact .same _
    | some ae => exact .made hMade
  | book k ci bookTime disk => exact stepped_docommit s k true ci bookTime disk
  | commit k ci disk => exact stepped_docommit s k false ci 0 disk
  | destroyeventid k disk =>
    simp only [Calendar.step]
    cases hAt : s.events[k]? with
    | none => exact .same _
    | some ae =>
      refine .destroyed hAt ?_
      split
      · exact deleteevent_index disk s.index ae.eventid
      · exact Or.inl rfl
  | cancel event disk =>
    simp only [Calendar.step]
    rcases cancelevent_index disk s.index event with hSame | hMap
    · rw [hSame]
      exact .same _
    · rw [hMap]
      exact .cancelled event disk
  | uncancel event flags callback disk =>
    simp only [Calendar.step]
    rcases uncancelevent_index disk s.index event flags callback
      with hSame | ⟨hMap, hDisk, pi, times, hFind, hTimes, hChecks⟩
    · rw [hSame]
      exact .same _
    · rw [hMap]
      exact .uncancelled hDisk hFind hTimes hChecks
  | delete event disk =>
    simp only [Calendar.step]
    rcases deleteevent_index disk s.index event with hSame | hFilter
    · rw [hSame]
      exact .same _
    · rw [hFilter]
      exact .deleted event disk
  | cleanup kept => exact .cleaned kept

variable {s : Calendar}

/- Lines are left out, or changed and keep their event. -/
theorem Calendar.Sound.filterMap {f : List Byte → Option (List Byte)} (hSound : s.Sound)
    (hKey : ∀ pi line, f pi = some line → lbEventId line = lbEventId pi)
    (hTab : ∀ pi line, tab ∈ pi → f pi = some line →
      tab ∈ line) : Calendar.Sound { s with index := s.index.filterMap f } := by
  have hSublist := keys_filterMap_sublist hKey s.index
  refine ⟨hSound.ids, hSound.plain, ?_, ?_, ?_, ?_⟩
  · intro line hMem
    rcases List.mem_filterMap.mp hMem with ⟨pi, hPi, hLine⟩
    exact hTab pi line (hSound.tabs pi hPi) hLine
  · exact fun id hMem => hSound.made id (hSublist.mem hMem)
  · exact hSound.distinct.sublist hSublist
  · exact fun ae hMem hFile hBooked hLine =>
      hSound.absent ae hMem hFile hBooked (hSublist.mem hLine)

theorem Calendar.Sound.filter (hSound : s.Sound) (p : List Byte → Bool) :
    Calendar.Sound { s with index := s.index.filter p } := by
  rw [← List.filterMap_eq_filter]
  apply hSound.filterMap
  · intro pi line hLine
    rw [(Option.guard_eq_some_iff.mp hLine).1]
  · intro pi line hTab hLine
    exact (Option.guard_eq_some_iff.mp hLine).1 ▸ hTab

theorem Calendar.Sound.map {f : List Byte → List Byte} (hSound : s.Sound)
    (hKey : ∀ pi, lbEventId (f pi) = lbEventId pi) (hTab : ∀ pi, tab ∈ pi → tab ∈ f pi) :
    Calendar.Sound { s with index := s.index.map f } := by
  rw [← List.filterMap_eq_map]
  apply hSound.filterMap
  · intro pi line hLine
    cases hLine
    exact hKey pi
  · intro pi line hIn hLine
    cases hLine
    exact hTab pi hIn

/- Lines of a sound calendar's events are compared whole. -/
theorem Calendar.Sound.isEventid_iff (hSound : s.Sound) (hEvent : ae ∈ s.events)
    (hLine : pi ∈ s.index) : lbIsEventid pi ae.eventid = true ↔ lbEventId pi = ae.eventid := by
  rw [lbIsEventid_iff (hSound.plain ae hEvent).eventid]
  exact and_iff_right (hSound.tabs pi hLine)

/- What `neweventid` makes has no tabs. -/
theorem plain_neweventid {eventid newfile : List Byte} {oldeventid : Option (List Byte)}
    {participants : List (List Byte × Option (List Byte))} (hEventid : tab ∉ eventid)
    (hNewfile : tab ∉ newfile)
    (hMade : neweventid eventid newfile oldeventid participants = some ae) : ae.Plain := by
  have hBlank : isspace tab = true := rfl
  have hNoTab : ∀ text : List Byte, ¬ text.any isspace = true → tab ∉ text :=
    fun text hNone hMem => hNone (List.any_eq_true.mpr ⟨tab, hMem, hBlank⟩)
  unfold neweventid at hMade
  split at hMade
  · cases hMade
  · rename_i hNone
    cases hMade
    refine ⟨hEventid, hNewfile, ?_⟩
    intro p hMem
    have hText : ¬ (p.1.any isspace || p.2.any (·.any isspace)) = true :=
      fun hAny => hNone (List.any_eq_true.mpr ⟨p, hMem, hAny⟩)
    rw [Bool.or_eq_true, not_or] at hText
    have hAddress := hNoTab p.1 hText.1
    unfold participantText
    intro hIn
    rcases List.mem_append.mp hIn with hName | hValue
    · exact absurd hName (by decide)
    · rcases List.mem_cons.mp hValue with hEq | hValue
      · exact absurd hEq (by decide)
      · rcases List.mem_append.mp hValue with hOne | hTwo
        · exact hAddress hOne
        · cases hId : p.2 with
          | none =>
            rw [hId] at hTwo
            exact List.not_mem_nil hTwo
          | some q =>
            rw [hId] at hTwo hText
            rcases List.mem_cons.mp hTwo with hEq | hTwo
            · exact absurd hEq (by decide)
            · exact hNoTab q hText.2 hTwo

/- The event with a number changes, but not its text. -/
theorem Calendar.Sound.set {k : Nat} {ae ae' : NewEventid} (hSound : s.Sound)
    (hAt : s.events[k]? = some ae)
    (hText : ae'.eventid = ae.eventid ∧
      ae'.newfile = ae.newfile ∧ ae'.eventParticipants = ae.eventParticipants)
    (hAbsent : ae'.tmpfile = true → ae'.booked = false → ae'.eventid ∉ s.index.map lbEventId) :
    Calendar.Sound { s with events := s.events.set k ae' } := by
  rcases hText with ⟨hEventid, hNewfile, hParticipants⟩
  have hIds : (s.events.set k ae').map (·.eventid) =
      s.events.map (·.eventid) := map_set_keyed hAt hEventid
  have hPlain := hSound.plain ae (List.mem_of_getElem? hAt)
  refine ⟨?_, ?_, hSound.tabs, ?_, hSound.distinct, ?_⟩
  · rw [hIds]
    exact hSound.ids
  · intro x hMem
    rcases List.mem_or_eq_of_mem_set hMem with hIn | rfl
    · exact hSound.plain x hIn
    · exact ⟨hEventid ▸ hPlain.eventid, hNewfile ▸ hPlain.newfile,
        hParticipants ▸ hPlain.participants⟩
  · rw [hIds]
    exact hSound.made
  · intro x hMem
    rcases List.mem_or_eq_of_mem_set hMem with hIn | rfl
    · exact hSound.absent x hIn
    · exact hAbsent

section Accept

variable {s : Calendar} {k : Nat} {ae : NewEventid} {bookmode : Bool} {ci : CommitInfo}
variable {times : List EventTime} {bookTime : Int64} {done : Committed}

/- The line that is added is the event's only one. -/
theorem not_mem_copied_ids (hSound : s.Sound) (hAt : s.events[k]? = some ae)
    (hDone : Accepted s.index ae bookmode ci times bookTime done)
    (hAdds : (ae.booked && !bookmode) = false) :
    ae.eventid ∉ (s.index.filterMap (copied ae bookmode)).map lbEventId := by
  have hEvent := List.mem_of_getElem? hAt
  intro hMem
  rcases List.mem_map.mp hMem with ⟨line, hLine, hId⟩
  rcases List.mem_filterMap.mp hLine with ⟨pi, hPi, hCopy⟩
  have hSame : lbEventId pi = ae.eventid := (copied_id hCopy).symm.trans hId
  cases hBooked : ae.booked with
  | false =>
    exact hSound.absent ae hEvent hDone.tmpfile hBooked (List.mem_map.mpr ⟨pi, hPi, hSame⟩)
  | true =>
    have hMode : bookmode = true := by
      rw [hBooked, Bool.true_and, Bool.not_eq_false'] at hAdds
      exact hAdds
    have hOwn : ae.ownBooking pi = true := by
      unfold NewEventid.ownBooking
      rw [hBooked, Bool.true_and]
      exact (hSound.isEventid_iff hEvent hPi).mpr hSame
    unfold copied at hCopy
    rw [if_pos hOwn, if_pos hMode] at hCopy
    cases hCopy

theorem lbEventId_newLine (hPlain : ae.Plain) (index : List (List Byte)) :
    lbEventId (newLine index ae bookmode ci times bookTime) = ae.eventid := by
  unfold newLine lineText
  rw [lbEventId_begins, idPart_of_not_mem hPlain.eventid]

theorem Calendar.Sound.accepted (hSound : s.Sound) (hAt : s.events[k]? = some ae)
    (hDone : Accepted s.index ae bookmode ci times bookTime done) :
    Calendar.Sound ⟨done.index, s.events.set k done.ae⟩ := by
  have hEvent := List.mem_of_getElem? hAt
  have hLines := hSound.filterMap (f := copied ae bookmode)
    (fun _ _ => copied_id) (fun _ _ => copied_tab)
  have hText : done.ae.eventid = ae.eventid ∧ done.ae.newfile = ae.newfile ∧
        done.ae.eventParticipants = ae.eventParticipants := by
    rw [hDone.event]
    exact ⟨rfl, rfl, rfl⟩
  have hSettled : ¬ (done.ae.tmpfile = true ∧ done.ae.booked = false) := by
    rw [hDone.event]
    rintro ⟨hFile, hBooked⟩
    exact Bool.false_ne_true (hBooked.symm.trans hFile)
  have hEvents := hLines.set hAt hText fun hFile hBooked => absurd ⟨hFile, hBooked⟩ hSettled
  rw [hDone.index]
  unfold committedIndex
  cases hAdds : ae.booked && !bookmode with
  | true =>
    rw [if_pos rfl, List.append_nil]
    exact hEvents
  | false =>
    have hId : lbEventId (newLine s.index ae bookmode ci times bookTime) = ae.eventid :=
      lbEventId_newLine (hSound.plain ae hEvent) s.index
    have hNew := not_mem_copied_ids hSound hAt hDone hAdds
    have hMade : ae.eventid ∈ (s.events.set k done.ae).map (·.eventid) := by
      have hSame : (s.events.set k done.ae).map (·.eventid) = s.events.map (·.eventid) :=
        map_set_keyed hAt hText.1
      rw [hSame]
      exact List.mem_map_of_mem hEvent
    have hKeys : (s.index.filterMap (copied ae bookmode) ++
        [newLine s.index ae bookmode ci times bookTime]).map lbEventId =
        (s.index.filterMap (copied ae bookmode)).map
          lbEventId ++ [ae.eventid] := by
      rw [List.map_append, List.map_singleton, hId]
    rw [if_neg Bool.false_ne_true]
    refine ⟨hEvents.ids, hEvents.plain, ?_, ?_, ?_, ?_⟩
    · intro pi hMem
      rcases List.mem_append.mp hMem with hIn | hIn
      · exact hLines.tabs pi hIn
      · rw [List.mem_singleton.mp hIn]
        exact List.mem_append_right _ List.mem_cons_self
    · intro id hMem
      rw [hKeys] at hMem
      rcases List.mem_append.mp hMem with hIn | hIn
      · exact hEvents.made id hIn
      · exact List.mem_singleton.mp hIn ▸ hMade
    · rw [hKeys]
      exact List.nodup_append.mpr ⟨hLines.distinct, List.nodup_singleton _, by
          intro id hIn other hOther hSame
          rw [List.mem_singleton.mp hOther] at hSame
          exact hNew (hSame ▸ hIn)⟩
    · intro x hMem hFile hBooked hIn
      rw [hKeys] at hIn
      rcases mem_set_keyed hSound.ids hAt hMem with rfl | ⟨hOld, hOther⟩
      · exact hSettled ⟨hFile, hBooked⟩
      · rcases List.mem_append.mp hIn with hIn | hIn
        · exact hLines.absent x hOld hFile hBooked hIn
        · exact hOther (List.mem_singleton.mp hIn)

end Accept

/- A booking that is gone has no line. -/
theorem Calendar.Sound.kept {k : Nat} {ae ae' : NewEventid} (hSound : s.Sound)
    (hAt : s.events[k]? = some ae) (hKept : Kept s.index ae ae') :
    Calendar.Sound { s with events := s.events.set k ae' } := by
  have hEvent := List.mem_of_getElem? hAt
  cases hKept with
  | same => exact hSound.set hAt ⟨rfl, rfl, rfl⟩ (hSound.absent ae hEvent)
  | gone hBooked hNone =>
    have hAbsent : ae.eventid ∉ s.index.map lbEventId := by
      intro hMem
      rcases List.mem_map.mp hMem with ⟨pi, hPi, hId⟩
      have hOwn : ae.ownBooking pi = true := by
        unfold NewEventid.ownBooking
        rw [hBooked, Bool.true_and]
        exact (hSound.isEventid_iff hEvent hPi).mpr hId
      rw [List.any_eq_false] at hNone
      exact hNone pi hPi hOwn
    exact hSound.set hAt ⟨rfl, rfl, rfl⟩ fun _ _ => hAbsent

theorem Calendar.Sound.made_event {eventid newfile : List Byte}
    {oldeventid : Option (List Byte)} {participants : List (List Byte × Option (List Byte))}
    (hSound : s.Sound)
    (hUnique :
      (Op.neweventid eventid newfile oldeventid participants).Unique s)
    (hMade : neweventid eventid newfile oldeventid participants = some ae) :
    Calendar.Sound { s with events := s.events ++ [ae] } := by
  rcases hUnique with ⟨hNew, hEventid, hNewfile⟩
  have hPlain := plain_neweventid hEventid hNewfile hMade
  have hId : ae.eventid = eventid := by
    unfold neweventid at hMade
    split at hMade
    · cases hMade
    · cases hMade
      rfl
  have hKeys : (s.events ++ [ae]).map (·.eventid) = s.events.map (·.eventid) ++ [eventid] := by
    rw [List.map_append, List.map_singleton, hId]
  have hFresh : eventid ∉ s.events.map (·.eventid) := by
    intro hMem
    rcases List.mem_map.mp hMem with ⟨x, hIn, hSame⟩
    exact hNew x hIn hSame
  refine ⟨?_, ?_, hSound.tabs, ?_, hSound.distinct, ?_⟩
  · rw [hKeys]
    exact List.nodup_append.mpr ⟨hSound.ids, List.nodup_singleton _, by
        intro id hIn other hOther hSame
        rw [List.mem_singleton.mp hOther] at hSame
        exact hFresh (hSame ▸ hIn)⟩
  · intro x hMem
    rcases List.mem_append.mp hMem with hIn | hIn
    · exact hSound.plain x hIn
    · exact List.mem_singleton.mp hIn ▸ hPlain
  · intro id hMem
    rw [hKeys]
    exact List.mem_append_left _ (hSound.made id hMem)
  · intro x hMem hFile hBooked
    rcases List.mem_append.mp hMem with hIn | hIn
    · exact hSound.absent x hIn hFile hBooked
    · rw [List.mem_singleton.mp hIn, hId]
      exact fun hLine => hFresh (hSound.made eventid hLine)

/- Every step keeps a calendar sound. -/
theorem Calendar.Sound.step {op : Op} (hSound : s.Sound) (hUnique : op.Unique s) :
    (s.step op).Sound := by
  have hStep := stepped s op
  generalize s.step op = next at hStep
  cases hStep with
  | same => exact hSound
  | made hMade => exact hSound.made_event hUnique hMade
  | accepted hAt hDone => exact hSound.accepted hAt hDone
  | kept hAt hKept => exact hSound.kept hAt hKept
  | destroyed hAt hIndex =>
    rename_i k ae index disk
    have hKeeps : Calendar.Sound { s with index := index } := by
      rcases hIndex with rfl | rfl
      · exact hSound
      · exact hSound.filter _
    exact hKeeps.set hAt ⟨rfl, rfl, rfl⟩ nofun
  | cancelled event disk =>
    exact hSound.map (cancelLine_id event) fun pi hTab => cancelLine_tab hTab event
  | uncancelled => exact hSound.map (uncancelLine_id _) fun pi hTab => uncancelLine_tab hTab _
  | deleted event disk => exact hSound.filter _
  | cleaned kept => exact hSound.filter kept

/- Every calendar that can be reached is sound. -/
theorem Reachable.sound {allowed : Calendar → Op → Prop} (hRun : Reachable allowed s) :
    s.Sound := by
  induction hRun with
  | start => exact sound_start
  | step _ hUnique _ ih => exact ih.step hUnique

end Wmail.Pcpdir
