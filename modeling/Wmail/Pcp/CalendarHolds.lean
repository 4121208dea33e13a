import Wmail.Pcp.CalendarRuns

/-
  Bookings that are to replace an event, and the hold that one
  of them has on it.

  Key theorems include:
    * `HoldsKept.step`
    * `oneUpdate_of_history`
-/

namespace Wmail.Pcpdir

/- The line has a hold. -/
def isHeld (pi : List Byte) : Bool :=
  (lbFields pi).any (lbIsField · PENDEL_FIELD)

theorem isHeld_iff (pi : List Byte) : isHeld pi = true ↔ ∃ pendel, lbIsPendel pi = some pendel := by
  unfold isHeld lbIsPendel
  rw [← List.isSome_find?, Option.isSome_iff_exists]

theorem isHeld_held {ae : NewEventid} {pi : List Byte} (hPlain : ae.Plain)
    (hTab : tab ∈ pi) : isHeld (held ae pi) = true := by
  unfold held
  cases hPendel : lbIsPendel pi with
  | some pendel => exact (isHeld_iff pi).mpr ⟨pendel, hPendel⟩
  | none =>
    have hField := hPlain.holdField
    have hIs : lbIsField (PENDEL_FIELD ++ chr '=' :: ae.eventid) PENDEL_FIELD = true := rfl
    unfold isHeld
    simp only [lbFields_lbRemoveField_some hTab hField]
    rw [List.any_append, List.any_cons, hIs, Bool.true_or, Bool.or_true]

/- A hold stays when other fields are left out. -/
theorem isHeld_lbRemoveField {pi fieldname : List Byte} (hTab : tab ∈ pi)
    (hLength : fieldname.length = 1) (hNe : fieldname ≠ PENDEL_FIELD) :
    isHeld (lbRemoveField pi fieldname none) = isHeld pi := by
  unfold isHeld
  rw [lbFields_lbRemoveField hTab, any_isField_filter (hLength.trans rfl) hNe]

theorem isHeld_copied {ae : NewEventid} {bookmode : Bool} {pi line : List Byte}
    (hPlain : ae.Plain) (hTab : tab ∈ pi) (hCopy : copied ae bookmode pi = some line)
    (hHeld : isHeld pi = true) : isHeld line = true := by
  unfold copied at hCopy
  split at hCopy
  · split at hCopy
    · cases hCopy
    · cases hCopy
      exact (isHeld_lbRemoveField hTab rfl (by decide)).trans hHeld
  · split at hCopy
    · split at hCopy
      · cases hCopy
        exact isHeld_held hPlain hTab
      · cases hCopy
    · cases hCopy
      exact hHeld

theorem isHeld_cancelLine {pi : List Byte} (hTab : tab ∈ pi) (event : List Byte)
    (hHeld : isHeld pi = true) : isHeld (cancelLine event pi) = true := by
  unfold cancelLine
  split
  · exact hHeld
  · split
    · exact hHeld
    · unfold isHeld at hHeld ⊢
      rw [lbFields_append hTab (by decide), List.any_append, hHeld, Bool.true_or]

theorem isHeld_uncancelLine {pi : List Byte} (hTab : tab ∈ pi) (event : List Byte)
    (hHeld : isHeld pi = true) : isHeld (uncancelLine event pi) = true := by
  unfold uncancelLine
  split
  · exact hHeld
  · split
    · exact hHeld
    · exact (isHeld_lbRemoveField hTab rfl (by decide)).trans hHeld

/- A booking was accepted as the replacement of an event. -/
structure Replacement where
  booking : List Byte
  old : List Byte
deriving DecidableEq

/- The bookings that have been accepted, after an operation. -/
def recorded (s : Calendar) (r : List Replacement) : Op → List Replacement
  | .book k ci bookTime disk =>
    match s.events[k]? with
    | none => r
    | some ae =>
      if (docommitevent disk bookTime s.index ae true ci).ok
      then
        r.filter (·.booking ≠ ae.eventid) ++ (s.index.filter fun pi =>
            !ae.ownBooking pi && ae.isOld pi).map fun pi => ⟨ae.eventid, lbEventId pi⟩
      else
        r
  | _ => r

/- The runs of allowed operations, and what they accept. -/
inductive History (allowed : Calendar → List Replacement → Op → Prop) :
    Calendar → List Replacement → Prop where
  | start : History allowed ⟨[], []⟩ []
  | step
      {s : Calendar}
      {r : List Replacement}
      {op : Op}
      (hRun : History allowed s r)
      (hUnique : op.Unique s)
      (hAllowed : allowed s r op) :
      History allowed (s.step op) (recorded s r op)

theorem History.next {allowed : Calendar → List Replacement → Op → Prop} {s : Calendar}
    {r : List Replacement} (hRun : History allowed s r) (op : Op) (hUnique : op.Unique s)
    (hAllowed : allowed s r op) : History allowed (s.step op) (recorded s r op) :=
  .step hRun hUnique hAllowed

variable {s : Calendar} {r : List Replacement}

theorem History.sound {allowed : Calendar → List Replacement → Op → Prop}
    (hRun : History allowed s r) : s.Sound := by
  induction hRun with
  | start => exact sound_start
  | step _ hUnique _ ih => exact ih.step hUnique

/- The index has a line of a booking with this id. -/
def Calendar.hasBooking (s : Calendar) (id : List Byte) : Bool :=
  (s.index.map lbEventId).contains id &&
    s.events.any fun ae => ae.booked && ae.eventid = id

theorem hasBooking_iff {id : List Byte} : s.hasBooking id = true ↔ id ∈ s.index.map lbEventId ∧
        ∃ ae, ae ∈ s.events ∧ ae.booked = true ∧ ae.eventid = id := by
  unfold Calendar.hasBooking
  rw [Bool.and_eq_true, List.contains_iff_mem, List.any_eq_true]
  simp only [Bool.and_eq_true, decide_eq_true_eq]

/- One booking in the index at most is to replace an event. -/
def OneUpdate (s : Calendar) (r : List Replacement) : Prop :=
  ∀ a, a ∈ r → ∀ b, b ∈ r → a.old = b.old → s.hasBooking a.booking = true →
      s.hasBooking b.booking = true → a.booking = b.booking

instance (s : Calendar) (r : List Replacement) : Decidable (OneUpdate s r) :=
  inferInstanceAs (Decidable (∀ a, a ∈ r → ∀ b, b ∈ r →
    a.old = b.old → s.hasBooking a.booking = true →
      s.hasBooking b.booking = true → a.booking = b.booking))

/- An event that a booking is to replace has a hold. -/
def HoldsKept (s : Calendar) (r : List Replacement) : Prop :=
  ∀ a, a ∈ r → s.hasBooking a.booking = true →
    ∀ pi, pi ∈ s.index → lbEventId pi = a.old → isHeld pi = true

/- The event that a line is written for. -/
def Op.adds (s : Calendar) : Op → Option (List Byte)
  | .book k _ _ _ => (s.events[k]?).map (·.eventid)
  | .commit k _ _ =>
    (s.events[k]?).bind fun ae => if ae.booked then none else some ae.eventid
  | _ => none

/-
  No line is written anew for an event that a booking is to
  replace, for it would have no hold.  And no booking is made
  over the hold of a booking that is gone, or over its own,
  while another one is to replace the event.
-/
def Op.HoldStands (s : Calendar) (r : List Replacement) (op : Op) : Prop :=
  (∀ a, a ∈ r → s.hasBooking a.booking = true → op.adds s ≠ some a.old) ∧
  match op with
  | .book k _ _ _ =>
    ∀ ae, s.events[k]? = some ae → ∀ pi, pi ∈ s.index → ae.isOld pi = true →
        isHeld pi = true → lockedBy s.index ae pi = false → ∀ a, a ∈ r → a.old = lbEventId pi →
            s.hasBooking a.booking = true → a.booking = ae.eventid
  | _ => True

------------
-- Steps Without a Booking
------------

/- A line is written again with its hold, or is a new one. -/
structure KeepsHolds (s next : Calendar) (added : Option (List Byte)) : Prop where
  bookings : ∀ id, next.hasBooking id = true → s.hasBooking id = true
  lines : ∀ line, line ∈ next.index → (∃ pi, pi ∈ s.index ∧ lbEventId line = lbEventId pi ∧
        (isHeld pi = true → isHeld line = true)) ∨
      added = some (lbEventId line)

theorem KeepsHolds.refl (s : Calendar) : KeepsHolds s s none :=
  ⟨fun _ hHas => hHas, fun line hLine => Or.inl ⟨line, hLine, rfl, fun hHeld => hHeld⟩⟩

/- Bookings that are left were there before. -/
theorem hasBooking_back {s next : Calendar}
    (hEvents : ∀ ae, ae ∈ next.events → ae.booked = true →
      (∃ x, x ∈ s.events ∧ x.booked = true ∧ x.eventid = ae.eventid) ∧
      (ae.eventid ∈ next.index.map lbEventId → ae.eventid ∈ s.index.map lbEventId)) (id : List Byte)
    (hHas : next.hasBooking id = true) : s.hasBooking id = true := by
  rcases hasBooking_iff.mp hHas with ⟨hLine, ae, hMem, hBooked, rfl⟩
  rcases hEvents ae hMem hBooked with ⟨hOld, hBack⟩
  exact hasBooking_iff.mpr ⟨hBack hLine, hOld⟩

/- Lines are left out, or written again with their holds. -/
theorem keepsHolds_filterMap {f : List Byte → Option (List Byte)}
    (hKey : ∀ pi, pi ∈ s.index → ∀ line, f pi = some line →
      lbEventId line = lbEventId pi ∧ (isHeld pi = true → isHeld line = true)) :
    KeepsHolds s { s with index := s.index.filterMap f } none := by
  have hLines : ∀ line, line ∈ s.index.filterMap f →
      ∃ pi, pi ∈ s.index ∧ lbEventId line = lbEventId pi ∧
        (isHeld pi = true → isHeld line = true) := by
    intro line hLine
    rcases List.mem_filterMap.mp hLine with ⟨pi, hPi, hFrom⟩
    exact ⟨pi, hPi, hKey pi hPi line hFrom⟩
  refine ⟨hasBooking_back ?_, fun line hLine => Or.inl (hLines line hLine)⟩
  intro ae hMem hBooked
  refine ⟨⟨ae, hMem, hBooked, rfl⟩, ?_⟩
  intro hIn
  rcases List.mem_map.mp hIn with ⟨line, hLine, hId⟩
  rcases hLines line hLine with ⟨pi, hPi, hSame, _⟩
  exact List.mem_map.mpr ⟨pi, hPi, hSame.symm.trans hId⟩

theorem keepsHolds_filter (s : Calendar) (p : List Byte → Bool) :
    KeepsHolds s { s with index := s.index.filter p } none := by
  rw [← List.filterMap_eq_filter]
  apply keepsHolds_filterMap
  intro pi _ line hLine
  rw [(Option.guard_eq_some_iff.mp hLine).1]
  exact ⟨rfl, fun hHeld => hHeld⟩

/- An event with a number stays booked, or is not any more. -/
theorem KeepsHolds.set {index : List (List Byte)} {k : Nat} {ae ae' : NewEventid}
    (hKeeps : KeepsHolds s { s with index := index } none) (hAt : s.events[k]? = some ae)
    (hId : ae'.eventid = ae.eventid) (hBooked : ae'.booked = true → ae.booked = true) :
    KeepsHolds s ⟨index, s.events.set k ae'⟩ none := by
  refine ⟨?_, hKeeps.lines⟩
  intro id hHas
  apply hKeeps.bookings
  rcases hasBooking_iff.mp hHas with ⟨hLine, x, hMem, hIs, hSame⟩
  refine hasBooking_iff.mpr ⟨hLine, ?_⟩
  rcases List.mem_or_eq_of_mem_set hMem with hIn | rfl
  · exact ⟨x, hIn, hIs, hSame⟩
  · exact ⟨ae, List.mem_of_getElem? hAt, hBooked hIs, hId.symm.trans hSame⟩

theorem KeepsHolds.weaken {s next : Calendar} (hKeeps : KeepsHolds s next none)
    (added : Option (List Byte)) : KeepsHolds s next added := by
  refine ⟨hKeeps.bookings, ?_⟩
  intro line hLine
  rcases hKeeps.lines line hLine with hOld | hNone
  · exact Or.inl hOld
  · cases hNone

section Accept

variable {s : Calendar} {k : Nat} {ae : NewEventid} {bookmode : Bool} {ci : CommitInfo}
variable {times : List EventTime} {bookTime : Int64} {done : Committed}

/- The lines after a booking or a commit. -/
theorem mem_accepted (hPlain : ae.Plain)
    (hDone : Accepted s.index ae bookmode ci times bookTime done) {line : List Byte}
    (hLine : line ∈ done.index) :
    (∃ pi, pi ∈ s.index ∧ copied ae bookmode pi = some line) ∨
      ((ae.booked && !bookmode) = false ∧ lbEventId line = ae.eventid) := by
  rw [hDone.index] at hLine
  rcases List.mem_append.mp hLine with hCopy | hNew
  · exact Or.inl (List.mem_filterMap.mp hCopy)
  · right
    split at hNew
    · cases hNew
    · rename_i hAdds
      rw [List.mem_singleton.mp hNew, Bool.not_eq_true] at *
      exact ⟨hAdds, lbEventId_newLine hPlain s.index⟩

/- A commit keeps the holds of the other events. -/
theorem keepsHolds_commit (hSound : s.Sound) (hAt : s.events[k]? = some ae)
    (hDone : Accepted s.index ae false ci times bookTime done) :
    KeepsHolds s ⟨done.index, s.events.set k done.ae⟩
      (if ae.booked then none else some ae.eventid) := by
  have hPlain := hSound.plain ae (List.mem_of_getElem? hAt)
  refine ⟨hasBooking_back ?_, ?_⟩
  · intro x hMem hBooked
    rcases mem_set_keyed hSound.ids hAt hMem with rfl | ⟨hIn, hOther⟩
    · rw [hDone.event] at hBooked
      cases hBooked
    · refine ⟨⟨x, hIn, hBooked, rfl⟩, ?_⟩
      intro hId
      rcases List.mem_map.mp hId with ⟨line, hLine, hSame⟩
      rcases mem_accepted hPlain hDone hLine with ⟨pi, hPi, hCopy⟩ | ⟨_, hNew⟩
      · exact List.mem_map.mpr ⟨pi, hPi, (copied_id hCopy).symm.trans hSame⟩
      · exact absurd (hSame.symm.trans hNew) hOther
  · intro line hLine
    rcases mem_accepted hPlain hDone hLine with ⟨pi, hPi, hCopy⟩ | ⟨hAdds, hNew⟩
    · exact Or.inl ⟨pi, hPi, copied_id hCopy, isHeld_copied hPlain (hSound.tabs pi hPi) hCopy⟩
    · right
      rw [Bool.not_false, Bool.and_true] at hAdds
      rw [hAdds, hNew]
      rfl

end Accept

theorem keepsHolds_step {op : Op} (hSound : s.Sound) (hBook : op.isBook = false) :
    KeepsHolds s (s.step op) (op.adds s) := by
  have hSame := KeepsHolds.refl s
  have hStep := stepped s op
  generalize s.step op = next at hStep
  cases hStep with
  | same => exact hSame.weaken _
  | made hMade =>
    refine ⟨hasBooking_back ?_, hSame.lines⟩
    intro ae hMem hBooked
    refine ⟨?_, fun hId => hId⟩
    rcases List.mem_append.mp hMem with hIn | hIn
    · exact ⟨ae, hIn, hBooked, rfl⟩
    · rw [List.mem_singleton.mp hIn] at hBooked
      unfold neweventid at hMade
      split at hMade
      · cases hMade
      · cases hMade
        cases hBooked
  | accepted hAt hDone =>
    rename_i k ae bookmode ci times bookTime disk done
    cases bookmode with
    | true => cases hBook
    | false =>
      have hAdds : Op.adds s (.commit k ci disk) =
          if ae.booked then none else some ae.eventid := by
        simp only [Op.adds, hAt, Option.bind_some]
      simp only [Bool.false_eq_true, if_false, hAdds]
      exact keepsHolds_commit hSound hAt hDone
  | kept hAt hKept =>
    apply KeepsHolds.weaken
    cases hKept with
    | same => exact hSame.set hAt rfl fun hIs => hIs
    | gone hBooked _ => exact hSame.set hAt rfl fun _ => hBooked
  | destroyed hAt hIndex =>
    rename_i k ae index disk
    have hKeeps : KeepsHolds s { s with index := index } none := by
      rcases hIndex with rfl | rfl
      · exact hSame
      · exact keepsHolds_filter s _
    exact hKeeps.set hAt rfl fun hIs => hIs
  | cancelled event disk =>
    rw [← List.filterMap_eq_map]
    apply keepsHolds_filterMap
    intro pi hPi line hLine
    cases hLine
    exact ⟨cancelLine_id event pi, isHeld_cancelLine (hSound.tabs pi hPi) event⟩
  | uncancelled =>
    rw [← List.filterMap_eq_map]
    apply keepsHolds_filterMap
    intro pi hPi line hLine
    cases hLine
    exact ⟨uncancelLine_id _ pi, isHeld_uncancelLine (hSound.tabs pi hPi) _⟩
  | deleted event disk => exact keepsHolds_filter s _
  | cleaned kept => exact keepsHolds_filter s kept

------------
-- Bookings
------------

section Booking

variable {s : Calendar} {r : List Replacement} {k : Nat} {ae : NewEventid} {ci : CommitInfo}
variable {times : List EventTime} {bookTime : Int64} {disk : Disk} {done : Committed}

theorem mem_recorded (hAt : s.events[k]? = some ae)
    (hOk : (docommitevent disk bookTime s.index ae true ci).ok = true) {a : Replacement}
    (hMem : a ∈ recorded s r (.book k ci bookTime disk)) :
    (a ∈ r ∧ a.booking ≠ ae.eventid) ∨
      (a.booking = ae.eventid ∧
        ∃ pi, pi ∈ s.index ∧ ae.ownBooking pi = false ∧
          ae.isOld pi = true ∧ a.old = lbEventId pi) := by
  simp only [recorded, hAt, hOk, if_true] at hMem
  rcases List.mem_append.mp hMem with hIn | hNew
  · rcases List.mem_filter.mp hIn with ⟨hIn, hOther⟩
    exact Or.inl ⟨hIn, of_decide_eq_true hOther⟩
  · rcases List.mem_map.mp hNew with ⟨pi, hPi, rfl⟩
    rcases List.mem_filter.mp hPi with ⟨hPi, hIs⟩
    rw [Bool.and_eq_true, Bool.not_eq_true'] at hIs
    exact Or.inr ⟨rfl, pi, hPi, hIs.1, hIs.2, rfl⟩

/- The other bookings are the same as before. -/
theorem hasBooking_of_booked (hSound : s.Sound) (hAt : s.events[k]? = some ae)
    (hDone : Accepted s.index ae true ci times bookTime done) {id : List Byte}
    (hHas : Calendar.hasBooking
      ⟨done.index, s.events.set k done.ae⟩ id = true) (hOther : id ≠ ae.eventid) :
    s.hasBooking id = true := by
  have hPlain := hSound.plain ae (List.mem_of_getElem? hAt)
  rcases hasBooking_iff.mp hHas with ⟨hId, x, hMem, hBooked, rfl⟩
  refine hasBooking_iff.mpr ⟨?_, x, ?_, hBooked, rfl⟩
  · rcases List.mem_map.mp hId with ⟨line, hLine, hSame⟩
    rcases mem_accepted hPlain hDone hLine with ⟨pi, hPi, hCopy⟩ | ⟨_, hNew⟩
    · exact List.mem_map.mpr ⟨pi, hPi, (copied_id hCopy).symm.trans hSame⟩
    · exact absurd (hSame.symm.trans hNew) hOther
  · rcases List.mem_or_eq_of_mem_set hMem with hIn | rfl
    · exact hIn
    · rw [hDone.event] at hOther
      exact absurd rfl hOther

/- The line of the event that is booked, before the booking. -/
theorem ownBooking_of_id (hSound : s.Sound) (hAt : s.events[k]? = some ae)
    (hFile : ae.tmpfile = true) {pi : List Byte} (hPi : pi ∈ s.index)
    (hId : lbEventId pi = ae.eventid) : ae.ownBooking pi = true := by
  have hEvent := List.mem_of_getElem? hAt
  unfold NewEventid.ownBooking
  cases hBooked : ae.booked with
  | true => exact (hSound.isEventid_iff hEvent hPi).mpr hId
  | false =>
    exact absurd (List.mem_map.mpr ⟨pi, hPi, hId⟩) (hSound.absent ae hEvent hFile hBooked)

theorem HoldsKept.booked (hKept : HoldsKept s r) (hSound : s.Sound) (hAt : s.events[k]? = some ae)
    (hOk : (docommitevent disk bookTime s.index ae true ci).ok = true)
    (hDone : Accepted s.index ae true ci times bookTime done)
    (hStands : (Op.book k ci bookTime disk).HoldStands s r) :
    HoldsKept ⟨done.index, s.events.set k done.ae⟩ (recorded s r (.book k ci bookTime disk)) := by
  have hPlain := hSound.plain ae (List.mem_of_getElem? hAt)
  intro a hMem hHas line hLine hId
  rcases mem_recorded hAt hOk hMem with ⟨hIn, hOther⟩ | ⟨_, old, hOldMem, hOwn, hIsOld, hOld⟩
  · have hBefore := hasBooking_of_booked hSound hAt hDone hHas hOther
    rcases mem_accepted hPlain hDone hLine with ⟨pi, hPi, hCopy⟩ | ⟨_, hNew⟩
    · apply isHeld_copied hPlain (hSound.tabs pi hPi) hCopy
      exact hKept a hIn hBefore pi hPi ((copied_id hCopy).symm.trans hId)
    · apply absurd _ (hStands.1 a hIn hBefore)
      simp only [Op.adds, hAt, Option.map_some]
      rw [← hNew, hId]
  · rcases mem_accepted hPlain hDone hLine with ⟨pi, hPi, hCopy⟩ | ⟨_, hNew⟩
    · have hSame : pi = old := by
        apply List.inj_on_of_nodup_map hSound.distinct hPi hOldMem
        rw [← copied_id hCopy, hId, hOld]
      subst hSame
      unfold copied at hCopy
      rw [hOwn, hIsOld] at hCopy
      cases hCopy
      exact isHeld_held hPlain (hSound.tabs pi hPi)
    · have hMine := ownBooking_of_id hSound hAt hDone.tmpfile
        hOldMem (hOld.symm.trans (hId.symm.trans hNew))
      rw [hOwn] at hMine
      cases hMine

/- A second booking is refused, for the event has a hold. -/
theorem OneUpdate.booked (hOne : OneUpdate s r) (hKept : HoldsKept s r) (hSound : s.Sound)
    (hAt : s.events[k]? = some ae)
    (hOk : (docommitevent disk bookTime s.index ae true ci).ok = true)
    (hDone : Accepted s.index ae true ci times bookTime done)
    (hStands : (Op.book k ci bookTime disk).HoldStands s r) :
    OneUpdate ⟨done.index, s.events.set k done.ae⟩ (recorded s r (.book k ci bookTime disk)) := by
  have hOnly : ∀ b, b ∈ r → s.hasBooking b.booking = true →
      ∀ pi, pi ∈ s.index → ae.ownBooking pi = false →
        ae.isOld pi = true → b.old = lbEventId pi → b.booking = ae.eventid := by
    intro b hIn hHas pi hPi hOwn hIsOld hOld
    have hHeld := hKept b hIn hHas pi hPi hOld.symm
    have hFine := hDone.fine pi hPi
    unfold refuses at hFine
    rw [hOwn, hIsOld, if_pos rfl, Bool.not_false, Bool.true_and, Bool.true_and] at hFine
    exact hStands.2 ae hAt pi hPi hIsOld hHeld hFine b hIn hOld hHas
  intro a hA b hB hSame hHasA hHasB
  rcases mem_recorded hAt hOk hA with ⟨hInA, hOtherA⟩ | ⟨hMineA, pa, hPa, hOwnA, hIsOldA, hOldA⟩
  · have hBeforeA := hasBooking_of_booked hSound hAt hDone hHasA hOtherA
    rcases mem_recorded hAt hOk hB with ⟨hInB, hOtherB⟩ | ⟨_, pb, hPb, hOwnB, hIsOldB, hOldB⟩
    · exact hOne a hInA b hInB hSame hBeforeA (hasBooking_of_booked hSound hAt hDone hHasB hOtherB)
    · exact absurd (hOnly a hInA hBeforeA pb hPb hOwnB hIsOldB (hSame.trans hOldB)) hOtherA
  · rcases mem_recorded hAt hOk hB with ⟨hInB, hOtherB⟩ | ⟨hMineB, _⟩
    · have hBeforeB := hasBooking_of_booked hSound hAt hDone hHasB hOtherB
      exact absurd (hOnly b hInB hBeforeB pa hPa hOwnA hIsOldA (hSame.symm.trans hOldA)) hOtherB
    · exact hMineA.trans hMineB.symm

end Booking

theorem recorded_of_not_book {op : Op} (hBook : op.isBook = false) : recorded s r op = r := by
  cases op with
  | book k ci bookTime disk => cases hBook
  | _ => rfl

/- A booking that is refused changes no line. -/
theorem keepsHolds_refused {k : Nat} {ae ae' : NewEventid} (hAt : s.events[k]? = some ae)
    (hKept : Kept s.index ae ae') : KeepsHolds s ⟨s.index, s.events.set k ae'⟩ none := by
  have hSame := KeepsHolds.refl s
  cases hKept with
  | same => exact hSame.set hAt rfl fun hIs => hIs
  | gone hBooked _ => exact hSame.set hAt rfl fun _ => hBooked

theorem HoldsKept.of_keepsHolds {s next : Calendar} {added : Option (List Byte)}
    (hKept : HoldsKept s r) (hKeeps : KeepsHolds s next added)
    (hAdded : ∀ a, a ∈ r → s.hasBooking a.booking = true →
      added ≠ some a.old) : HoldsKept next r := by
  intro a hMem hHas line hLine hId
  have hBefore := hKeeps.bookings _ hHas
  rcases hKeeps.lines line hLine with ⟨pi, hPi, hSame, hHeld⟩ | hNew
  · exact hHeld (hKept a hMem hBefore pi hPi (hSame ▸ hId))
  · exact absurd (hId ▸ hNew) (hAdded a hMem hBefore)

theorem OneUpdate.of_keepsHolds {s next : Calendar} {added : Option (List Byte)}
    (hOne : OneUpdate s r) (hKeeps : KeepsHolds s next added) : OneUpdate next r :=
  fun a hA b hB hSame hHasA hHasB => hOne a hA b hB hSame
    (hKeeps.bookings _ hHasA) (hKeeps.bookings _ hHasB)

/- What each operation keeps. -/
theorem HoldsKept.step {op : Op} (hBoth : HoldsKept s r ∧ OneUpdate s r) (hSound : s.Sound)
    (hStands : op.HoldStands s r) :
    HoldsKept (s.step op) (recorded s r op) ∧ OneUpdate (s.step op) (recorded s r op) := by
  rcases hBoth with ⟨hKept, hOne⟩
  cases hBook : op.isBook with
  | false =>
    have hKeeps := keepsHolds_step hSound hBook
    rw [recorded_of_not_book hBook]
    exact ⟨hKept.of_keepsHolds hKeeps hStands.1, hOne.of_keepsHolds hKeeps⟩
  | true =>
    cases op with
    | book k ci bookTime disk =>
      cases hAt : s.events[k]? with
      | none =>
        simp only [Calendar.step, Calendar.docommit, recorded, hAt]
        exact ⟨hKept, hOne⟩
      | some ae =>
        rcases docommitevent_cases disk bookTime s.index ae true ci with
          ⟨hOk, times, hDone⟩ | ⟨hFailed, hIndex, hStays⟩
        · have hNext : s.step (.book k ci bookTime disk) =
                ⟨(docommitevent disk bookTime s.index ae true
                  ci).index, s.events.set k (docommitevent
                    disk bookTime s.index ae true ci).ae⟩ := by
            simp only [Calendar.step, Calendar.docommit, hAt]
          rw [hNext]
          exact ⟨hKept.booked hSound hAt hOk hDone hStands,
            hOne.booked hKept hSound hAt hOk hDone hStands⟩
        · simp only [Calendar.step, Calendar.docommit, recorded, hAt, hFailed, hIndex,
            Bool.false_eq_true, if_false]
          have hKeeps := keepsHolds_refused hAt hStays
          exact ⟨hKept.of_keepsHolds hKeeps fun a _ _ => (Option.some_ne_none a.old).symm,
            hOne.of_keepsHolds hKeeps⟩
    | _ => cases hBook

theorem History.holdsKept (hRun : History (fun s r op => op.HoldStands s r) s r) :
    HoldsKept s r ∧ OneUpdate s r := by
  induction hRun with
  | start => exact ⟨nofun, nofun⟩
  | step hRun _ hStands ih => exact HoldsKept.step ih hRun.sound hStands

/- The booking that a line's hold names has a line. -/
def holderExists (index : List (List Byte)) (pi : List Byte) : Bool :=
  (lbIsPendel pi).any fun pendel => eventexists index (lbFieldValueBuf pendel)

section Gone

variable {disk : Disk} {index : List (List Byte)} {ae : NewEventid} {ci : CommitInfo}
variable {times : List EventTime}

/- A booking that no line refuses is accepted. -/
theorem booking_ok (hDisk : disk.locks = true ∧ disk.renames = true)
    (hFile : ae.tmpfile = true) (hSort : pcpAddSortTimes ci.eventTimes = some times)
    (hSane : ae.eventParticipants.all saneParticipant = true)
    (hPresent : ae.booked = true → index.any ae.ownBooking = true)
    (hFine : ∀ pi, pi ∈ index → refuses index ae true ci times pi = false) (bookTime : Int64) :
    (docommitevent disk bookTime index ae true ci).ok = true := by
  have hTimes : ci.eventTimes ≠ [] := by
    intro hNone
    rw [hNone] at hSort
    cases hSort
  have hAll : index.all (!refuses index ae true ci times ·) = true := by
    apply List.all_eq_true.mpr
    intro pi hMem
    rw [hFine pi hMem]
    rfl
  have hGone : (ae.booked && !index.any ae.ownBooking) = false := by
    cases hBooked : ae.booked with
    | false => rfl
    | true => rw [hPresent hBooked]; rfl
  rcases foldl_copyLine index ae true ci times index
    Copying.start with ⟨_, hRc, _, hIsBooked, hWasBooked⟩
  rw [hAll] at hRc
  unfold docommitevent
  rw [hFile, hDisk.1, hSort]
  simp only [Bool.not_true, Bool.false_eq_true, if_false, hTimes]
  generalize index.foldl (copyLine index ae true ci times)
    Copying.start = s at hRc hIsBooked hWasBooked ⊢
  replace hRc : s.rc = true := hRc
  replace hIsBooked : s.isBooked = false := hIsBooked
  replace hWasBooked : s.wasBooked = index.any ae.ownBooking :=
    hWasBooked
  unfold Copying.finish
  simp only [hRc, hIsBooked, Bool.not_false, Bool.and_self,
    if_true, hSane, hWasBooked, hGone, hDisk.2]

/- Only a holder that is in the index keeps the event. -/
theorem booking_over_gone (hDisk : disk.locks = true ∧ disk.renames = true)
    (hFile : ae.tmpfile = true) (hSort : pcpAddSortTimes ci.eventTimes = some times)
    (hSane : ae.eventParticipants.all saneParticipant = true)
    (hPresent : ae.booked = true → index.any ae.ownBooking = true)
    (hOthers : ∀ pi, pi ∈ index → ae.isOld pi = false → refuses index ae true ci times pi = false)
    (hGone : ∀ pi, pi ∈ index → ae.isOld pi = true →
      holderExists index pi = false) (bookTime : Int64) :
    (docommitevent disk bookTime index ae true ci).ok = true := by
  apply booking_ok hDisk hFile hSort hSane hPresent
  intro pi hMem
  cases hIsOld : ae.isOld pi with
  | false => exact hOthers pi hMem hIsOld
  | true =>
    have hFree : lockedBy index ae pi = false := by
      unfold lockedBy
      cases hPendel : lbIsPendel pi with
      | none => rfl
      | some pendel =>
        have hNone := hGone pi hMem hIsOld
        unfold holderExists at hNone
        rw [hPendel, Option.any_some] at hNone
        rw [Option.any_some, hNone]
        exact Bool.and_false _
    unfold refuses
    rw [hIsOld, if_pos rfl, hFree, Bool.and_false, Bool.and_false]

end Gone

/-
  One booking at most is to replace an event, in runs in which
  the holds stand; and a holder that is gone refuses none.
-/
theorem oneUpdate_of_history {s : Calendar} {r : List Replacement}
    (hRun : History (fun s r op => op.HoldStands s r) s r) : OneUpdate s r ∧
    ∀ disk index ae ci times bookTime, disk.locks = true ∧ disk.renames = true → ae.tmpfile = true →
      pcpAddSortTimes ci.eventTimes = some times →
      ae.eventParticipants.all saneParticipant = true →
      (ae.booked = true → index.any ae.ownBooking = true) →
      (∀ pi, pi ∈ index → ae.isOld pi = false → refuses index ae true ci times pi = false) →
      (∀ pi, pi ∈ index → ae.isOld pi = true → holderExists index pi = false) →
      (docommitevent disk bookTime index ae true ci).ok = true :=
  ⟨hRun.holdsKept.2, fun _ _ _ _ _ bookTime hDisk hFile hSort hSane hPresent
      hOthers hGone => booking_over_gone hDisk hFile hSort hSane hPresent hOthers hGone bookTime⟩

/- An event, and three that are to replace it. -/
def fourEvents : Calendar :=
  (((Calendar.step ⟨[], []⟩
    (.neweventid (bytes "a") (bytes "f") none [])).step
    (.neweventid (bytes "b") (bytes "g")
      (some (bytes "a")) [])).step
    (.neweventid (bytes "c") (bytes "h")
      (some (bytes "a")) [])).step
    (.neweventid (bytes "d") (bytes "i") (some (bytes "a")) [])

theorem history_fourEvents (allowed : Calendar → List Replacement → Op → Prop)
    (hMade : ∀ s r eventid newfile oldeventid,
      allowed s r (.neweventid eventid newfile oldeventid [])) :
    History allowed fourEvents [] := by
  refine .step (.step (.step (.step .start ?_ (hMade _ _ _ _ _))
    ?_ (hMade _ _ _ _ _)) ?_ (hMade _ _ _ _ _)) ?_
    (hMade _ _ _ _ _)
  · exact ⟨by decide, by decide, by decide⟩
  · exact ⟨by decide, by decide, by decide⟩
  · exact ⟨by decide, by decide, by decide⟩
  · exact ⟨by decide, by decide, by decide⟩

/- The event is booked, and again when that is gone. -/
theorem oneUpdate_fourEvents : let disk : Disk := ⟨true, true⟩
    let s := fourEvents.step (.commit 0 ⟨0, [⟨1, 2⟩], none⟩ disk)
    let book := Op.book 1 ⟨0, [⟨2, 3⟩], none⟩ 0 disk
    OneUpdate (s.step book) (recorded s [] book) ∧ (docommitevent disk 0
        ((s.step book).step (.delete (bytes "b") disk)).index
        ⟨bytes "c", bytes "h", some (bytes "a"), [], true, false⟩
        true ⟨0, [⟨3, 4⟩], none⟩).ok = true := by
  intro disk s book
  have hMade := history_fourEvents (fun s r op => op.HoldStands s r)
    fun _ _ _ _ _ => ⟨fun _ _ _ => nofun, trivial⟩
  have hFirst := hMade.next (.commit 0 ⟨0, [⟨1, 2⟩], none⟩ disk)
    trivial ⟨nofun, trivial⟩
  have hHeld := hFirst.next (.book 1 ⟨0, [⟨2, 3⟩], none⟩ 0 disk)
    trivial ⟨nofun, fun _ _ _ _ _ _ _ => nofun⟩
  rcases oneUpdate_of_history hHeld with ⟨hOne, hAccepted⟩
  refine ⟨hOne, ?_⟩
  exact hAccepted disk _ _ ⟨0, [⟨3, 4⟩], none⟩ [⟨3, 4⟩] 0
    ⟨rfl, rfl⟩ rfl (by decide) (by decide) (by decide) (by decide)
    (by decide)

/- The hold of a booking that was deleted stays. -/
theorem not_oneUpdate : ¬ ∀ s r, History (fun _ _ _ => True) s r → OneUpdate s r := by
  intro hAll
  let disk : Disk := ⟨true, true⟩
  have hMade := history_fourEvents (fun _ _ _ => True) fun _ _ _ _ _ => trivial
  have hFirst := hMade.next (.commit 0 ⟨0, [⟨1, 2⟩], none⟩ disk)
    trivial trivial
  have hHeld := hFirst.next (.book 1 ⟨0, [⟨2, 3⟩], none⟩ 0 disk)
    trivial trivial
  have hGone := hHeld.next (.delete (bytes "b") disk)
    trivial trivial
  have hOne := hGone.next (.book 2 ⟨0, [⟨3, 4⟩], none⟩ 0 disk)
    trivial trivial
  have hTwo := hOne.next (.book 3 ⟨0, [⟨4, 5⟩], none⟩ 0 disk)
    trivial trivial
  exact absurd (hAll _ _ hTwo) (by decide)

end Wmail.Pcpdir
