import Wmail.Pcp.IndexLine
import Wmail.Pcp.Session
import Mathlib.Data.List.Sort

/-
  The index of a calendar, and what changes it (pcpdir.c).

  The index is the list of its lines.  The files of the events
  are left out, besides their names.

  Key theorems include:
    * `docommitevent_failed`
    * `uncancelevent_ok`
-/

namespace Wmail.Pcpdir

open Pcp (pcpOkConflict pcpByproxy pcpErrEventnotfound)

def pcpErrLock : Nat := 1
def pcpErrConflict : Nat := 2
def pcpErrEventlocked : Nat := 4

/- `compar_times`. -/
def timesUpTo (a b : EventTime) : Prop :=
  a.start < b.start ∨ (a.start = b.start ∧ a.stop ≤ b.stop)

instance (a b : EventTime) : Decidable (timesUpTo a b) :=
  inferInstanceAs (Decidable (_ ∨ _))

/- No time is reversed, and none begins before the last ends. -/
def timesInOrder : List EventTime → Bool
  | [] => true
  | [a] => a.start ≤ a.stop
  | a :: b :: rest => a.start ≤ a.stop && a.stop ≤ b.start && timesInOrder (b :: rest)

/- `pcp_add_sort_times`. -/
def pcpAddSortTimes (t : List EventTime) : Option (List EventTime) :=
  if t = [] then
    none
  else
    let ptr := t.insertionSort timesUpTo
    if timesInOrder ptr then some ptr else none

/- Both times have an instant, or one is inside the other. -/
def EventTime.meets (a b : EventTime) : Bool :=
  a.start < b.stop && b.start < a.stop

/- What two times have in common. -/
def EventTime.common (a b : EventTime) : EventTime where
  start := if a.start < b.start then b.start else a.start
  stop := if b.stop < a.stop then b.stop else a.stop

/- The result of `pcp_is_conflict`, and the error code. -/
structure Conflict where
  rc : Bool
  errcode : Nat

/- The callback gets an event id and a time. -/
abbrev ConflictCallback :=
  Option (List Byte → EventTime → Bool)

/-
  The inner loop of `pcp_is_conflict`.  A callback that does
  not return 0 ends it.
-/
def conflictLoop (callback : ConflictCallback) (eventId : List Byte) (time : EventTime) :
    List EventTime → Conflict → Conflict
  | [], s => s
  | t :: rest, s =>
    if t.stop ≤ time.start || time.stop ≤ t.start then
      conflictLoop callback eventId time rest s
    else
      match callback with
      | none => conflictLoop callback eventId time rest ⟨true, pcpErrConflict⟩
      | some addConflict =>
        if addConflict eventId (time.common t) then
          ⟨true, 0⟩
        else
          conflictLoop callback eventId time rest ⟨true, pcpErrConflict⟩

/- `pcp_is_conflict`. -/
def pcpIsConflict (lb : List Byte) (t : List EventTime) (callback : ConflictCallback)
    (errcode : Nat) : Conflict :=
  (lbTimes lb).foldl
    (fun s time => conflictLoop callback (lbEventId lb) time t s)
    ⟨false, errcode⟩

------------
-- Bookings and Commits
------------

/-
  `struct PCPdir_new_eventid`.  The name of the file is what
  follows the last slash of `newfile`; `tmpfile` says whether
  there is one.
-/
structure NewEventid where
  eventid : List Byte
  newfile : List Byte
  oldeventid : Option (List Byte)
  eventParticipants : List (List Byte × Option (List Byte))
  tmpfile : Bool
  booked : Bool

/- What a calendar reads of `struct PCP_commit`. -/
structure CommitInfo where
  flags : UInt32
  eventTimes : List EventTime
  addConflictCallback : ConflictCallback

/- The lock is taken; the files are written and renamed. -/
structure Disk where
  locks : Bool
  renames : Bool

/- `eventexists`. -/
def eventexists (index : List (List Byte)) (e : List Byte) : Bool :=
  index.any (lbIsEventid · e)

/- The line is that of the booking that was made before. -/
def NewEventid.ownBooking (ae : NewEventid) (pi : List Byte) : Bool :=
  ae.booked && lbIsEventid pi ae.eventid

/- The line is that of the old event. -/
def NewEventid.isOld (ae : NewEventid) (pi : List Byte) : Bool :=
  ae.oldeventid.any (lbIsEventid pi)

/- The new index, and the variables of `docommitevent`. -/
structure Copying where
  nfp : List (List Byte)
  rc : Bool
  errcode : Nat
  isCancelled : Bool
  isBooked : Bool
  wasBooked : Bool

def Copying.start : Copying where
  nfp := []
  rc := true
  errcode := 0
  isCancelled := false
  isBooked := false
  wasBooked := false

/- One turn of the loop of `docommitevent`. -/
def copyLine (index : List (List Byte)) (ae : NewEventid) (bookmode : Bool)
    (ci : CommitInfo) (times : List EventTime) (s : Copying) (pi : List Byte) : Copying :=
  if ae.ownBooking pi then
    if bookmode then
      { s with wasBooked := true }
    else
      { s with
        wasBooked := true
        isBooked := true
        nfp := s.nfp ++ [lbRemoveField pi BOOKED_FIELD none] }
  else if ae.isOld pi then
    let s := { s with
      isCancelled := s.isCancelled || lbIsCancelled pi }
    if bookmode then
      match lbIsPendel pi with
      | some pendel =>
        let delid := lbFieldValueBuf pendel
        let locked := delid ≠ ae.eventid && eventexists index delid
        { s with
          nfp := s.nfp ++ [pi]
          rc := s.rc && !locked
          errcode :=
            if locked then pcpErrEventlocked else s.errcode }
      | none =>
        { s with
          nfp := s.nfp ++ [lbRemoveField pi PENDEL_FIELD
            (some (PENDEL_FIELD, ae.eventid))] }
    else
      s
  else
    let s := { s with nfp := s.nfp ++ [pi] }
    if ci.flags &&& pcpOkConflict = 0 ∧ (!ae.booked || bookmode) ∧ !lbIsCancelled pi then
      let found :=
        pcpIsConflict pi times ci.addConflictCallback s.errcode
      { s with
        rc := s.rc && !found.rc
        errcode := found.errcode }
    else
      s

/- `PARTICIPANT_FIELD "=%s%s%s"`. -/
def participantText (p : List Byte × Option (List Byte)) : List Byte :=
  PARTICIPANT_FIELD ++ chr '=' :: (p.1 ++
      match p.2 with
      | none => []
      | some q => chr ' ' :: q)

/- The fields of a new record. -/
def recordFields (ae : NewEventid) (bookmode : Bool) (ci : CommitInfo) (bookTime : Int64)
    (times : List EventTime) (isCancelled : Bool) : List (List Byte) :=
  (if isCancelled then [CANCELLED_FIELD] else []) ++
    (if ci.flags &&& pcpByproxy ≠ 0 then [PROXY_FIELD] else []) ++
    (if bookmode then
      [BOOKED_FIELD ++ chr '=' :: strUlong bookTime] else []) ++
    times.map timeText ++
    ae.eventParticipants.map participantText

/- The address of a participant has no blanks in it. -/
def saneParticipant (p : List Byte × Option (List Byte)) : Bool :=
  p.1.all (chr ' ' < ·)

structure Committed where
  ok : Bool
  errcode : Nat
  ae : NewEventid
  index : List (List Byte)

/-
  What follows the loop of `docommitevent`.  The time of a
  booking is only read when there is one.
-/
def Copying.finish (s : Copying) (disk : Disk) (bookTime : Int64) (index : List (List Byte))
    (ae : NewEventid) (bookmode : Bool) (ci : CommitInfo) (times : List EventTime) : Committed :=
  let s :=
    if s.rc && !s.isBooked then
      { s with
        nfp := s.nfp ++ [lineText ae.eventid ae.newfile (recordFields ae bookmode ci bookTime times
            s.isCancelled)]
        rc := ae.eventParticipants.all saneParticipant }
    else
      s
  -- the booked event disappeared
  let gone := ae.booked && !s.wasBooked
  let ae := { ae with booked := ae.booked && !gone }
  if s.rc && !gone && disk.renames then
    if bookmode then
      ⟨true, s.errcode, { ae with booked := true }, s.nfp⟩
    else
      ⟨true, s.errcode, { ae with tmpfile := false, booked := false }, s.nfp⟩
  else
    ⟨false, if gone then pcpErrEventnotfound else s.errcode, ae, index⟩

/- `docommitevent`. -/
def docommitevent (disk : Disk) (bookTime : Int64) (index : List (List Byte))
    (ae : NewEventid) (bookmode : Bool) (ci : CommitInfo) : Committed :=
  if !ae.tmpfile then
    ⟨false, pcpErrEventnotfound, ae, index⟩
  else if ci.eventTimes = [] then
    ⟨false, pcpErrConflict, ae, index⟩
  else
    match pcpAddSortTimes ci.eventTimes with
    | none => ⟨false, 0, ae, index⟩
    | some times =>
      if !disk.locks then
        ⟨false, pcpErrLock, ae, index⟩
      else
        (index.foldl (copyLine index ae bookmode ci times)
          Copying.start).finish disk bookTime index ae bookmode ci times

structure Changed where
  ok : Bool
  errcode : Nat
  index : List (List Byte)

/- A line, as `cancelevent` writes it. -/
def cancelLine (event pi : List Byte) : List Byte :=
  if !lbIsEventid pi event then
    pi
  else if lbIsCancelled pi then
    pi
  else
    pi ++ tab :: CANCELLED_FIELD

/- `cancelevent`. -/
def cancelevent (disk : Disk) (index : List (List Byte)) (event : List Byte) : Changed :=
  if !disk.locks then
    ⟨false, 0, index⟩
  else if !index.any (lbIsEventid · event) then
    ⟨false, pcpErrEventnotfound, index⟩
  else if disk.renames then
    ⟨true, 0, index.map (cancelLine event)⟩
  else
    ⟨false, 0, index⟩

/- A line, as `uncancelevent` writes it. -/
def uncancelLine (event pi : List Byte) : List Byte :=
  if !lbIsEventid pi event then
    pi
  else if !lbIsCancelled pi then
    pi
  else
    lbRemoveField pi CANCELLED_FIELD none

/-
  One line in the second loop of `uncancelevent`: the check of
  a line replaces the result of those before it.
-/
def uncancelCheck (event : List Byte) (flags : UInt32) (callback : ConflictCallback)
    (times : List EventTime) (s : Conflict) (pi : List Byte) : Conflict :=
  if !lbIsEventid pi event then
    if flags &&& pcpOkConflict = 0 ∧ !lbIsCancelled pi then
      pcpIsConflict pi times callback s.errcode
    else
      s
  else
    s

/- The times of the event, sorted; there may be none. -/
def uncancelTimes (pi : List Byte) : Option (List EventTime) :=
  if lbTimes pi = [] then some [] else pcpAddSortTimes (lbTimes pi)

/- `uncancelevent`. -/
def uncancelevent (disk : Disk) (index : List (List Byte)) (event : List Byte)
    (flags : UInt32) (callback : ConflictCallback) : Changed :=
  if !disk.locks then
    ⟨false, 0, index⟩
  else
    match index.find? (lbIsEventid · event) with
    | none => ⟨false, pcpErrEventnotfound, index⟩
    | some pi =>
      match uncancelTimes pi with
      | none => ⟨false, 0, index⟩
      | some times =>
        let s := index.foldl (uncancelCheck event flags callback times) ⟨false, 0⟩
        if !s.rc && disk.renames then
          ⟨true, s.errcode, index.map (uncancelLine event)⟩
        else
          ⟨false, s.errcode, index⟩

/- `deleteevent`. -/
def deleteevent (disk : Disk) (index : List (List Byte)) (id : List Byte) : Changed :=
  if !disk.locks then
    ⟨false, 0, index⟩
  else if !index.any (lbIsEventid · id) then
    ⟨false, pcpErrEventnotfound, index⟩
  else if disk.renames then
    ⟨true, 0, index.filter (!lbIsEventid · id)⟩
  else
    ⟨false, 0, index⟩

/- The index, and all that `neweventid` has made. -/
structure Calendar where
  index : List (List Byte)
  events : List NewEventid

/-
  `neweventid`: participants with blanks are refused.  The id
  and the file's name are unique.
-/
def neweventid (eventid newfile : List Byte) (oldeventid : Option (List Byte))
    (participants : List (List Byte × Option (List Byte))) : Option NewEventid :=
  if participants.any fun p => p.1.any isspace || p.2.any (·.any isspace) then
    none
  else
    some ⟨eventid, newfile, oldeventid, participants, true, false⟩

/- What clients do with a calendar; events have numbers. -/
inductive Op where
  | neweventid
      (eventid newfile : List Byte)
      (oldeventid : Option (List Byte))
      (participants : List (List Byte × Option (List Byte)))
  | book
      (k : Nat)
      (ci : CommitInfo)
      (bookTime : Int64)
      (disk : Disk)
  | commit (k : Nat) (ci : CommitInfo) (disk : Disk)
  | destroyeventid (k : Nat) (disk : Disk)
  | cancel (event : List Byte) (disk : Disk)
  | uncancel
      (event : List Byte)
      (flags : UInt32)
      (callback : ConflictCallback)
      (disk : Disk)
  | delete (event : List Byte) (disk : Disk)
  | cleanup (kept : List Byte → Bool)

/- A call of `docommitevent` for the event with a number. -/
def Calendar.docommit (s : Calendar) (k : Nat) (bookmode : Bool) (ci : CommitInfo)
    (bookTime : Int64) (disk : Disk) : Calendar :=
  match s.events[k]? with
  | none => s
  | some ae =>
    let done :=
      docommitevent disk bookTime s.index ae bookmode ci
    ⟨done.index, s.events.set k done.ae⟩

/-
  What an operation does.  `cleanup` drops the lines of
  events whose files are gone, and of those that have expired.
-/
def Calendar.step (s : Calendar) : Op → Calendar
  | .neweventid eventid newfile oldeventid participants =>
    match neweventid eventid newfile oldeventid participants with
    | none => s
    | some ae => { s with events := s.events ++ [ae] }
  | .book k ci bookTime disk => s.docommit k true ci bookTime disk
  | .commit k ci disk => s.docommit k false ci 0 disk
  | .destroyeventid k disk =>
    match s.events[k]? with
    | none => s
    | some ae =>
      { index :=
          if ae.booked then (deleteevent disk s.index ae.eventid).index else s.index
        events := s.events.set k { ae with tmpfile := false } }
  | .cancel event disk => { s with index := (cancelevent disk s.index event).index }
  | .uncancel event flags callback disk =>
    { s with
      index := (uncancelevent disk s.index event flags
        callback).index }
  | .delete event disk => { s with index := (deleteevent disk s.index event).index }
  | .cleanup kept => { s with index := s.index.filter kept }

theorem rc_conflictLoop (callback : ConflictCallback) (eventId : List Byte)
    (time : EventTime) (t : List EventTime) (s : Conflict) :
    (conflictLoop callback eventId time t s).rc = (s.rc || t.any time.meets) := by
  induction t generalizing s with
  | nil => rw [conflictLoop, List.any_nil, Bool.or_false]
  | cons a t ih =>
    have hMeets : time.meets a = !(a.stop ≤ time.start || time.stop ≤ a.start) := by
      unfold EventTime.meets
      simp only [Bool.not_or, ← decide_not, Int64.not_le]
    rw [conflictLoop.eq_def, List.any_cons, hMeets]
    simp only []
    cases hApart : decide (a.stop ≤ time.start) ||
        decide (time.stop ≤ a.start) with
    | true => rw [if_pos rfl, ih, Bool.not_true, Bool.false_or]
    | false =>
      rw [if_neg Bool.false_ne_true, Bool.not_false, Bool.true_or, Bool.or_true]
      cases callback with
      | none => exact (ih _).trans (Bool.true_or _)
      | some addConflict =>
        simp only []
        split
        · rfl
        · exact (ih _).trans (Bool.true_or _)

/- Two lines have times that meet. -/
def conflicts (pi : List Byte) (times : List EventTime) : Bool :=
  (lbTimes pi).any fun time => times.any time.meets

theorem rc_pcpIsConflict (pi : List Byte) (times : List EventTime)
    (callback : ConflictCallback) (errcode : Nat) :
    (pcpIsConflict pi times callback errcode).rc = conflicts pi times := by
  have hFrom : ∀ (mine : List EventTime) (s : Conflict),
      (mine.foldl (fun s time => conflictLoop callback (lbEventId pi) time times s) s).rc =
        (s.rc || mine.any fun time => times.any time.meets) := by
    intro mine
    induction mine with
    | nil =>
      intro s
      exact (Bool.or_false s.rc).symm
    | cons time mine ih =>
      intro s
      rw [List.foldl_cons, ih, rc_conflictLoop, List.any_cons, Bool.or_assoc]
  exact (hFrom (lbTimes pi) ⟨false, errcode⟩).trans (Bool.false_or _)

------------
-- What a Commit Does
------------

section Commits

variable (index : List (List Byte)) (ae : NewEventid) (bookmode : Bool) (ci : CommitInfo)
variable (times : List EventTime)

/- The line of the old event, with the booking in it. -/
def held (pi : List Byte) : List Byte :=
  match lbIsPendel pi with
  | some _ => pi
  | none => lbRemoveField pi PENDEL_FIELD (some (PENDEL_FIELD, ae.eventid))

/- What is written for a line. -/
def copied (pi : List Byte) : Option (List Byte) :=
  if ae.ownBooking pi then
    if bookmode then none
    else some (lbRemoveField pi BOOKED_FIELD none)
  else if ae.isOld pi then
    if bookmode then some (held ae pi) else none
  else
    some pi

/- Another booking that exists holds the line. -/
def lockedBy (pi : List Byte) : Bool :=
  (lbIsPendel pi).any fun pendel =>
    lbFieldValueBuf pendel ≠ ae.eventid && eventexists index (lbFieldValueBuf pendel)

/- Conflicts with the line are looked for. -/
def checksLine (pi : List Byte) : Bool :=
  ci.flags &&& pcpOkConflict = 0 && (!ae.booked || bookmode) && !lbIsCancelled pi

/- The line makes the commit fail. -/
def refuses (pi : List Byte) : Bool :=
  !ae.ownBooking pi &&
    if ae.isOld pi then
      bookmode && lockedBy index ae pi
    else
      checksLine ae bookmode ci pi && conflicts pi times

/- The line is that of an old event that is cancelled. -/
def oldCancelled (pi : List Byte) : Bool :=
  !ae.ownBooking pi && ae.isOld pi && lbIsCancelled pi

theorem copyLine_eq (s : Copying) (pi : List Byte) :
    let next := copyLine index ae bookmode ci times s pi
    next.nfp = s.nfp ++ (copied ae bookmode pi).toList ∧
      next.rc = (s.rc && !refuses index ae bookmode ci times pi) ∧
      next.isCancelled = (s.isCancelled || oldCancelled ae pi) ∧
      next.isBooked = (s.isBooked || (!bookmode && ae.ownBooking pi)) ∧
      next.wasBooked = (s.wasBooked || ae.ownBooking pi) := by
  unfold copyLine copied refuses oldCancelled
  cases hOwn : ae.ownBooking pi with
  | true =>
    cases bookmode with
    | true => simp
    | false => simp
  | false =>
    cases hOld : ae.isOld pi with
    | true =>
      cases bookmode with
      | false => simp
      | true =>
        cases hPendel : lbIsPendel pi with
        | none => simp [held, lockedBy, hPendel]
        | some pendel => simp [held, lockedBy, hPendel]
    | false =>
      have hChecks : (ci.flags &&& pcpOkConflict = 0 ∧
          (!ae.booked || bookmode) ∧ !lbIsCancelled pi) ↔
          checksLine ae bookmode ci pi = true := by
        unfold checksLine
        rw [Bool.and_eq_true, Bool.and_eq_true, decide_eq_true_iff, and_assoc]
      simp only [Bool.false_eq_true, if_false, hChecks]
      cases checksLine ae bookmode ci pi with
      | true => simp [rc_pcpIsConflict]
      | false => simp

/- The whole loop. -/
theorem foldl_copyLine (lines : List (List Byte)) (s : Copying) :
    let last := lines.foldl (copyLine index ae bookmode ci times) s
    last.nfp = s.nfp ++ lines.filterMap (copied ae bookmode) ∧ last.rc = (s.rc &&
          lines.all (!refuses index ae bookmode ci times ·)) ∧
      last.isCancelled = (s.isCancelled || lines.any (oldCancelled ae)) ∧
      last.isBooked = (s.isBooked || (!bookmode && lines.any ae.ownBooking)) ∧
      last.wasBooked = (s.wasBooked || lines.any ae.ownBooking) := by
  induction lines generalizing s with
  | nil => simp
  | cons pi lines ih =>
    rcases copyLine_eq index ae bookmode ci times s pi with
      ⟨hNfp, hRc, hCancelled, hIsBooked, hWasBooked⟩
    rcases ih (copyLine index ae bookmode ci times s pi) with
      ⟨hNfps, hRcs, hCancelleds, hIsBookeds, hWasBookeds⟩
    rw [List.foldl_cons]
    refine ⟨?_, ?_, ?_, ?_, ?_⟩
    · rw [hNfps, hNfp, List.append_assoc]
      cases hCopy : copied ae bookmode pi with
      | none => rw [List.filterMap_cons_none hCopy]; rfl
      | some line => rw [List.filterMap_cons_some hCopy]; rfl
    · rw [hRcs, hRc, List.all_cons, Bool.and_assoc]
    · rw [hCancelleds, hCancelled, List.any_cons, Bool.or_assoc]
    · rw [hIsBookeds, hIsBooked, List.any_cons, Bool.and_or_distrib_left, Bool.or_assoc]
    · rw [hWasBookeds, hWasBooked, List.any_cons, Bool.or_assoc]

variable (bookTime : Int64)

/- The line that a booking or a commit adds. -/
def newLine : List Byte :=
  lineText ae.eventid ae.newfile (recordFields ae bookmode ci bookTime times
      (index.any (oldCancelled ae)))

/- The index, when a booking or a commit has been accepted. -/
def committedIndex : List (List Byte) :=
  index.filterMap (copied ae bookmode) ++
    if ae.booked && !bookmode then [] else [newLine index ae bookmode ci times bookTime]

/- What is known of a booking or a commit that is accepted. -/
structure Accepted (done : Committed) : Prop where
  tmpfile : ae.tmpfile = true
  sorted : pcpAddSortTimes ci.eventTimes = some times
  fine : ∀ pi, pi ∈ index → refuses index ae bookmode ci times pi = false
  present : ae.booked = true → index.any ae.ownBooking = true
  index : done.index = committedIndex index ae bookmode ci times bookTime
  event : done.ae = { ae with tmpfile := bookmode, booked := bookmode }

/- An event is left as it is, or its booking is gone. -/
inductive Kept : NewEventid → Prop where
  | same : Kept ae
  | gone
      (hBooked : ae.booked = true)
      (hNone : index.any ae.ownBooking = false) :
      Kept { ae with booked := false }

theorem kept_unlessGone : Kept index ae
      { ae with
        booked := ae.booked && !(ae.booked && !index.any ae.ownBooking) } := by
  cases hBooked : ae.booked with
  | false =>
    have hSame : { ae with
        booked := false && !(false && !index.any ae.ownBooking) } = ae := by
      rw [Bool.false_and, ← hBooked]
    rw [hSame]
    exact .same
  | true =>
    cases hOwn : index.any ae.ownBooking with
    | true =>
      have hSame : { ae with
          booked := true && !(true && !true) } = ae := by
        rw [Bool.not_true, Bool.and_false, Bool.not_false, Bool.and_true, ← hBooked]
      rw [hSame]
      exact .same
    | false => exact .gone hBooked hOwn

end Commits

/- What follows the loop. -/
theorem finish_cases {disk : Disk} {bookTime : Int64} {index : List (List Byte)}
    {ae : NewEventid} {bookmode : Bool} {ci : CommitInfo} {times : List EventTime}
    {s : Copying} (hFile : ae.tmpfile = true) (hSort : pcpAddSortTimes ci.eventTimes = some times)
    (hNfp : s.nfp = index.filterMap (copied ae bookmode))
    (hRc : s.rc = index.all (!refuses index ae bookmode ci times ·))
    (hCancelled : s.isCancelled = index.any (oldCancelled ae))
    (hIsBooked : s.isBooked = (!bookmode && index.any ae.ownBooking))
    (hWasBooked : s.wasBooked = index.any ae.ownBooking) :
    let done := s.finish disk bookTime index ae bookmode ci times
    (done.ok = true ∧ Accepted index ae bookmode ci times bookTime done) ∨
    (done.ok = false ∧ done.index = index ∧ Kept index ae done.ae) := by
  have hKept := kept_unlessGone index ae
  unfold Copying.finish
  simp only []
  generalize hLast : (if (s.rc && !s.isBooked) = true then
      { s with
        nfp := s.nfp ++ [lineText ae.eventid ae.newfile (recordFields ae bookmode ci bookTime times
            s.isCancelled)]
        rc := ae.eventParticipants.all saneParticipant }
    else s) = last
  have hWas : last.wasBooked = index.any ae.ownBooking := by
    rw [← hLast]
    split <;> exact hWasBooked
  rw [hWas]
  cases hGone : ae.booked && !index.any ae.ownBooking with
  | true =>
    rw [hGone] at hKept
    rw [Bool.not_true, Bool.and_false, Bool.and_false, Bool.false_and, if_neg Bool.false_ne_true]
    rw [Bool.not_true, Bool.and_false] at hKept
    exact Or.inr ⟨rfl, rfl, hKept⟩
  | false =>
    rw [hGone] at hKept
    rw [Bool.not_false, Bool.and_true, Bool.and_true]
    rw [Bool.not_false, Bool.and_true] at hKept
    cases hEnd : last.rc && disk.renames with
    | false =>
      rw [if_neg Bool.false_ne_true]
      exact Or.inr ⟨rfl, rfl, hKept⟩
    | true =>
      left
      rw [Bool.and_eq_true] at hEnd
      have hFine : s.rc = true := by
        rw [← hLast] at hEnd
        cases hStart : s.rc with
        | true => rfl
        | false =>
          rw [hStart] at hEnd
          exact hStart.symm.trans hEnd.1
      have hOwn : index.any ae.ownBooking = ae.booked := by
        cases hAny : index.any ae.ownBooking with
        | true =>
          rcases List.any_eq_true.mp hAny with ⟨pi, _, hIs⟩
          unfold NewEventid.ownBooking at hIs
          exact (Bool.and_eq_true_iff.mp hIs).1.symm
        | false =>
          rw [hAny] at hGone
          exact (Bool.and_true ae.booked ▸ hGone).symm
      have hIndex : last.nfp = committedIndex index ae bookmode ci times
            bookTime := by
        rw [← hLast, hFine, hIsBooked, hOwn, hCancelled, hNfp,
          Bool.true_and, Bool.and_comm (!bookmode)]
        unfold committedIndex newLine
        cases ae.booked && !bookmode with
        | true =>
          rw [if_pos rfl, List.append_nil]
          exact hNfp
        | false => rfl
      have hRefuses : ∀ pi, pi ∈ index → refuses index ae bookmode ci times pi = false := by
        intro pi hMem
        have hAll := List.all_eq_true.mp (hRc ▸ hFine) pi hMem
        exact (Bool.not_eq_true' _).mp hAll
      rw [if_pos rfl]
      cases bookmode with
      | true =>
        rw [if_pos rfl]
        refine ⟨rfl, hFile, hSort, hRefuses, ?_, hIndex, ?_⟩
        · exact hOwn.trans
        · rw [← hFile]
      | false =>
        rw [if_neg Bool.false_ne_true]
        exact ⟨rfl, hFile, hSort, hRefuses, hOwn.trans, hIndex, rfl⟩

/- A booking or a commit is accepted, or the index stays. -/
theorem docommitevent_cases (disk : Disk) (bookTime : Int64) (index : List (List Byte))
    (ae : NewEventid) (bookmode : Bool) (ci : CommitInfo) :
    let done := docommitevent disk bookTime index ae bookmode ci
    (done.ok = true ∧ ∃ times, Accepted index ae bookmode ci times bookTime done) ∨
    (done.ok = false ∧ done.index = index ∧ Kept index ae done.ae) := by
  unfold docommitevent
  cases hFile : ae.tmpfile with
  | false => exact Or.inr ⟨rfl, rfl, .same⟩
  | true =>
    rw [Bool.not_true, if_neg Bool.false_ne_true]
    by_cases hTimes : ci.eventTimes = []
    · rw [if_pos hTimes]
      exact Or.inr ⟨rfl, rfl, .same⟩
    rw [if_neg hTimes]
    cases hSort : pcpAddSortTimes ci.eventTimes with
    | none => exact Or.inr ⟨rfl, rfl, .same⟩
    | some times =>
      cases hLocks : disk.locks with
      | false => exact Or.inr ⟨rfl, rfl, .same⟩
      | true =>
        rcases foldl_copyLine index ae bookmode ci times index Copying.start with
          ⟨hNfp, hRc, hCancelled, hIsBooked, hWasBooked⟩
        rcases finish_cases hFile hSort hNfp hRc hCancelled
          hIsBooked hWasBooked with ⟨hOk, hDone⟩ | hStays
        · exact Or.inl ⟨hOk, times, hDone⟩
        · exact Or.inr hStays

end Wmail.Pcpdir
