import Wmail.Core.Fgets
import Wmail.Pcp.IndexLine

/-
  The cleaning of a calendar's index (pcpdir.c).

  Of the calendar's files only the index and the new index are
  kept, and what the system makes of each call is a parameter.

  Key theorems include:
    * `writeNew_text_iff`
    * `cleanup_intact_iff`
-/

namespace Wmail.Pcpdir

/- The lines up to the last newline; `n` has been read. -/
def lbReadFrom (n : List Byte) : List Byte → List (List Byte)
  | [] => []
  | c :: rest =>
    if c = nl then n :: lbReadFrom [] rest else lbReadFrom (n ++ [c]) rest

/- What `lb_read` returns, call after call, as C strings. -/
def lbReadAll (fp : List Byte) : List (List Byte) :=
  (lbReadFrom [] fp).map (·.takeWhile (· ≠ 0))

/- What `stat` finds; `missing` is `ENOENT`. -/
inductive Stat where
  | found
  | missing
  | failed
deriving DecidableEq, Repr

/-
  A calendar's directory, the time, and what the system does.

  Of the index, `readable` bytes are read, and `lineRoom`
  lines at most for want of memory; of the new index,
  `arrives` bytes come to the disk.  Lines are counted.
-/
structure System where
  dirname : List Byte
  calendarpurge : Int64
  now : Int64
  locked : Bool
  indexOpens : Bool
  indexSeeks : Bool
  newOpens : Bool
  bufferReady : Bool
  readable : Nat
  lineRoom : Nat
  filenameReady : Nat → Bool
  stat : Nat → List Byte → Stat
  readsWell : Bool
  writesWell : Bool
  arrives : Nat
  newCloses : Bool
  indexCloses : Bool
  renames : Bool
  scans : Bool

/- The index and the new index. -/
structure Files where
  index : Option (List Byte)
  newindex : Option (List Byte)
deriving DecidableEq, Repr

/- What becomes of a line. -/
inductive Fate where
  | keep
  | drop
  | fail
deriving DecidableEq, Repr

/- A turn of the loop in `cleanup`. -/
def fate (sys : System) (k : Nat) (pi : List Byte) : Fate :=
  let filename := lbFilename sys.dirname pi
  if !sys.filenameReady k then
    .fail
  else if filename = [] then
    .drop
  else
    match lbIsBooked pi with
    | some bookedTime =>
      -- books expire after 1 hr
      if bookedTime < sys.now - 60 * 60 then .drop else .keep
    | none =>
      match sys.stat k filename with
      | .failed => .fail
      | .missing => .drop
      | .found =>
        if eventExpired pi (sys.now - sys.calendarpurge * 60 * 60 * 24) then .drop else .keep

/- The loop, with whether it comes to its end, and what it
writes. -/
def cleanupLoop (sys : System) : Nat → List (List Byte) → Bool × List Byte
  | _, [] => (true, [])
  | k, pi :: rest =>
    match fate sys k pi with
    | .fail => (false, [])
    | .drop => cleanupLoop sys (k + 1) rest
    | .keep =>
      let (rc, text) := cleanupLoop sys (k + 1) rest
      (rc, pi ++ nl :: text)

/- The lines that `cleanup` goes through. -/
def indexLines (sys : System) (text : List Byte) : List (List Byte) :=
  (lbReadAll (text.take sys.readable)).take sys.lineRoom

/- What is in the new index, and whether all went well. -/
def writeNew (sys : System) (text : List Byte) : Bool × List Byte :=
  if sys.bufferReady then cleanupLoop sys 0 (indexLines sys text) else (false, [])

/-
  `cleanup`.  The index is renamed whatever has happened
  before.  The scan of the directory leaves both files alone.
-/
def cleanup (sys : System) (fs : Files) : Bool × Files :=
  if !sys.locked || !sys.indexOpens then
    (false, fs)
  else
    -- an index is made where there is none
    let text := fs.index.getD []
    if !sys.indexSeeks then
      (false, { fs with index := some text })
    else
      let (rc, newindex) :=
        if sys.newOpens then
          let (rc, out) := writeNew sys text
          (rc && sys.readsWell && sys.writesWell &&
            sys.newCloses, some (out.take sys.arrives))
        else
          (false, fs.newindex)
      let rc := rc && sys.indexCloses
      match newindex with
      | none => (false, ⟨some text, none⟩)
      | some new =>
        if sys.renames then
          (rc && sys.scans, ⟨some new, none⟩)
        else
          (false, ⟨some text, some new⟩)

/- Where a cleaning fails, the index stays. -/
def Intact (sys : System) (fs : Files) : Prop :=
  (cleanup sys fs).1 = false → ∀ text, fs.index = some text → (cleanup sys fs).2.index = some text

variable (sys : System)

theorem cleanupLoop_rc_iff (k : Nat) (lines : List (List Byte)) :
    (cleanupLoop sys k lines).1 = true ↔
      ∀ i pi, lines[i]? = some pi → fate sys (k + i) pi ≠ .fail := by
  induction lines generalizing k with
  | nil => exact iff_of_true rfl nofun
  | cons pi rest ih =>
    have hRest := ih (k + 1)
    have hShift : (∀ i line, (pi :: rest)[i]? = some line → fate sys (k + i) line ≠ .fail) ↔
        fate sys k pi ≠ .fail ∧ ∀ i line, rest[i]? = some line →
            fate sys (k + 1 + i) line ≠ .fail := by
      constructor
      · intro hAll
        refine ⟨hAll 0 pi rfl, ?_⟩
        intro i line hAt
        rw [Nat.add_assoc, Nat.add_comm 1 i]
        exact hAll (i + 1) line hAt
      · rintro ⟨hHere, hMore⟩ i line hAt
        cases i with
        | zero =>
          cases hAt
          exact hHere
        | succ i =>
          have hNext := hMore i line hAt
          rw [Nat.add_assoc, Nat.add_comm 1 i] at hNext
          exact hNext
    rw [hShift, ← hRest, cleanupLoop]
    cases fate sys k pi with
    | fail => simp
    | drop => simp
    | keep => simp

/- The text of lines. -/
def textOf (lines : List (List Byte)) : List Byte :=
  lines.flatMap (· ++ [nl])

/-
  No more is written than was read, and as much only where all
  lines are kept.
-/
theorem length_cleanupLoop (k : Nat) (lines : List (List Byte)) :
    (cleanupLoop sys k lines).2.length ≤ (textOf lines).length ∧
      ((cleanupLoop sys k lines).2.length = (textOf lines).length →
        ∀ i pi, lines[i]? = some pi → fate sys (k + i) pi = .keep) := by
  induction lines generalizing k with
  | nil => exact ⟨Nat.le_refl 0, fun _ => nofun⟩
  | cons pi rest ih =>
    rcases ih (k + 1) with ⟨hLe, hAll⟩
    have hText : (textOf (pi :: rest)).length = pi.length + 1 + (textOf rest).length := by
      unfold textOf
      rw [List.flatMap_cons, List.length_append, List.length_append, List.length_singleton]
    rw [hText, cleanupLoop]
    cases hFate : fate sys k pi with
    | fail =>
      refine ⟨Nat.zero_le _, ?_⟩
      intro hSame
      rw [List.length_nil] at hSame
      omega
    | drop =>
      simp only []
      refine ⟨by omega, ?_⟩
      intro hSame
      omega
    | keep =>
      simp only [List.length_append, List.length_cons]
      refine ⟨by omega, ?_⟩
      intro hSame i line hAt
      cases i with
      | zero =>
        cases hAt
        exact hFate
      | succ i =>
        have hNext := hAll (by omega) i line hAt
        rw [Nat.add_assoc, Nat.add_comm 1 i] at hNext
        exact hNext

/- Where all lines are kept, they are written. -/
theorem cleanupLoop_keeps (k : Nat) {lines : List (List Byte)}
    (hKeep : ∀ i pi, lines[i]? = some pi →
      fate sys (k + i) pi = .keep) : (cleanupLoop sys k lines).2 = textOf lines := by
  induction lines generalizing k with
  | nil => rfl
  | cons pi rest ih =>
    have hHere := hKeep 0 pi rfl
    have hRest := ih (k + 1) (by
      intro i line hAt
      rw [Nat.add_assoc, Nat.add_comm 1 i]
      exact hKeep (i + 1) line hAt)
    rw [Nat.add_zero] at hHere
    rw [cleanupLoop, hHere]
    simp only [hRest]
    unfold textOf
    rw [List.flatMap_cons, List.append_assoc, List.singleton_append]

theorem length_lbReadAll (text : List Byte) : (textOf (lbReadAll text)).length ≤ text.length := by
  have hFrom : ∀ n : List Byte, (textOf ((lbReadFrom n text).map (·.takeWhile (· ≠ 0)))).length ≤
        n.length + text.length := by
    induction text with
    | nil =>
      intro n
      exact Nat.zero_le _
    | cons c text ih =>
      intro n
      rw [lbReadFrom]
      split
      · have hRest := ih []
        have hLine := (List.takeWhile_prefix (l := n) (fun b : Byte => decide (b ≠ 0))).length_le
        unfold textOf at hRest ⊢
        rw [List.map_cons, List.flatMap_cons, List.length_append, List.length_append,
          List.length_singleton, List.length_cons]
        rw [List.length_nil] at hRest
        omega
      · have hRest := ih (n ++ [c])
        rw [List.length_append, List.length_singleton] at hRest
        rw [List.length_cons]
        omega
  have hAll := hFrom []
  rw [List.length_nil, Nat.zero_add] at hAll
  exact hAll

theorem length_indexLines (text : List Byte) :
    (textOf (indexLines sys text)).length ≤ text.length := by
  have hTake : (textOf (indexLines sys text)).length ≤
      (textOf (lbReadAll (text.take sys.readable))).length := by
    unfold indexLines textOf
    nth_rewrite 2 [← List.take_append_drop sys.lineRoom (lbReadAll (text.take sys.readable))]
    rw [List.flatMap_append, List.length_append]
    exact Nat.le_add_right _ _
  exact (hTake.trans (length_lbReadAll _)).trans (List.length_take_le' _ _)

/- Nothing fails behind the opening of the two files. -/
structure Works (sys : System) (text : List Byte) : Prop where
  buffer : sys.bufferReady = true
  lines : ∀ k pi, (indexLines sys text)[k]? = some pi → fate sys k pi ≠ .fail
  reads : sys.readsWell = true
  writes : sys.writesWell = true
  newCloses : sys.newCloses = true
  indexCloses : sys.indexCloses = true
  scans : sys.scans = true

/-
  The index is all read and has no byte but those of its
  lines, all of them are kept, and the disk has room for them.
-/
structure Copies (sys : System) (text : List Byte) : Prop where
  buffer : sys.bufferReady = true
  whole : textOf (indexLines sys text) = text
  lines : ∀ k pi, (indexLines sys text)[k]? = some pi → fate sys k pi = .keep
  arrives : text.length ≤ sys.arrives

variable {sys}

theorem writeNew_rc_iff (text : List Byte) : (writeNew sys text).1 = true ↔
      sys.bufferReady = true ∧ ∀ k pi, (indexLines sys text)[k]? = some pi →
          fate sys k pi ≠ .fail := by
  have hLoop := cleanupLoop_rc_iff sys 0 (indexLines sys text)
  simp only [Nat.zero_add] at hLoop
  unfold writeNew
  cases sys.bufferReady with
  | false => simp
  | true => simpa using hLoop

/- The new index has the text of the index. -/
theorem writeNew_text_iff (text : List Byte) : (writeNew sys text).2.take sys.arrives = text ↔
      text = [] ∨ Copies sys text := by
  have hKeeps := @cleanupLoop_keeps sys 0 (indexLines sys text)
  have hLength := length_cleanupLoop sys 0 (indexLines sys text)
  simp only [Nat.zero_add] at hKeeps hLength
  rcases hLength with ⟨hLe, hAll⟩
  have hText := length_indexLines sys text
  have hShort : (writeNew sys text).2.length ≤ text.length := by
    unfold writeNew
    split
    · exact hLe.trans hText
    · exact Nat.zero_le _
  constructor
  · intro hSame
    by_cases hNone : text = []
    · exact Or.inl hNone
    right
    have hCount := congrArg List.length hSame
    rw [List.length_take] at hCount
    have hOut : (writeNew sys text).2 = text := by
      rw [List.take_of_length_le (by omega)] at hSame
      exact hSame
    cases hBuffer : sys.bufferReady with
    | false =>
      unfold writeNew at hOut
      rw [hBuffer] at hOut
      exact absurd hOut.symm hNone
    | true =>
      unfold writeNew at hOut
      rw [hBuffer, if_pos rfl] at hOut
      have hFull := congrArg List.length hOut
      have hKeep := hAll (by omega)
      refine ⟨hBuffer, ?_, hKeep, by omega⟩
      rw [← hKeeps hKeep]
      exact hOut
  · rintro (rfl | hCopies)
    · have hNone := List.eq_nil_of_length_eq_zero (Nat.le_zero.mp hShort)
      rw [hNone, List.take_nil]
    · unfold writeNew
      rw [hCopies.buffer, if_pos rfl, hKeeps hCopies.lines,
        hCopies.whole, List.take_of_length_le hCopies.arrives]

/- Where the index is opened, the rest decides. -/
theorem cleanup_opened {fs : Files} {text : List Byte} (hIndex : fs.index = some text)
    (hOpen : sys.locked = true ∧ sys.indexOpens = true ∧ sys.indexSeeks = true) :
    cleanup sys fs =
      if sys.newOpens then
        if sys.renames then
          ((writeNew sys text).1 && sys.readsWell &&
            sys.writesWell && sys.newCloses && sys.indexCloses && sys.scans,
            ⟨some ((writeNew sys text).2.take sys.arrives), none⟩)
        else
          (false, ⟨some text, some ((writeNew sys text).2.take sys.arrives)⟩)
      else
        match fs.newindex with
        | none => (false, ⟨some text, none⟩)
        | some new =>
          if sys.renames then (false, ⟨some new, none⟩) else (false, ⟨some text, some new⟩) := by
  unfold cleanup
  rw [hOpen.1, hOpen.2.1, hOpen.2.2, hIndex, Option.getD_some]
  cases sys.newOpens with
  | true => rfl
  | false => rfl

/- All results are good where nothing fails. -/
theorem works_iff (text : List Byte) : ((writeNew sys text).1 && sys.readsWell &&
        sys.writesWell && sys.newCloses && sys.indexCloses && sys.scans) = true ↔
      Works sys text := by
  simp only [Bool.and_eq_true, writeNew_rc_iff]
  constructor
  · rintro ⟨⟨⟨⟨⟨⟨hBuffer, hLines⟩, hReads⟩, hWrites⟩, hNew⟩, hIndex⟩, hScans⟩
    exact ⟨hBuffer, hLines, hReads, hWrites, hNew, hIndex, hScans⟩
  · intro hWorks
    exact ⟨⟨⟨⟨⟨⟨hWorks.buffer, hWorks.lines⟩, hWorks.reads⟩,
      hWorks.writes⟩, hWorks.newCloses⟩, hWorks.indexCloses⟩,
      hWorks.scans⟩

/-
  Exactly where the index stays when a cleaning fails: there
  was none, the calendar is not locked or its index not
  opened, there is nothing to rename or it is not renamed; or
  a new index of an earlier call has the same text; or nothing
  fails; or the new index has the text before anything fails.
-/
theorem cleanup_intact_iff (sys : System) (fs : Files) :
    Intact sys fs ↔ ∀ text, fs.index = some text → sys.locked = true → sys.indexOpens = true →
          sys.indexSeeks = true → sys.renames = true →
            if sys.newOpens then
              Works sys text ∨ text = [] ∨ Copies sys text
            else
              fs.newindex = none ∨ fs.newindex = some text := by
  unfold Intact
  constructor
  · intro hIntact text hIndex hLocked hOpens hSeeks hRenames
    have hCleanup := cleanup_opened hIndex ⟨hLocked, hOpens, hSeeks⟩
    rw [hCleanup, hRenames] at hIntact
    split
    · rename_i hNew
      rw [if_pos hNew, if_pos rfl] at hIntact
      by_cases hWorks : Works sys text
      · exact Or.inl hWorks
      · have hFails := Bool.eq_false_iff.mpr (mt (works_iff text).mp hWorks)
        have hSame := hIntact hFails text hIndex
        exact Or.inr ((writeNew_text_iff text).mp (Option.some.inj hSame))
    · rename_i hNew
      rw [if_neg hNew] at hIntact
      cases hStale : fs.newindex with
      | none => exact Or.inl rfl
      | some new =>
        rw [hStale] at hIntact
        exact Or.inr (hIntact rfl text hIndex)
  · intro hCond hFails text hIndex
    by_cases hOpen : sys.locked = true ∧ sys.indexOpens = true
    · by_cases hSeeks : sys.indexSeeks = true
      · have hCleanup := cleanup_opened hIndex ⟨hOpen.1, hOpen.2, hSeeks⟩
        have hCase := hCond text hIndex hOpen.1 hOpen.2 hSeeks
        rw [hCleanup] at hFails ⊢
        cases hRenames : sys.renames with
        | false =>
          simp only [Bool.false_eq_true, if_false]
          split
          · rfl
          · split
            · rfl
            · rfl
        | true =>
          rw [hRenames, if_pos rfl] at hFails
          rw [if_pos rfl]
          have hKept := hCase hRenames
          split
          · rename_i hNew
            rw [if_pos hNew] at hKept hFails
            rcases hKept with hWorks | hSame
            · rw [(works_iff text).mpr hWorks] at hFails
              cases hFails
            · exact congrArg some ((writeNew_text_iff text).mpr hSame)
          · rename_i hNew
            rw [if_neg hNew] at hKept
            rcases hKept with hNone | hSame
            · rw [hNone]
            · rw [hSame]
              rfl
      · unfold cleanup
        rw [hOpen.1, hOpen.2, Bool.eq_false_iff.mpr hSeeks, hIndex]
        rfl
    · have hClosed : (!sys.locked || !sys.indexOpens) = true := by
        rw [Bool.or_eq_true, Bool.not_eq_true', Bool.not_eq_true']
        by_cases hLocked : sys.locked = true
        · right
          exact Bool.eq_false_iff.mpr fun hOpens => hOpen ⟨hLocked, hOpens⟩
        · exact Or.inl (Bool.eq_false_iff.mpr hLocked)
      unfold cleanup
      rw [if_pos hClosed]
      exact hIndex

/- A file that cannot be looked at, and all else in order. -/
def refusing : System where
  dirname := bytes "calendar"
  calendarpurge := 90
  now := 1000000000
  locked := true
  indexOpens := true
  indexSeeks := true
  newOpens := true
  bufferReady := true
  readable := 100
  lineRoom := 100
  filenameReady _ := true
  stat _ _ := .failed
  readsWell := true
  writesWell := true
  arrives := 100
  newCloses := true
  indexCloses := true
  renames := true
  scans := true

/- What was not read yet is lost. -/
theorem not_cleanup_intact : ¬ ∀ (sys : System) (fs : Files), Intact sys fs := by
  intro hAll
  have hIndex := hAll refusing ⟨some (bytes "1\t1.ics\n"), none⟩ (by decide) _ rfl
  exact absurd hIndex (by decide)

end Wmail.Pcpdir
