import Wmail.Maildir.Msgmove

/-
  What is left when `do_msgmove` returns an error: the quota
  file is charged before the message is linked.

  Key theorems include:
    * `doMsgmove_files`
    * `unchanged_on_error_iff`
-/

namespace Wmail.Maildir

/- The quota in the header, and the lines that were added. -/
structure Sizefile where
  quota : Maildirquota
  lines : List (Int64 × Int32)
deriving DecidableEq

/- The bytes of the file. -/
def Sizefile.text (z : Sizefile) : List Byte :=
  ledgerText z.quota z.lines

/- The recorded sums, of the lines as they are read again. -/
def Sizefile.sum (z : Sizefile) : Maildirquota :=
  (z.lines.map fun line => scanTotals (totalsText line)).foldl addTotals noQuota

/- `maildir_addquota`. -/
def Sizefile.addquota (z : Sizefile) (line : Int64 × Int32) : Sizefile :=
  { z with lines := z.lines ++ [line] }

/- What `countcurnew` and `countsubdir` count. -/
def counted (files : List Message) : Maildirquota where
  nbytes := Int64.ofInt (usage files)
  nmessages := Int32.ofInt (files.countP Message.counts)

/- A new file with what is counted now. -/
def Sizefile.recounted (z : Sizefile) (files : List Message) : Sizefile where
  quota := (openquotafile z.text).quota
  lines := [((counted files).nbytes, (counted files).nmessages)]

/-
  `docheckquota`, on the file as it was opened: whether there
  is room, and the file.  `recent` says that the file is not
  15 minutes old, and `recounts` that counting and writing
  the new file succeed.
-/
def docheckquota (z : Sizefile) (files : List Message) (xtra : Int64 × Int32)
    (recent recounts : Bool) : Bool × Sizefile :=
  let info := openquotafile z.text
  if !info.recalculationNeeded && checkQuota (addTotals info.size xtra) info.quota then
    (true, z)
  else if !info.recalculationNeeded && (info.nlines = 1 && recent) then
    (false, z)
  else if !recounts then
    (false, z)
  else
    (checkQuota (addTotals (counted files) xtra) info.quota, z.recounted files)

/- The files, and the quota file if there is one. -/
structure Shelves where
  files : List Message
  sizefile : Option Sizefile

/- The sums recorded in maildirsize. -/
def Shelves.recorded (s : Shelves) : Option Maildirquota :=
  s.sizefile.map Sizefile.sum

/-
  A move, where the check of the quota is followed, too; the
  answers `room` and `recalculates` are not asked for.
-/
structure Attempt where
  move : Move
  recent : Bool
  recounts : Bool

/- What is passed to the quota functions. -/
def Move.line (m : Move) (destdir fromdir : Place) : Option (Int64 × Int32) :=
  match m.charge destdir fromdir with
  | .none => none
  | .deleted => some (-m.filesize, -1)
  | .added => some (m.filesize, 1)

/-
  The quota part of `do_msgmove`: whether the move goes on,
  and the quota file.  `maildir_quota_deleted` does not ask
  whether there is room, `maildir_quota_add_start` does.
-/
def Attempt.book (a : Attempt) (s : Shelves) (destdir fromdir : Place) : Bool × Option Sizefile :=
  match s.sizefile, a.move.line destdir fromdir with
  | some z, some line =>
    let (room, z) :=
      docheckquota z s.files line a.recent a.recounts
    if a.move.charge destdir fromdir = .added && !room then
      (false, some z)
    else
      (true, some (z.addquota line))
  | sizefile, _ => (true, sizefile)

/- How a call ends; `error` and `enomem` end the program. -/
inductive Ending where
  | returns (rc : Int)
  | exits
deriving DecidableEq, Repr

/- The link is tried and fails. -/
def Move.linkFails (m : Move) (files : List Message) (destdir fromdir : Place) : Bool :=
  !(destdir.isShared || fromdir.isShared) && m.source ≠ m.dest &&
    !(m.stored && !files.any (·.samePath (m.link destdir)))

/- How the part of `do_msgmove` that moves the file ends. -/
def moveEnding (files : List Message) (m : Move) (destdir fromdir : Place) : Ending :=
  if destdir.isShared || fromdir.isShared then
    if !m.stored then .exits else .returns 0
  else if m.linkFails files destdir fromdir then
    .returns (-1)
  else
    .returns 0

/- `do_msgmove`. -/
def Attempt.doMsgmove (a : Attempt) (s : Shelves) : Ending × Shelves :=
  match xlateShmdir a.move.dest, xlateShmdir a.move.source with
  | some destdir, some fromdir =>
    match a.book s destdir fromdir with
    | (false, sizefile) => (.returns (-1), { s with sizefile })
    | (true, sizefile) =>
      (moveEnding s.files a.move destdir fromdir,
        { files := moveFile s.files a.move destdir fromdir
          sizefile })
  | _, _ => (.exits, s)

/- An error leaves the files and the recorded sums. -/
def Attempt.UnchangedOnError (a : Attempt) (s : Shelves) : Prop :=
  (a.doMsgmove s).1 = .returns (-1) →
    (a.doMsgmove s).2.files = s.files ∧ (a.doMsgmove s).2.recorded = s.recorded

/- The check of the quota writes a new file. -/
def Sizefile.recalculates (z : Sizefile) (xtra : Int64 × Int32) (recent recounts : Bool) : Bool :=
  let info := openquotafile z.text
  (info.recalculationNeeded ||
    (!checkQuota (addTotals info.size xtra) info.quota &&
      !(info.nlines = 1 && recent))) &&
    recounts

/- The sums that are recorded after the check. -/
def Attempt.checkedSum (a : Attempt) (s : Shelves) (z : Sizefile) (line : Int64 × Int32) :
    Maildirquota :=
  if z.recalculates line a.recent a.recounts then (z.recounted s.files).sum else z.sum

/- There is no room for a message that is added. -/
def Attempt.turnedDown (a : Attempt) (s : Shelves) (z : Sizefile) (destdir fromdir : Place)
    (line : Int64 × Int32) : Bool :=
  a.move.charge destdir fromdir = .added && !(docheckquota z s.files line a.recent a.recounts).1

/-
  Where a charge is tried: a move that is turned down did not
  find other sums than the recorded ones, and a move that is
  booked gets its link, or the line makes up for what the
  recalculation found.
-/
def Attempt.Harmless (a : Attempt) (s : Shelves) : Prop :=
  ∀ destdir fromdir z line, xlateShmdir a.move.dest = some destdir →
    xlateShmdir a.move.source = some fromdir →
    s.sizefile = some z →
    a.move.line destdir fromdir = some line →
      if a.turnedDown s z destdir fromdir line then
        a.checkedSum s z line = z.sum
      else
        a.move.linkFails s.files destdir fromdir = true →
          addTotals (a.checkedSum s z line) (scanTotals (totalsText line)) = z.sum

theorem sum_addquota (z : Sizefile) (line : Int64 × Int32) : (z.addquota line).sum =
      addTotals z.sum (scanTotals (totalsText line)) := by
  unfold Sizefile.sum Sizefile.addquota
  rw [List.map_append, List.foldl_append]
  rfl

/- The file that the check leaves. -/
theorem docheckquota_file (z : Sizefile) (files : List Message) (xtra : Int64 × Int32)
    (recent recounts : Bool) :
    (docheckquota z files xtra recent recounts).2 =
      if z.recalculates xtra recent recounts then z.recounted files else z := by
  have hShape : ∀ needed room young found : Bool, (if !needed && room then (true, z)
      else if !needed && young then (false, z)
      else if !recounts then (false, z)
      else (found, z.recounted files)).2 =
        if (needed || (!room && !young)) && recounts then z.recounted files else z := by
    intro needed room young found
    cases needed <;> cases room <;> cases young <;>
      cases recounts <;> rfl
  exact hShape _ _ _ _

theorem sum_checked (a : Attempt) (s : Shelves) (z : Sizefile) (line : Int64 × Int32) :
    (docheckquota z s.files line a.recent a.recounts).2.sum = a.checkedSum s z line := by
  rw [docheckquota_file, Attempt.checkedSum]
  split <;> rfl

/- The error that is returned behind the charge. -/
theorem moveEnding_error (files : List Message) (m : Move) (destdir fromdir : Place) :
    moveEnding files m destdir fromdir = .returns (-1) ↔
      m.linkFails files destdir fromdir = true := by
  unfold moveEnding
  cases hShared : destdir.isShared || fromdir.isShared with
  | true =>
    have hNone : m.linkFails files destdir fromdir = false := by
      unfold Move.linkFails
      rw [hShared]
      rfl
    rw [if_pos rfl, hNone]
    constructor
    · intro hEnd
      cases hStored : m.stored with
      | true =>
        rw [hStored] at hEnd
        cases hEnd
      | false =>
        rw [hStored] at hEnd
        cases hEnd
    · intro hNo
      cases hNo
  | false =>
    rw [if_neg Bool.false_ne_true]
    cases m.linkFails files destdir fromdir with
    | true => exact iff_of_true rfl rfl
    | false =>
      constructor
      · intro hEnd
        cases hEnd
      · intro hNo
        cases hNo

variable {destdir fromdir : Place}

theorem moveFile_linkFails {files : List Message} {m : Move}
    (hFails : m.linkFails files destdir fromdir = true) :
    moveFile files m destdir fromdir = files := by
  unfold Move.linkFails at hFails
  rw [Bool.and_eq_true, Bool.and_eq_true, Bool.not_eq_true',
    Bool.not_eq_true', decide_eq_true_iff] at hFails
  rcases hFails with ⟨⟨hOwn, hOther⟩, hLink⟩
  unfold moveFile
  rw [hOwn, if_neg Bool.false_ne_true, if_pos hOther, hLink, if_neg Bool.false_ne_true]

variable {a : Attempt} {s : Shelves}

/- Nothing is booked: there is no file, or no charge. -/
theorem book_none
    (hNone : s.sizefile = none ∨
      a.move.line destdir fromdir = none) : a.book s destdir fromdir = (true, s.sizefile) := by
  unfold Attempt.book
  rcases hNone with hFile | hLine
  · rw [hFile]
  · rw [hLine]
    cases s.sizefile with
    | none => rfl
    | some z => rfl

theorem book_some {z : Sizefile} {line : Int64 × Int32} (hFile : s.sizefile = some z)
    (hLine : a.move.line destdir fromdir = some line) :
    a.book s destdir fromdir = (if a.turnedDown s z destdir fromdir line then
        (false, some (docheckquota z s.files line a.recent a.recounts).2)
      else
        (true, some ((docheckquota z s.files line
          a.recent a.recounts).2.addquota line))) := by
  unfold Attempt.book Attempt.turnedDown
  rw [hFile, hLine]

/- Only a message that is added can be turned down. -/
theorem charge_of_book_false (hDown : (a.book s destdir fromdir).1 = false) :
    a.move.charge destdir fromdir = .added := by
  unfold Attempt.book at hDown
  split at hDown
  · simp only [] at hDown
    split at hDown
    · rename_i hBoth
      rw [Bool.and_eq_true, decide_eq_true_iff] at hBoth
      exact hBoth.1
    · cases hDown
  · cases hDown

/-
  The files are those of the move whose answers about the
  quota are the ones that are found here.
-/
theorem doMsgmove_files (hDest : xlateShmdir a.move.dest = some destdir)
    (hFrom : xlateShmdir a.move.source = some fromdir) (recorded : Int) :
    (a.doMsgmove s).2.files =
      (doMsgmove ⟨s.files, recorded⟩
        { a.move with
          room := (a.book s destdir fromdir).1 }).files := by
  unfold Attempt.doMsgmove doMsgmove bookQuota
  simp only [hDest, hFrom]
  rcases hBook : a.book s destdir fromdir with ⟨goes, sizefile⟩
  have hCharge : ({ a.move with room := goes } : Move).charge
      destdir fromdir = a.move.charge destdir fromdir := rfl
  rw [hCharge]
  cases goes with
  | false =>
    rw [charge_of_book_false (congrArg Prod.fst hBook)]
    rfl
  | true =>
    cases a.move.charge destdir fromdir with
    | none => rfl
    | deleted => rfl
    | added => rfl

------------
-- Moves That Fail
------------

section Moves

variable {a : Attempt} {s : Shelves} {destdir fromdir : Place}

/- A move that is booked, or not charged at all. -/
theorem unchanged_of_booked (hDest : xlateShmdir a.move.dest = some destdir)
    (hFrom : xlateShmdir a.move.source = some fromdir) {sizefile : Option Sizefile}
    (hBook : a.book s destdir fromdir = (true, sizefile)) :
    a.UnchangedOnError s ↔ (a.move.linkFails s.files destdir fromdir = true →
        sizefile.map Sizefile.sum = s.recorded) := by
  unfold Attempt.UnchangedOnError Attempt.doMsgmove
  rw [hDest, hFrom]
  simp only [hBook, moveEnding_error]
  constructor
  · intro hKept hFails
    exact (hKept hFails).2
  · intro hKept hFails
    exact ⟨moveFile_linkFails hFails, hKept hFails⟩

/- A move that is turned down. -/
theorem unchanged_of_turnedDown (hDest : xlateShmdir a.move.dest = some destdir)
    (hFrom : xlateShmdir a.move.source = some fromdir) {sizefile : Option Sizefile}
    (hBook : a.book s destdir fromdir = (false, sizefile)) :
    a.UnchangedOnError s ↔ sizefile.map Sizefile.sum = s.recorded := by
  unfold Attempt.UnchangedOnError Attempt.doMsgmove
  rw [hDest, hFrom]
  simp only [hBook]
  constructor
  · intro hKept
    exact (hKept trivial).2
  · intro hKept _
    exact ⟨trivial, hKept⟩

/- Folders that are not found end the program. -/
theorem unchanged_of_exits
    (hNone : xlateShmdir a.move.dest = none ∨
      xlateShmdir a.move.source = none) : a.UnchangedOnError s := by
  intro hEnd
  unfold Attempt.doMsgmove at hEnd
  rcases hNone with hDest | hFrom
  · rw [hDest] at hEnd
    cases hEnd
  · rw [hFrom] at hEnd
    cases hDest : xlateShmdir a.move.dest with
    | none =>
      rw [hDest] at hEnd
      cases hEnd
    | some destdir =>
      rw [hDest] at hEnd
      cases hEnd

/- What holds of all that is found holds of what is there. -/
theorem forall_found {α β : Type} {p : Option α} {q : Option β} {x : α} {y : β}
    (hLeft : p = some x) (hRight : q = some y) {holds : α → β → Prop} :
    (∀ u v, p = some u → q = some v → holds u v) ↔ holds x y := by
  constructor
  · intro hAll
    exact hAll x y hLeft hRight
  · intro hHere u v hU hV
    rw [hLeft] at hU
    rw [hRight] at hV
    cases hU
    cases hV
    exact hHere

/- With both folders, an error comes from one of two places. -/
theorem unchanged_iff (hDest : xlateShmdir a.move.dest = some destdir)
    (hFrom : xlateShmdir a.move.source = some fromdir) :
    a.UnchangedOnError s ↔ ∀ z line, s.sizefile = some z → a.move.line destdir fromdir = some line →
          if a.turnedDown s z destdir fromdir line then
            a.checkedSum s z line = z.sum
          else
            a.move.linkFails s.files destdir fromdir = true →
              addTotals (a.checkedSum s z line) (scanTotals (totalsText line)) = z.sum := by
  by_cases hNone : s.sizefile = none ∨ a.move.line destdir fromdir = none
  · rw [unchanged_of_booked hDest hFrom (book_none hNone)]
    apply iff_of_true
    · intro _
      rfl
    · intro z line hFile hLine
      rcases hNone with hNo | hNo
      · rw [hFile] at hNo
        cases hNo
      · rw [hLine] at hNo
        cases hNo
  · rw [not_or] at hNone
    rcases Option.ne_none_iff_exists'.mp hNone.1 with ⟨z, hFile⟩
    rcases Option.ne_none_iff_exists'.mp hNone.2 with ⟨line, hLine⟩
    have hBook := book_some hFile hLine
    have hRecorded : s.recorded = some z.sum := by
      unfold Shelves.recorded
      rw [hFile]
      rfl
    rw [forall_found hFile hLine]
    by_cases hDown : a.turnedDown s z destdir fromdir line = true
    · rw [if_pos hDown] at hBook ⊢
      rw [unchanged_of_turnedDown hDest hFrom hBook, hRecorded,
        Option.map_some, Option.some_inj, sum_checked]
    · rw [if_neg hDown] at hBook ⊢
      rw [unchanged_of_booked hDest hFrom hBook, hRecorded, Option.map_some, Option.some_inj,
        sum_addquota, sum_checked]

end Moves

/- When a move that fails leaves everything as it was. -/
theorem unchanged_on_error_iff (a : Attempt) (s : Shelves) :
    a.UnchangedOnError s ↔ a.Harmless s := by
  by_cases hNone : xlateShmdir a.move.dest = none ∨ xlateShmdir a.move.source = none
  · apply iff_of_true (unchanged_of_exits hNone)
    intro destdir fromdir z line hDest hFrom
    rcases hNone with hNo | hNo
    · rw [hDest] at hNo
      cases hNo
    · rw [hFrom] at hNo
      cases hNo
  · rw [not_or] at hNone
    rcases Option.ne_none_iff_exists'.mp hNone.1 with ⟨destdir, hDest⟩
    rcases Option.ne_none_iff_exists'.mp hNone.2 with ⟨fromdir, hFrom⟩
    rw [unchanged_iff hDest hFrom]
    constructor
    · intro hAll destdir' fromdir' z line hDest' hFrom'
      rw [hDest] at hDest'
      rw [hFrom] at hFrom'
      cases hDest'
      cases hFrom'
      exact hAll z line
    · intro hHarmless z line
      exact hHarmless destdir fromdir z line hDest hFrom

/- A line that counts a message changes the sums. -/
theorem addTotals_ne (q : Maildirquota) {line : Int64 × Int32}
    (hLeast : line.1 ≠ Int64.minValue) (hCounts : line.2 ≠ 0) :
    addTotals q (scanTotals (totalsText line)) ≠ q := by
  intro hSame
  rw [scanTotals_totalsText hLeast] at hSame
  have hMessages : q.nmessages + line.2 = q.nmessages := congrArg Maildirquota.nmessages hSame
  exact hCounts (Int32.add_eq_left.mp hMessages)

/- A link that fails behind a charge that was simply booked. -/
theorem not_unchanged_of_linkFails {a : Attempt} {s : Shelves} {destdir fromdir : Place}
    {z : Sizefile} {line : Int64 × Int32} (hDest : xlateShmdir a.move.dest = some destdir)
    (hFrom : xlateShmdir a.move.source = some fromdir) (hFile : s.sizefile = some z)
    (hLine : a.move.line destdir fromdir = some line)
    (hRoom : a.turnedDown s z destdir fromdir line = false)
    (hKept : z.recalculates line a.recent a.recounts = false)
    (hFails : a.move.linkFails s.files destdir fromdir = true)
    (hLeast : line.1 ≠ Int64.minValue) (hCounts : line.2 ≠ 0) : ¬ a.UnchangedOnError s := by
  intro hKeeps
  have hHere := (unchanged_iff hDest hFrom).mp hKeeps z line hFile hLine
  rw [if_neg (Bool.eq_false_iff.mp hRoom)] at hHere
  have hSum := hHere hFails
  rw [Attempt.checkedSum, if_neg (Bool.eq_false_iff.mp hKept)] at hSum
  exact addTotals_ne z.sum hLeast hCounts hSum

/- A message that is deleted, where the link to Trash fails. -/
def deletion : Attempt where
  move :=
    { source := bytes "INBOX"
      dest := bytes "Trash"
      file := ⟨.own (bytes "."), .cur, bytes "1,S=100:2,S", 100⟩
      stale := 0
      room := true
      recalculates := false
      created := []
      stored := false
      renamed := true
      underlying := none }
  recent := false
  recounts := true

/- The inbox with this message, and its quota file. -/
def inboxShelves : Shelves where
  files := [deletion.move.file]
  sizefile := some ⟨⟨1000, 0⟩, [(100, 1)]⟩

set_option maxRecDepth 8000 in
theorem not_unchanged_on_error : ¬ deletion.UnchangedOnError inboxShelves := by
  have hInfo := @openquotafile_ledgerText ⟨1000, 0⟩ [(100, 1)] (by
      intro line hMem
      rw [List.mem_singleton.mp hMem]
      decide)
    (by decide)
  have hKept : (Sizefile.mk ⟨1000, 0⟩ [(100, 1)]).recalculates (-100, -1) false true = false := by
    unfold Sizefile.recalculates Sizefile.text
    rw [hInfo]
    decide
  exact @not_unchanged_of_linkFails deletion inboxShelves
    (.own (bytes ".Trash")) (.own (bytes ".")) _ (-100, -1)
    (by decide) (by decide) rfl (by decide) (by decide) hKept
    (by decide) (by decide) (by decide)

end Wmail.Maildir
