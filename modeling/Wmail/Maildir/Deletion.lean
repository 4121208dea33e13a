import Wmail.Maildir.MoveUsage
import Mathlib.Algebra.Group.Prod

/-
  Deleting messages (sqwebmail/maildir.c), and what the quota
  file is told of it.

  The messages are the files in `new` and `cur`.  The totals
  of the quota file are those of its lines; whether a check of
  the quota counts anew is a parameter.

  Key theorems include:
    * `afterLines_last`
    * `foldl_purge`
-/

namespace Wmail.Maildir

/- The files, and the totals of maildirsize if there is one. -/
structure Folders where
  files : List Message
  recorded : Option (Int × Int)

/- `countfolder` and `countfile` count the file. -/
def Message.quotaCounts (msg : Message) : Bool :=
  msg.place.counts && countfile msg.name

/- The bytes and the number that a file counts for. -/
def Message.tally (msg : Message) : Int × Int :=
  if msg.quotaCounts then (msg.countedSize.toInt, 1) else 0

def tallies (files : List Message) : Int × Int :=
  (files.map Message.tally).sum

/- What a recount finds. -/
def recount (files : List Message) : Int × Int :=
  (usage files, files.countP Message.counts)

/- A line of maildirsize, as it is read again. -/
def readTotals (line : Int64 × Int32) : Int × Int :=
  ((scanTotals (totalsText line)).1.toInt, (scanTotals (totalsText line)).2.toInt)

/-
  `maildir_quota_deleted`.  The check before the line may
  count anew.
-/
def Folders.quotaDeleted (s : Folders) (recounts : Bool) (line : Int64 × Int32) : Folders :=
  { s with
    recorded := s.recorded.map fun totals =>
      (if recounts then recount s.files else totals) + readTotals line }

/-
  The totals change by those of the files that are not there
  any more.
-/
def Exact (s s' : Folders) : Prop :=
  s'.recorded = s.recorded.map (· + (tallies s'.files - tallies s.files))

instance (s s' : Folders) : Decidable (Exact s s') :=
  inferInstanceAs (Decidable (_ = _))

def INBOX : List Byte := bytes "INBOX"
def DRAFTS : List Byte := bytes "Drafts"
def SENT : List Byte := bytes "Sent"
def TRASH : List Byte := bytes "Trash"
def SPAM : List Byte := bytes "Spam"

/- `xlate_mdir`; without a result the program ends. -/
def xlateMdir (foldername : List Byte) : Option (List Byte) :=
  if foldername.contains (chr ':') then none else folderdir foldername

/- The quota is told of a file, where `d` is its folder. -/
def tells (d : List Byte) (file : Message) : Bool :=
  countfolder d && countfile file.name && file.countedSize ≠ 0

/- The file is unlinked, after the quota has been told. -/
def Folders.purge (s : Folders) (recounts : Message → Bool) (d : List Byte)
    (file : Message) : Folders :=
  let told :=
    if tells d file then s.quotaDeleted (recounts file) (-file.countedSize, -1) else s
  { told with files := told.files.erase file }

/- The file is found in the folder. -/
def Folders.Finds (s : Folders) (folder : List Byte) (file : Message) : Prop :=
  file ∈ s.files ∧ xlateShmdir folder = some file.place

instance (s : Folders) (folder : List Byte) (file : Message) : Decidable (s.Finds folder file) :=
  inferInstanceAs (Decidable (_ ∧ _))

/- `maildir_msgpurge`, of a file that is found. -/
def maildirMsgpurge (s : Folders) (folder : List Byte) (file : Message) : Folders :=
  if s.Finds folder file then { s with files := s.files.erase file } else s

/- `maildir_msgpurgefile`, of a file that is found. -/
def maildirMsgpurgefile (s : Folders) (recounts : Message → Bool) (folder : List Byte)
    (file : Message) : Folders :=
  if s.Finds folder file then
    match file.place with
    | .shared _ => { s with files := s.files.erase file }
    | .own d => s.purge recounts d file
  else
    s

/- The files of Trash that `maildir_autopurge` unlinks. -/
def purgedOf (files : List Message) (old : Message → Bool) (dir : List Byte) : List Message :=
  files.filter fun file =>
    file.place = .own dir && file.sub = .cur && file.name.head? ≠ some (chr '.') && old file

/- `maildir_autopurge`; `old` says which files are. -/
def maildirAutopurge (s : Folders) (recounts old : Message → Bool) : Folders :=
  match xlateMdir TRASH with
  | none => s
  | some dir =>
    (purgedOf s.files old dir).foldl
      (fun s file => s.purge recounts (dir ++ bytes "/cur") file)
      s

/- `maildir_deleteall`. -/
def maildirDeleteall (s : Folders) (foldername : List Byte) : Folders :=
  if foldername ≠ TRASH ∧ foldername ≠ SPAM then
    s
  else
    match xlateMdir foldername with
    | none => s
    | some dir =>
      { s with
        files := s.files.filter fun file => !(file.place = .own dir && file.sub = .cur) }

/-
  `maildir_delete`, with its contents.  A file in the
  directory itself goes, too; maildirsize is one in `.`.
-/
def maildirDelete (s : Folders) (foldername : List Byte) : Folders :=
  if foldername = INBOX ∨ foldername = SENT ∨
      foldername = TRASH ∨ foldername = DRAFTS ∨ foldername = SPAM then
    s
  else
    match xlateMdir foldername with
    | none => s
    | some dir =>
      { files := s.files.filter fun file =>
          !(file.place = .own dir)
        recorded :=
          if dir = bytes "." then none else s.recorded }

/- One of the five, and what it is called with. -/
inductive Deletion where
  | msgpurge (folder : List Byte) (file : Message)
  | msgpurgefile (folder : List Byte) (file : Message)
  | autopurge (old : Message → Bool)
  | deleteall (foldername : List Byte)
  | delete (foldername : List Byte)

def Deletion.apply (s : Folders) (recounts : Message → Bool) : Deletion → Folders
  | .msgpurge folder file => maildirMsgpurge s folder file
  | .msgpurgefile folder file => maildirMsgpurgefile s recounts folder file
  | .autopurge old => maildirAutopurge s recounts old
  | .deleteall foldername => maildirDeleteall s foldername
  | .delete foldername => maildirDelete s foldername

theorem tally_eq_zero_iff (file : Message) : file.tally = 0 ↔ file.quotaCounts = false := by
  unfold Message.tally
  cases file.quotaCounts with
  | false => exact iff_of_true rfl rfl
  | true =>
    constructor
    · intro hZero
      have hCount := congrArg Prod.snd hZero
      cases hCount
    · intro hNo
      cases hNo

variable {file : Message}

theorem quotaCounts_of_place (hPlace : file.place.counts = false) : file.quotaCounts = false := by
  unfold Message.quotaCounts
  rw [hPlace, Bool.false_and]

variable {files : List Message}

theorem tallies_erase (hMem : file ∈ files) :
    tallies (files.erase file) = tallies files - file.tally := by
  unfold tallies
  rw [eq_sub_iff_add_eq', List.sum_map_erase Message.tally hMem]

/- The second part of the tallies is a number of files. -/
theorem tallies_snd (files : List Message) :
    (tallies files).2 = files.countP Message.quotaCounts := by
  unfold tallies
  induction files with
  | nil => rfl
  | cons file files ih =>
    rw [List.map_cons, List.sum_cons, Prod.snd_add, ih, List.countP_cons]
    unfold Message.tally
    cases file.quotaCounts with
    | false => simp
    | true => simp [Int.add_comm]

/- Files may go unnoticed exactly if none of them is counted. -/
theorem tallies_filter_iff (files : List Message) (p : Message → Bool) :
    tallies (files.filter p) = tallies files ↔
      ∀ file, file ∈ files → p file = false → file.quotaCounts = false := by
  constructor
  · intro hSame file hMem hGone
    have hCount := congrArg Prod.snd hSame
    rw [tallies_snd, tallies_snd, Int.natCast_inj, List.countP_eq_length_filter,
      List.countP_eq_length_filter, List.filter_comm, List.length_filter_eq_length_iff]
      at hCount
    by_contra hCounts
    rw [Bool.not_eq_false] at hCounts
    have hKept := hCount file (List.mem_filter.mpr ⟨hMem, hCounts⟩)
    rw [hGone] at hKept
    cases hKept
  · intro hNone
    unfold tallies
    induction files with
    | nil => rfl
    | cons file files ih =>
      have hRest := ih fun other hMem => hNone other (List.mem_cons_of_mem file hMem)
      cases hKeep : p file with
      | true =>
        rw [List.filter_cons_of_pos hKeep, List.map_cons, List.map_cons, List.sum_cons,
          List.sum_cons, hRest]
      | false =>
        have hZero := (tally_eq_zero_iff file).mpr (hNone file List.mem_cons_self hKeep)
        rw [List.filter_cons_of_neg (Bool.eq_false_iff.mp hKeep), List.map_cons,
          List.sum_cons, hZero, zero_add, hRest]

/- Without a line the totals have to be the same. -/
theorem exact_iff_of_recorded {s : Folders} {totals : Int × Int} (s' : Folders)
    (hRecorded : s.recorded = some totals) (hSame : s'.recorded = s.recorded) :
    Exact s s' ↔ tallies s'.files = tallies s.files := by
  unfold Exact
  rw [hSame, hRecorded, Option.map_some, Option.some.injEq, left_eq_add, sub_eq_zero]

theorem exact_files_iff {s : Folders} {totals : Int × Int}
    (hRecorded : s.recorded = some totals) (files : List Message) :
    Exact s { s with files := files } ↔ tallies files = tallies s.files :=
  exact_iff_of_recorded { s with files := files } hRecorded rfl

/-
  What the line of a file takes off.  A line of the least size
  is not read.
-/
def Message.taken (file : Message) : Int × Int :=
  if file.countedSize = Int64.minValue then 0 else (file.countedSize.toInt, 1)

theorem readTotals_least : readTotals (-Int64.minValue, -1) = 0 := by
  decide

theorem readTotals_deleted (file : Message) : readTotals (-file.countedSize, -1) = -file.taken := by
  unfold Message.taken
  by_cases hLeast : file.countedSize = Int64.minValue
  · rw [if_pos hLeast, hLeast, readTotals_least, neg_zero]
  · have hNeg : -file.countedSize ≠ Int64.minValue := by
      intro hEq
      apply hLeast
      rw [← @Int64.neg_neg file.countedSize, hEq]
      rfl
    have hInt : (-file.countedSize).toInt = -file.countedSize.toInt := by
      have hLow := file.countedSize.le_toInt
      have hHigh := file.countedSize.toInt_lt
      have hNot : file.countedSize.toInt ≠ -2 ^ 63 := by
        intro hEq
        apply hLeast
        rw [← Int64.toInt_inj, hEq]
        rfl
      rw [Int64.toInt_neg, Int.bmod_eq_of_le (by omega) (by omega)]
    rw [if_neg hLeast]
    unfold readTotals
    rw [scanTotals_totalsText hNeg]
    simp only [hInt]
    rfl

theorem purge_files (s : Folders) (recounts : Message → Bool) (d : List Byte)
    (file : Message) : (s.purge recounts d file).files = s.files.erase file := by
  unfold Folders.purge Folders.quotaDeleted
  split <;> rfl

theorem purge_recorded (s : Folders) (recounts : Message → Bool) (d : List Byte)
    (file : Message) :
    (s.purge recounts d file).recorded =
      if tells d file then
        s.recorded.map fun totals =>
          (if recounts file then recount s.files else totals) - file.taken
      else
        s.recorded := by
  unfold Folders.purge Folders.quotaDeleted
  rw [readTotals_deleted]
  split <;> rfl

/- The totals after the lines of these files. -/
def afterLines (recounts : Message → Bool) (found : Int × Int) :
    List Message → Int × Int → Int × Int
  | [], totals => totals
  | file :: files, totals =>
    afterLines recounts found files ((if recounts file then found else totals) - file.taken)

def takenOf (files : List Message) : Int × Int :=
  (files.map Message.taken).sum

section Lines

variable {recounts : Message → Bool} {found totals : Int × Int}

theorem afterLines_none {files : List Message}
    (hNone : ∀ file, file ∈ files → recounts file = false) :
    afterLines recounts found files totals = totals - takenOf files := by
  induction files generalizing totals with
  | nil => exact (sub_zero totals).symm
  | cons file files ih =>
    rw [afterLines, hNone file List.mem_cons_self, if_neg Bool.false_ne_true, ih fun other hMem =>
        hNone other (List.mem_cons_of_mem file hMem)]
    unfold takenOf
    rw [List.map_cons, List.sum_cons, sub_sub]

/- The last recount decides. -/
theorem afterLines_last {front back : List Message} {file : Message}
    (hRecounts : recounts file = true) (hBack : ∀ other, other ∈ back → recounts other = false) :
    afterLines recounts found (front ++ file :: back) totals = found - takenOf (file :: back) := by
  induction front generalizing totals with
  | nil =>
    rw [List.nil_append, afterLines, hRecounts, if_pos rfl, afterLines_none hBack]
    unfold takenOf
    rw [List.map_cons, List.sum_cons, sub_sub]
  | cons first front ih => rw [List.cons_append, afterLines, ih]

theorem exists_last_recount (recounts : Message → Bool) (files : List Message) :
    (∀ file, file ∈ files → recounts file = false) ∨
      ∃ front file back, files = front ++ file :: back ∧ recounts file = true ∧
          ∀ other, other ∈ back → recounts other = false := by
  induction files with
  | nil => exact Or.inl nofun
  | cons first files ih =>
    rcases ih with hNone | ⟨front, file, back, rfl, hLast⟩
    · cases hFirst : recounts first with
      | true => exact Or.inr ⟨[], first, files, rfl, hFirst, hNone⟩
      | false =>
        left
        intro file hMem
        rcases List.mem_cons.mp hMem with rfl | hMore
        · exact hFirst
        · exact hNone file hMore
    · exact Or.inr ⟨first :: front, file, back, rfl, hLast⟩

/- Nothing is taken off exactly by lines that are not read. -/
theorem takenOf_eq_zero_iff (files : List Message) : takenOf files = 0 ↔
      ∀ file, file ∈ files → file.countedSize = Int64.minValue := by
  have hCount : (takenOf files).2 = files.countP (·.countedSize ≠ Int64.minValue) := by
    unfold takenOf
    induction files with
    | nil => rfl
    | cons file files ih =>
      rw [List.map_cons, List.sum_cons, Prod.snd_add, ih, List.countP_cons]
      unfold Message.taken
      by_cases hLeast : file.countedSize = Int64.minValue
      · simp [hLeast]
      · simp [hLeast, Int.add_comm]
  constructor
  · intro hZero
    rw [hZero, Prod.snd_zero] at hCount
    have hNone := List.countP_eq_zero.mp (Int.natCast_eq_zero.mp hCount.symm)
    intro file hMem
    by_contra hOther
    exact hNone file hMem (decide_eq_true hOther)
  · intro hLeast
    unfold takenOf
    apply List.sum_eq_zero
    intro taken hMem
    rcases List.mem_map.mp hMem with ⟨file, hFile, rfl⟩
    unfold Message.taken
    rw [if_pos (hLeast file hFile)]

end Lines

theorem recount_erase (hCounts : file.counts = false) :
    recount (files.erase file) = recount files := by
  by_cases hMem : file ∈ files
  · have hZero := weight_of_not_counts hCounts
    have hCount := (List.perm_cons_erase hMem).countP_eq Message.counts
    rw [List.countP_cons_of_neg (Bool.eq_false_iff.mp hCounts)] at hCount
    unfold recount
    rw [usage_erase hMem, hZero, Int.sub_zero, hCount]
  · rw [List.erase_of_not_mem hMem]

theorem tallies_erase_uncounted (hCounts : file.quotaCounts = false) :
    tallies (files.erase file) = tallies files := by
  by_cases hMem : file ∈ files
  · rw [tallies_erase hMem, (tally_eq_zero_iff file).mpr hCounts, sub_zero]
  · rw [List.erase_of_not_mem hMem]

/- Files that are not counted are purged one by one. -/
theorem foldl_purge {recounts : Message → Bool} {d : List Byte} {purged : List Message}
    {s : Folders}
    (hPlace : ∀ file, file ∈ purged → file.place.counts = false) :
    let s' := purged.foldl (fun s file => s.purge recounts d file) s
    tallies s'.files = tallies s.files ∧ s'.recorded = s.recorded.map
        (afterLines recounts (recount s.files) (purged.filter (tells d))) := by
  induction purged generalizing s with
  | nil =>
    refine ⟨rfl, ?_⟩
    exact (Option.map_id_fun' ▸ rfl)
  | cons file purged ih =>
    have hHere := hPlace file List.mem_cons_self
    have hRest := ih (s := s.purge recounts d file) fun other hMem =>
        hPlace other (List.mem_cons_of_mem file hMem)
    rw [purge_files, recount_erase (counts_of_place hHere),
      tallies_erase_uncounted (quotaCounts_of_place hHere), purge_recorded] at hRest
    rw [List.foldl_cons]
    refine ⟨hRest.1, ?_⟩
    rw [hRest.2]
    cases hTells : tells d file with
    | true =>
      rw [List.filter_cons_of_pos hTells, if_pos rfl, Option.map_map]
      rfl
    | false =>
      rw [List.filter_cons_of_neg (Bool.eq_false_iff.mp hTells), if_neg Bool.false_ne_true]

end Wmail.Maildir
