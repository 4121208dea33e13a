import Wmail.Maildir.Deletion
import Wmail.Maildir.FailedMove
import Wmail.Maildir.Maildirpath
import Wmail.Maildir.Requota

/-
  Saving a message that was written (`maildir_closemsg`,
  sqwebmail/maildir.c), and the quota file (maildirquota.c).

  The new file is written to `tmp` before; its size is that of
  the file.  Whether maildirsize is younger than a quarter of
  an hour is a parameter.

  Key theorems include:
    * `Settled.docheckquotaOpen`
    * `Settled.add`
-/

namespace Wmail.Maildir

/- The files in `new` and `cur`, and maildirsize if any. -/
structure QuotaStore where
  files : List Message
  file : Option (List Byte)

/- The totals of all lines of the file. -/
def recordedTotals (file : List Byte) : Maildirquota :=
  match linesOf (file.takeWhile (· ≠ 0)) with
  | [] => noQuota
  | _ :: lines => (lines.map scanTotals).foldl addTotals noQuota

/- Whether there is room, and the handle and the file then. -/
structure Checked where
  room : Bool
  info : Maildirsize
  file : List Byte

/-
  `docheckquota`, with nobody else in the maildir, and with the
  handle that it leaves open.
-/
def docheckquotaOpen (files : List Message) (recent : Bool) (info : Maildirsize)
    (file : List Byte) (size : Int64) (cnt : Int32) : Checked :=
  if !info.recalculationNeeded && checkQuota (addTotals info.size (size, cnt)) info.quota then
    { room := true, info := info, file := file }
  else if !info.recalculationNeeded && info.nlines = 1 && recent then
    { room := false, info := info, file := file }
  else
    let new := counted files
    { room := checkQuota (addTotals new (size, cnt)) info.quota
      info :=
        { info with
          size := new
          recalculationNeeded := false
          nlines := 1 }
      file := doaddquota info.quota new.nbytes new.nmessages true }

/-
  `maildir_quota_add_start`: whether there is room, the handle
  if it is left open, and the file.
-/
def quotaAddStart (s : QuotaStore) (recent : Bool) (size : Int64) (cnt : Int32) :
    Bool × Option Maildirsize × Option (List Byte) :=
  match s.file with
  | none => (true, none, none)
  | some file =>
    let checked := docheckquotaOpen s.files recent (openquotafile file) file size cnt
    (checked.room,
      if checked.room then some checked.info else none,
      some checked.file)

/- `maildir_quota_add_end`; a closed handle adds nothing. -/
def quotaAddEnd (s : QuotaStore) (info : Option Maildirsize) (size : Int64) (cnt : Int32) :
    QuotaStore :=
  match info with
  | none => s
  | some info =>
    { s with
      file := s.file.map
        (· ++ doaddquota info.quota size cnt false) }

/- `maildir_quota_deleted`. -/
def quotaDeleted (s : QuotaStore) (recent : Bool) (size : Int64) (cnt : Int32) : QuotaStore :=
  { s with
    file := s.file.map fun file =>
      let checked := docheckquotaOpen s.files recent (openquotafile file) file size cnt
      checked.file ++ doaddquota checked.info.quota size cnt false }

/- `maildir_find`, for a folder that is not shared. -/
def maildirFind (files : List Message) (dir filename : List Byte) : Option Message :=
  let entries := files.filter fun (msg : Message) => msg.place = .own dir && msg.sub = .cur
  if Maildirpath.refusesFile filename then
    none
  else
    match entries.find? fun msg => msg.name = filename with
    | some msg => some msg
    | none =>
      entries.find? fun msg => Maildirpath.sameFilename filename msg.name

/-
  A call, with the size of the file in `tmp`.  The quota file
  is opened at most twice, with its age each time.
-/
structure Save where
  retname : List Byte
  isok : Int
  prevsize : UInt64
  stSize : Int64
  recent : Bool
  recentAgain : Bool

/- `stat_buf.st_size-prevsize`, as a `long`. -/
def Save.difference (c : Save) : Int64 :=
  (c.stSize.toUInt64 - c.prevsize).toInt64

/- `prevsize == 0 ? 1:0`. -/
def Save.messages (c : Save) : Int32 :=
  if c.prevsize = 0 then 1 else 0

/- The name in `cur`, with the size in it. -/
def Save.saved (c : Save) (dir : List Byte) (found : Option Message) : Message where
  place := .own dir
  sub := .cur
  name := requotaLoop (sizeText c.stSize.toUInt64) (match found with
    | some msg => msg.name
    | none => c.retname ++ bytes ":2,S")
  size := c.stSize

/-
  The part that tells the quota: `isok` afterwards, and the
  quota file.
-/
def Save.tellQuota (c : Save) (s : QuotaStore) : Int × QuotaStore :=
  if c.isok = 0 then
    (0, s)
  else if c.prevsize < c.stSize.toUInt64 then
    let start := quotaAddStart s c.recent c.difference c.messages
    let s' := { s with file := start.2.2 }
    let booked :=
      if start.1 then
        (c.isok, s')
      else if c.isok < 0 then
        -- it is forced
        (-2, quotaDeleted s' c.recentAgain c.difference c.messages)
      else
        (0, s')
    (booked.1, quotaAddEnd booked.2 start.2.1 c.difference c.messages)
  else if c.prevsize ≠ c.stSize.toUInt64 then
    (c.isok, quotaDeleted s c.recent c.difference c.messages)
  else
    (c.isok, s)

/-
  `maildir_closemsg`: what it returns, and what is there then.
  A file at the path of the new one is replaced.
-/
def maildirClosemsg (s : QuotaStore) (dir : List Byte) (c : Save) : Int × QuotaStore :=
  let found := maildirFind s.files dir c.retname
  let (isok, told) := c.tellQuota s
  let saved := c.saved dir found
  let others := match found with
    | some msg => told.files.erase msg
    | none => told.files
  (if isok ≠ 0 ∧ isok ≠ -2 then 0 else -1,
    if isok ≠ 0 then
      { told with
        files := others.filter (!·.samePath saved) ++ [saved] }
    else
      told)

/-
  The file was written line by line, and its lines sum up to
  what is counted.  The least number is the only one that is
  not read back.
-/
structure Settled (files : List Message) (file : List Byte) (lines : List (Int64 × Int32)) :
    Prop where
  written : ∃ quota, file = ledgerText quota lines
  read : ∀ line, line ∈ lines → line.1 ≠ Int64.minValue
  total : lines.foldl addTotals noQuota = counted files
  usable : (counted files).nbytes ≠ Int64.minValue

variable {lines : List (Int64 × Int32)}

theorem recordedTotals_ledgerText (quota : Maildirquota)
    (hRead : ∀ line, line ∈ lines → line.1 ≠ Int64.minValue) :
    recordedTotals (ledgerText quota lines) = lines.foldl addTotals noQuota := by
  unfold recordedTotals
  rw [ledgerText_lines]
  simp only []
  rw [map_scanTotals hRead]

variable {files : List Message}

theorem Settled.recorded {file : List Byte} (hSettled : Settled files file lines) :
    recordedTotals file = counted files := by
  rcases hSettled.written with ⟨quota, hFile⟩
  rw [hFile, recordedTotals_ledgerText quota hSettled.read, hSettled.total]

/- A recount leaves the totals as they are. -/
theorem Settled.docheckquotaOpen {file : List Byte} (hSettled : Settled files file lines)
    (recent : Bool) (info : Maildirsize) (size : Int64) (cnt : Int32) :
    ∃ lines', Settled files (docheckquotaOpen files recent info file size cnt).file
      lines' := by
  unfold Maildir.docheckquotaOpen
  split
  · exact ⟨lines, hSettled⟩
  · split
    · exact ⟨lines, hSettled⟩
    · refine ⟨[((counted files).nbytes, (counted files).nmessages)], ?_⟩
      constructor
      · exact ⟨info.quota, recalculated_file _ _ _⟩
      · rw [List.forall_mem_singleton]
        exact hSettled.usable
      · rw [List.foldl_cons, List.foldl_nil]
        unfold addTotals noQuota
        simp
      · exact hSettled.usable

/- One more line is one more summand. -/
theorem Settled.add {file : List Byte} (hSettled : Settled files file lines)
    (quota : Maildirquota) {size : Int64} (hSize : size ≠ Int64.minValue) (cnt : Int32) :
    recordedTotals (file ++ doaddquota quota size cnt false) =
      addTotals (counted files) (size, cnt) := by
  rcases hSettled.written with ⟨header, hFile⟩
  have hAll : ∀ line, line ∈ lines ++ [(size, cnt)] → line.1 ≠ Int64.minValue := by
    intro line hMem
    rcases List.mem_append.mp hMem with hOld | hNew
    · exact hSettled.read line hOld
    · rw [List.mem_singleton.mp hNew]
      exact hSize
  rw [doaddquota_false, hFile, ← ledgerText_append, recordedTotals_ledgerText header hAll,
    List.foldl_append, hSettled.total]
  rfl

end Wmail.Maildir
