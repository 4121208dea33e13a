import Wmail.Maildir.QuotaLedger

/-
  Moving a message to another folder (sqwebmail/maildir.c),
  and which messages the quota counts (maildirquota.c,
  maildirparsequota.c, maildirpath.c).

  TRASHQUOTA is undefined.  The webmail runs in the maildir,
  so that is the directory `.`.

  Key definitions include:
    * `countfolder`, `countfile`, `parsequota`
-/

namespace Wmail.Maildir

/- Where a folder is: a directory, or a shared folder. -/
inductive Place where
  | own (dir : List Byte)
  | shared (name : List Byte)
deriving DecidableEq

/- No period at the end, and none behind a period. -/
def periodsFine : List Byte → Bool
  | [] => true
  | c :: rest => !(c = chr '.' && (rest = [] || rest.head? = some (chr '.'))) && periodsFine rest

/- `maildir_folderdir(0, foldername)`. -/
def folderdir (foldername : List Byte) : Option (List Byte) :=
  if foldername.map tolower = bytes "inbox" then
    some (bytes ".")
  else if foldername.head? = some (chr '.') ∨ foldername.contains (chr '/') then
    none
  else if periodsFine foldername then
    some (chr '.' :: foldername)
  else
    none

/- `xlate_shmdir`; without a result the program ends. -/
def xlateShmdir (foldername : List Byte) : Option Place :=
  if foldername.head? = some (chr ':') then
    some (.shared (foldername.drop 1))
  else if foldername.contains (chr ':') then
    none
  else
    (folderdir foldername).map .own

def isTrash (folder : List Byte) : Bool :=
  folder = bytes ".Trash" || folder = bytes ".Trash/"

/- `maildirquota_countfolder`: the loop over the slashes. -/
def noTrashBehindSlash : List Byte → Bool
  | [] => true
  | c :: rest => !(c = chr '/' && isTrash rest) && noTrashBehindSlash rest

/- `maildirquota_countfolder`. -/
def countfolder (folder : List Byte) : Bool :=
  !isTrash folder && noTrashBehindSlash folder

/- The folder is not shared, and it is counted. -/
def Place.counts : Place → Bool
  | .own dir => countfolder dir
  | .shared _ => false

def Place.isShared : Place → Bool
  | .own _ => false
  | .shared _ => true

def isupper (b : Byte) : Bool :=
  65 ≤ b && b ≤ 90

def isalpha (b : Byte) : Bool :=
  isupper b || (97 ≤ b && b ≤ 122)

/- `maildirquota_countfile`, for a name without directory. -/
def countfile : List Byte → Bool
  | [] => true
  | c :: rest =>
    if c = chr ':' ∧ (bytes "2,").isPrefixOf rest then
      !((rest.drop 2).takeWhile isupper).contains (chr 'T')
    else
      countfile rest

/- What stands behind the last `,S=`. -/
def behindSize : List Byte → Option (List Byte)
  | [] => none
  | c :: rest =>
    match behindSize rest with
    | some found => some found
    | none =>
      if c = chr ',' ∧ (bytes "S=").isPrefixOf rest then some (rest.drop 2) else none

/-
  `maildir_parsequota`, for a name without directory.  The
  number has 64 bits; the callers take it as an `off_t`.
-/
def parsequota (name : List Byte) : Option Int64 :=
  (behindSize (name.takeWhile (· ≠ chr ':'))).map fun text =>
    Int64.ofNat (decimalValue (text.takeWhile isdigit))

/- What becomes of a file that gets a flag. -/
inductive Marked where
  | already
  | renamed (name : List Byte)
  | outside
deriving DecidableEq

/-
  A flag is put before the first character not below it.  The
  loop that makes room for it stops at the last character
  that equals this one.
-/
def insertFlag (flag : Byte) : List Byte → List Byte
  | [] => [flag]
  | c :: rest =>
    -- a `char` is signed
    if 128 ≤ c ∨ c < flag then
      c :: insertFlag flag rest
    else
      let behind :=
        ((c :: rest).reverse.takeWhile (· ≠ c)).reverse
      flag :: (rest.take (rest.length - behind.length) ++ (c :: behind))

/-
  `maildir_addflagfilename`.  When neither character behind
  the colon is right, the new path is not in `cur` any more.
-/
def addflagname (flag : Byte) (name : List Byte) : Marked :=
  match name.dropWhile (· ≠ chr ':') with
  | [] => .renamed (name ++ bytes ":2" ++ insertFlag flag (bytes ","))
  | c :: info =>
    if info[0]? ≠ some (chr '2') ∧ info[1]? ≠ some (chr ',') then
      .outside
    else if (c :: info).contains flag then
      .already
    else
      .renamed (name.takeWhile (· ≠ chr ':') ++
        (c :: (info.take 1 ++ insertFlag flag (info.drop 1))))

/- The flag is dropped where the letters contain it. -/
def dropFlag (flag : Byte) : List Byte → List Byte
  | [] => []
  | c :: rest =>
    if !isalpha c then
      c :: rest
    else if c = flag then
      rest
    else
      c :: dropFlag flag rest

/- `maildir_remflagname`. -/
def remflagname (flag : Byte) (name : List Byte) : List Byte :=
  match name.dropWhile (· ≠ chr ':') with
  | [] => name
  | c :: info =>
    if info[0]? ≠ some (chr '2') ∧ info[1]? ≠ some (chr ',') then
      name
    else
      name.takeWhile (· ≠ chr ':') ++ (c :: (info.take 2 ++ dropFlag flag (info.drop 2)))

inductive Sub where
  | new
  | cur
deriving DecidableEq

/- A file in a folder, with its `st_size`. -/
structure Message where
  place : Place
  sub : Sub
  name : List Byte
  size : Int64
deriving DecidableEq

/- The size that `docount` takes for a file. -/
def Message.countedSize (msg : Message) : Int64 :=
  (parsequota msg.name).getD msg.size

/- `docount` counts the file. -/
def Message.counts (msg : Message) : Bool :=
  msg.place.counts && msg.name.head? ≠ some (chr '.') && countfile msg.name

def Message.weight (msg : Message) : Int :=
  if msg.counts then msg.countedSize.toInt else 0

/- All the files, and the sum of the lines of maildirsize. -/
structure Store where
  files : List Message
  recorded : Int

/- The total size of the files that are counted. -/
def usage (files : List Message) : Int :=
  (files.map Message.weight).sum

/-
  `maildir_addquota`: a line is added, as it is read again.
  The check before it may recalculate the file.
-/
def Store.addquota (s : Store) (recalculates : Bool) (size : Int64) (cnt : Int32) : Store :=
  { s with
    recorded :=
      (if recalculates then usage s.files else s.recorded) +
        (scanTotals (totalsText (size, cnt))).1.toInt }

/-
  A move, and what the system answers: the size in a buffer
  that is not filled, whether the quota has room or is
  recalculated, the name of a copy, whether the link or copy
  and the renaming succeed, and what removing the message
  under a link gives.
-/
structure Move where
  source : List Byte
  dest : List Byte
  file : Message
  stale : Int64
  room : Bool
  recalculates : Bool
  created : List Byte
  stored : Bool
  renamed : Bool
  underlying : Option Bool

/- What is done to the quota. -/
inductive Charge where
  | none
  | deleted
  | added
deriving DecidableEq

/- How `do_msgmove` charges the quota. -/
def Move.charge (m : Move) (destdir fromdir : Place) : Charge :=
  if m.source = m.dest then
    .none
  else if !destdir.counts && countfile m.file.name then
    if fromdir.isShared then .none else .deleted
  else if destdir.counts && !fromdir.counts then
    .added
  else
    .none

/- The size that is charged. -/
def Move.filesize (m : Move) : Int64 :=
  (parsequota m.file.name).getD m.stale

/- The quota part of `do_msgmove`; no room ends the move. -/
def bookQuota (s : Store) (m : Move) (destdir fromdir : Place) : Option Store :=
  match m.charge destdir fromdir with
  | .none => some s
  | .deleted => some (s.addquota m.recalculates (-m.filesize) (-1))
  | .added =>
    if m.room then some (s.addquota m.recalculates m.filesize 1) else none

/- Two files have the same path. -/
def Message.samePath (msg other : Message) : Bool :=
  msg.place = other.place && msg.sub = other.sub && msg.name = other.name

/- The renaming that marks a message with a `T`. -/
def markTrashed (files : List Message) (m : Move) : List Message :=
  match addflagname (chr 'T') m.file.name with
  | .already => files
  | .outside => if m.renamed then files.erase m.file else files
  | .renamed name =>
    let msg := { m.file with name := name }
    if m.renamed then (files.erase m.file).filter (!·.samePath msg) ++ [msg] else files

/- The file of a copy. -/
def Move.copy (m : Move) (destdir : Place) : Message where
  place := destdir
  sub := if destdir.isShared then .cur else .new
  name := m.created
  size := m.file.size

/- The file of a link. -/
def Move.link (m : Move) (destdir : Place) : Message where
  place := destdir
  sub := .cur
  name := remflagname (chr 'T') m.file.name
  size := m.file.size

/- The part of `do_msgmove` that moves the file. -/
def moveFile (files : List Message) (m : Move) (destdir fromdir : Place) : List Message :=
  if destdir.isShared || fromdir.isShared then
    if !m.stored then
      files
    else if fromdir.isShared && m.underlying = some false && m.dest = bytes "Trash" then
      -- it is not our message
      files
    else
      markTrashed (files ++ [m.copy destdir]) m
  else if m.source ≠ m.dest then
    if m.stored && !files.any (·.samePath (m.link destdir)) then
      markTrashed (files ++ [m.link destdir]) m
    else
      files
  else
    markTrashed files m

/- `do_msgmove`. -/
def doMsgmove (s : Store) (m : Move) : Store :=
  match xlateShmdir m.dest, xlateShmdir m.source with
  | some destdir, some fromdir =>
    match bookQuota s m destdir fromdir with
    | none => s
    | some booked =>
      { booked with
        files := moveFile booked.files m destdir fromdir }
  | _, _ => s

/- `maildir_msgmove`, of a message that is found. -/
def msgmove (s : Store) (m : Move) : Store :=
  if m.file ∈ s.files ∧ xlateShmdir m.source = some m.file.place then doMsgmove s m else s

end Wmail.Maildir
