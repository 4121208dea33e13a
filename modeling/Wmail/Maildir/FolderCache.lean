import Wmail.Maildir.FlagEdits
import Wmail.Maildir.Maildirpath
import Wmail.Rfc822.Address
import Wmail.Rfc822.ParseDate
import Wmail.Rfc822.Rfc2047
import Wmail.Rfc822.Subject
import Wmail.Core.Ranking
import Mathlib.Data.List.Lex

/-
  The cache of a folder (sqwebmail/maildir.c): a database with
  a summary of each message, in the order in which they are
  shown, and with the place of each message.

  What `localtime` and `strftime` make of a time and what the
  floating-point unit makes of a size are parameters, and so
  is `qsort`.

  Key definitions include:
    * `maildirNgetinfo`
-/

namespace Wmail.Maildir

open Rfc822

/- `MSGINFO`. -/
structure MsgInfo where
  filename : List Byte
  date_s : List Byte
  from_s : List Byte
  subject_s : List Byte
  size_s : List Byte
  date_n : Int64
  size_n : UInt64
  mi_mtime : Int64
  mi_ino : UInt64
deriving DecidableEq

/- The text of a time, and a size in tenths of a megabyte. -/
structure Shown where
  displaydate : Int64 → List Byte
  tenths : UInt64 → UInt64

/- A file that can be opened, with its `struct stat`. -/
structure FileData where
  contents : List Byte
  st_mtime : Int64
  st_ino : UInt64
  st_size : Int64

/- An `unsigned long` as `%lu` and `cat_n` write it. -/
def ulText (n : UInt64) : List Byte :=
  decimalDigits 20 n.toNat

/- `showsize`. -/
def showsize (shown : Shown) (n : UInt64) : List Byte :=
  if n < 1024 then
    bytes "0." ++ ulText (10 * n / 1024) ++ bytes "K"
  else if n < 1024 * 1024 then
    ulText ((n + 512) / 1024) ++ bytes "K"
  else
    let nm := shown.tenths n
    ulText (nm / 10) ++ bytes "." ++ ulText (nm % 10) ++ bytes "M"

/-
  The loop of `maildir_readheader`, from a byte of a header on:
  the header with its continuation lines, and what is left.
-/
def unfoldHeader : List Byte → List Byte × List Byte
  | [] => ([], [])
  | c :: rest =>
    if c ≠ nl then
      let (buf, more) := unfoldHeader rest
      (c :: buf, more)
    else
      match rest with
      | [] => ([], [])
      | d :: _ =>
        if d = nl ∨ isspace d = false then
          ([], rest)
        else
          let (buf, more) := unfoldHeader rest
          (32 :: buf, more)

/- `maildir_readheader` without `preserve_nl`. -/
def maildirReadheader (fp : List Byte) : Option (List Byte × List Byte × List Byte) :=
  if fp.head?.all (· = nl) then
    none
  else
    let (buf, rest) := unfoldHeader fp
    let buf := buf.takeWhile (· ≠ 0)
    let header := buf.takeWhile (· ≠ chr ':')
    some (header.map tolower, (buf.drop (header.length + 1)).dropWhile isspace, rest)

/- What `maildir_ngetinfo` has found in the headers. -/
structure Headings where
  subject : Option (List Byte)
  date : Option Int64
  fromheader : Option (List Byte)

/- The name of the first address, or the text. -/
def senderOf (val : List Byte) : List Byte :=
  let addrs := parseaddr (tokenize val)
  (match addrs.head? with
    | some a => rfc822Getname a
    | none => val) ++ if 1 < addrs.length then bytes "..." else []

/- One header. -/
def Headings.heading (isSent : Bool) (s : Headings) (hdr val : List Byte) : Headings where
  subject := if hdr = bytes "subject" then some val else s.subject
  date :=
    if hdr = bytes "date" ∧ s.date = none ∧ rfc822Parsedt val ≠ 0 then
      some (Int64.ofInt (rfc822Parsedt val))
    else
      s.date
  fromheader :=
    if (if isSent then hdr = bytes "to" ∨ hdr = bytes "cc" else hdr = bytes "from") ∧
        s.fromheader = none then
      some (senderOf val)
    else
      s.fromheader

/-
  The loop over the headers, which stops when all three are
  known.  A `fuel` of the length of the file is enough.
-/
def headingsLoop (isSent : Bool) : Nat → List Byte → Headings → Headings
  | 0, _, s => s
  | fuel + 1, fp, s =>
    match maildirReadheader fp with
    | none => s
    | some (hdr, val, rest) =>
      let s := s.heading isSent hdr val
      if s.date.isSome && s.fromheader.isSome && s.subject.isSome then
        s
      else
        headingsLoop isSent fuel rest s

/- A message in the `cur` of this folder. -/
def inFolder (folder filename : List Byte) : Bool :=
  let up := (dirPart filename).dropLast
  (folder.length + 6 ≤ up.length &&
    (up.drop (up.length - (folder.length + 6))).take (folder.length + 3) =
      bytes "/." ++ folder ++ bytes "/") ||
    (bytes "." ++ folder ++ bytes "/").isPrefixOf filename

/- `maildir_ngetinfo`. -/
def maildirNgetinfo (shown : Shown) (disk : List Byte → Option FileData)
    (filename : List Byte) : Option MsgInfo :=
  (disk filename).map fun file =>
    let isSent := inFolder (bytes "Sent") filename || inFolder (bytes "Drafts") filename
    let s := headingsLoop isSent file.contents.length file.contents ⟨none, none, none⟩
    let date_n := s.date.getD file.st_mtime
    { filename := basePart filename
      date_s := shown.displaydate date_n
      from_s := s.fromheader.getD []
      subject_s := s.subject.getD []
      size_s := showsize shown file.st_size.toUInt64
      date_n := date_n
      size_n := file.st_size.toUInt64
      mi_mtime := file.st_mtime
      mi_ino := file.st_ino }

/- `pref_flagsortorder`. -/
inductive SortOrder where
  | date
  | sender
  | subject
deriving DecidableEq

def SortOrder.flag : SortOrder → Byte
  | .date => chr 'D'
  | .sender => chr 'F'
  | .subject => chr 'S'

structure SortPrefs where
  flagisoldest1st : Bool
  flagsortorder : SortOrder

/- The sign of `strcasecmp`. -/
def strcasecmp (a b : List Byte) : Int :=
  compareKeys (a.map fun c => (tolower c).toNat) (b.map fun c => (tolower c).toNat)

/- `subjectcmp`. -/
def subjectcmp (a b : List Byte) : Int :=
  let as := rfc822Coresubj a
  let bs := rfc822Coresubj b
  let n := strcasecmp (rfc2047DecodeSimple as.1) (rfc2047DecodeSimple bs.1)
  if n ≠ 0 then n else (as.2.toNat : Int) - bs.2.toNat

/- The second half of `messagecmp`. -/
def datecmp (p : SortPrefs) (a b : MsgInfo) : Int :=
  let gt := if p.flagisoldest1st then -1 else 1
  let lt := if p.flagisoldest1st then 1 else -1
  if a.date_n < b.date_n then gt
  else if b.date_n < a.date_n then lt
  else if a.mi_ino < b.mi_ino then gt
  else if b.mi_ino < a.mi_ino then lt
  else 0

/- `messagecmp`. -/
def messagecmp (p : SortPrefs) (a b : MsgInfo) : Int :=
  match p.flagsortorder with
  | .sender =>
    let n := strcasecmp a.from_s b.from_s
    if n ≠ 0 then n else datecmp p a b
  | .subject =>
    let n := subjectcmp a.subject_s b.subject_s
    if n ≠ 0 then n else datecmp p a b
  | .date => datecmp p a b

/- `qsort` on an array of messages. -/
structure SortMessages where
  sort : (MsgInfo → MsgInfo → Int) → List MsgInfo → List MsgInfo
  perm : ∀ cmp ms, (sort cmp ms).Perm ms
  sorts : ∀ cmp ms, StrictWeak cmp ms → (sort cmp ms).Pairwise fun a b => cmp a b ≤ 0

------------
-- The Database
------------

/- What is stored under a key. -/
abbrev Cache :=
  List Byte → Option (List Byte)

/- `dbobj_store` with `R`. -/
def Cache.store (db : Cache) (key value : List Byte) : Cache := fun other =>
  if other = key then some value else db other

/- `REC%lu`. -/
def recKey (n : UInt64) : List Byte :=
  bytes "REC" ++ ulText n

/- What a name is before its flags. -/
def stem (filename : List Byte) : List Byte :=
  filename.takeWhile (· ≠ chr ':')

def fileKey (filename : List Byte) : List Byte :=
  bytes "FILE" ++ stem filename

/- The lines of a record. -/
def recordLines (m : MsgInfo) : List (List Byte) :=
  [bytes "FILENAME=" ++ m.filename, bytes "FROM=" ++ m.from_s,
    bytes "SUBJECT=" ++ m.subject_s, bytes "SIZES=" ++ m.size_s,
    bytes "DATE=" ++ ulText m.date_n.toUInt64, bytes "SIZEN=" ++ ulText m.size_n,
    bytes "TIME=" ++ ulText m.mi_mtime.toUInt64, bytes "INODE=" ++ ulText m.mi_ino]

def recordText (m : MsgInfo) : List Byte :=
  (recordLines m).flatMap (· ++ [nl])

/- `put_msginfo`. -/
def putMsginfo (db : Cache) (m : MsgInfo) (n : UInt64) : Cache :=
  db.store (recKey n) (recordText m)

/- `tmpdb`, `save_cnt` and `savenew_cnt`. -/
structure Saving where
  tmpdb : Cache
  cnt : UInt64
  newCnt : UInt64

/- `maildir_saveinfo`. -/
def maildirSaveinfo (s : Saving) (m : MsgInfo) : Saving where
  tmpdb := (putMsginfo s.tmpdb m s.cnt).store (fileKey m.filename) (ulText s.cnt)
  cnt := s.cnt + 1
  newCnt := if maildirfileType m.filename = MSGTYPE_NEW then s.newCnt + 1 else s.newCnt

/- `maildir_save_end`. -/
def maildirSaveEnd (p : SortPrefs) (saveTime : Int64) (s : Saving) : Cache :=
  s.tmpdb.store (bytes "HEADER")
    ([bytes "SAVETIME=" ++ ulText saveTime.toUInt64, bytes "COUNT=" ++ ulText s.cnt,
        bytes "NEWCOUNT=" ++ ulText s.newCnt, bytes "SORT=" ++
          [if p.flagisoldest1st then chr '1' else chr '0', p.flagsortorder.flag]].flatMap
      (· ++ [nl]))

def curPath (maildir name : List Byte) : List Byte :=
  maildir ++ bytes "/cur/" ++ name

/-
  `createmdcache`.  The messages are read into a list from its
  front.
-/
def createmdcache (shown : Shown) (qsort : SortMessages) (p : SortPrefs) (saveTime : Int64)
    (maildir : List Byte) (disk : List Byte → Option FileData) (dirp : List (List Byte)) : Cache :=
  let infos := (dirp.filter fun d_name => d_name.head? ≠ some (chr '.')).filterMap
    fun d_name => maildirNgetinfo shown disk (curPath maildir d_name)
  maildirSaveEnd p saveTime
    ((qsort.sort (messagecmp p) infos.reverse).foldl maildirSaveinfo ⟨fun _ => none, 0, 0⟩)

/- `parse_ul`; numbers wrap around. -/
def parseUl (p : List Byte) : Option (UInt64 × List Byte) :=
  let digits := (p.dropWhile isspace).takeWhile isdigit
  if digits = [] then
    none
  else
    some (UInt64.ofNat (decimalValue digits), (p.dropWhile isspace).dropWhile isdigit)

/- The lines that `strtok` finds. -/
def strtokLines (text : List Byte) : List (List Byte) :=
  (linesOf text).filter (· ≠ [])

/- `COUNT` and the others in a header, as `opencache` reads them. -/
structure CacheHeader where
  cachemtime : UInt64
  all_cnt : UInt64
  new_cnt : UInt64
  isoldestfirst : UInt64
  sortorder : Byte

def CacheHeader.line (h : CacheHeader) (p : List Byte) : CacheHeader :=
  match cutAt (chr '=') p with
  | none => h
  | some (key, r) =>
    if key = bytes "SAVETIME" then
      { h with cachemtime := ((parseUl r).map Prod.fst).getD h.cachemtime }
    else if key = bytes "COUNT" then
      { h with all_cnt := ((parseUl r).map Prod.fst).getD 0 }
    else if key = bytes "NEWCOUNT" then
      { h with new_cnt := ((parseUl r).map Prod.fst).getD 0 }
    else if key = bytes "SORT" then
      (parseUl r).elim h fun found =>
        { h with isoldestfirst := found.1, sortorder := found.2.head?.getD 0 }
    else
      h

/- `opencache`. -/
def opencache (db : Cache) : Option CacheHeader :=
  (db (bytes "HEADER")).map fun q => (strtokLines q).foldl CacheHeader.line ⟨0, 0, 0, 0, 0⟩

/- A number in a record. -/
def MsgInfo.number (shown : Shown) (m : MsgInfo) (key : List Byte) (ul : UInt64) : MsgInfo :=
  if key = bytes "DATE" then
    { m with date_n := ul.toInt64, date_s := shown.displaydate ul.toInt64 }
  else if key = bytes "SIZEN" then { m with size_n := ul }
  else if key = bytes "TIME" then { m with mi_mtime := ul.toInt64 }
  else if key = bytes "INODE" then { m with mi_ino := ul }
  else m

/- A line of a record, as `get_msginfo` reads it. -/
def MsgInfo.line (shown : Shown) (m : MsgInfo) (p : List Byte) : MsgInfo :=
  match cutAt (chr '=') p with
  | none => m
  | some (key, q) =>
    if key = bytes "FILENAME" then { m with filename := q }
    else if key = bytes "FROM" then { m with from_s := q }
    else if key = bytes "SUBJECT" then { m with subject_s := q }
    else if key = bytes "SIZES" then { m with size_s := q }
    else (parseUl q).elim m fun found => m.number shown key found.1

/- `get_msginfo`. -/
def getMsginfo (shown : Shown) (db : Cache) (n : UInt64) : Option MsgInfo :=
  (db (recKey n)).map fun buf =>
    (strtokLines buf).foldl (MsgInfo.line shown) ⟨[], [], [], [], [], 0, 0, 0, 0⟩

/- `maildir_name2pos`, in the cache that the reload has left. -/
def maildirName2pos (db : Cache) (filename : List Byte) : Option UInt64 :=
  (db (fileKey filename)).map fun q => UInt64.ofNat (decimalValue (q.filter isdigit))

/- A folder: the paths of its files, and its cache. -/
structure CachedFolder where
  files : List (List Byte)
  cache : Cache

/- What `maildir_filename` sees of it. -/
def CachedFolder.directories (s : CachedFolder) : Maildirpath.Directories where
  stat := s.files.contains
  readdir dir := some ((s.files.filter fun f => dirPart f = dir ++ [chr '/']).map basePart)

/- `maildir_find`. -/
def CachedFolder.find (s : CachedFolder) (maildir filename : List Byte) : Option (List Byte) :=
  (Maildirpath.maildirFilename s.directories (some maildir) none filename).filter s.files.contains

/- `rename`. -/
def renameFile (old new : List Byte) (files : List (List Byte)) : List (List Byte) :=
  if old = new then files
  else (files.filter (· ≠ new)).map fun f => if f = old then new else f

/-
  `maildir_markread`.  Without a record the program ends.  A
  name is read up to a byte behind its end.
-/
def maildirMarkread (shown : Shown) (past : Byte) (maildir : List Byte) (s : CachedFolder)
    (pos : UInt64) : CachedFolder :=
  match getMsginfo shown s.cache pos with
  | none => s
  | some p =>
    match s.find maildir p.filename with
    | none => s
    | some filename =>
      match maildirAddflagfilename past filename (chr 'S') with
      | none => s
      | some newFilename =>
        { files := renameFile filename newFilename s.files
          cache := putMsginfo s.cache { p with filename := basePart newFilename } pos }

end Wmail.Maildir
