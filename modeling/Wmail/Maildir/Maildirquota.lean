import Wmail.Core.Decimal
import Wmail.Core.Lines

/-
  The quota file of a maildir (maildirquota.c, strofft.c).

  `off_t` and `long` have 64 bits, `int` has 32.  The file is
  the list of its bytes.

  Key definitions include:
    * `strOffT`
-/

namespace Wmail.Maildir

/-
  The loop of `libmail_str_off_t`, in a buffer of the given
  room.  The quotient and the remainder are those of C.
-/
def offTDigits : Nat → Int → List Byte
  | 0, _ => []
  | room + 1, t =>
    (if t.tdiv 10 = 0 then [] else offTDigits room (t.tdiv 10)) ++
      [UInt8.ofNat (48 + t.tmod 10).toNat]

def numbufsize : Nat :=
  60

/- `libmail_str_off_t`. -/
def strOffT (t : Int64) : List Byte :=
  if t < 0 then
    chr '-' :: offTDigits (numbufsize - 1) (-t).toInt
  else
    offTDigits (numbufsize - 1) t.toInt

/- `libmail_str_size_t`. -/
def strSizeT (t : Nat) : List Byte :=
  offTDigits (numbufsize - 1) t

/- `%8s` and `%4s`. -/
def padLeft (width : Nat) (text : List Byte) : List Byte :=
  List.replicate (width - text.length) (chr ' ') ++ text

/- `struct maildirquota`. -/
structure Maildirquota where
  nbytes : Int64
  nmessages : Int32
deriving DecidableEq

def noQuota : Maildirquota where
  nbytes := 0
  nmessages := 0

/- `struct maildirsize`, what was read of the file. -/
structure Maildirsize where
  quota : Maildirquota
  size : Maildirquota
  recalculationNeeded : Bool
  nlines : Nat
deriving DecidableEq

/-
  The loop of `parsequotastr`, with the number that has been
  read up to here.
-/
def parsequotaLoop (q : Maildirquota) : Option Int64 → List Byte → Maildirquota
  | _, [] => q
  | num, b :: rest =>
    if isdigit b then
      parsequotaLoop q (some (num.getD 0 * 10 + Int64.ofNat (b.toNat - 48))) rest
    else
      match num with
      | none => parsequotaLoop q none rest
      | some i =>
        if b = chr 'S' then
          parsequotaLoop { q with nbytes := i } none rest
        else if b = chr 'C' then
          parsequotaLoop { q with nmessages := i.toInt32 } none rest
        else
          parsequotaLoop q none rest

/- `parsequotastr`. -/
def parsequotastr (quota : List Byte) : Maildirquota :=
  parsequotaLoop noQuota none quota

/- `%ld`; a number out of range becomes the nearest one. -/
def longOf (n : Int) : Int64 :=
  Int64.ofInt (max (-2 ^ 63) (min (2 ^ 63 - 1) n))

/- A number that is a `long` is that `long`. -/
theorem longOf_eq_ofInt {n : Int} (hLow : -2 ^ 63 ≤ n) (hHigh : n < 2 ^ 63) :
    longOf n = Int64.ofInt n := by
  have hClamp : max (-2 ^ 63) (min (2 ^ 63 - 1) n) = n := by omega
  unfold longOf
  rw [hClamp]

/- `sscanf(q, "%ld %d", &n, &c)`. -/
def scanTotals (line : List Byte) : Int64 × Int32 :=
  match scanInt line with
  | none => (0, 0)
  | some (n, rest) =>
    match scanInt rest with
    | none => (longOf n, 0)
    | some (c, _) => (longOf n, (longOf c).toInt32)

/- One more line is added to the totals. -/
def addTotals (size : Maildirquota) (line : Int64 × Int32) : Maildirquota where
  nbytes := size.nbytes + line.1
  nmessages := size.nmessages + line.2

/- `do_maildir_openquotafile`, without a new quota. -/
def openquotafile (file : List Byte) : Maildirsize :=
  if 5120 ≤ file.length then
    -- the file is too big, only its quota is read
    let buf := (file.take 5119).takeWhile (· ≠ 0)
    { quota := parsequotastr (buf.takeWhile (· ≠ nl))
      size := noQuota
      recalculationNeeded := true
      nlines := 0 }
  else
    match linesOf (file.takeWhile (· ≠ 0)) with
    | [] =>
      { quota := noQuota
        size := noQuota
        recalculationNeeded := false
        nlines := 0 }
    | first :: lines =>
      { quota := parsequotastr first
        size := (lines.map scanTotals).foldl addTotals noQuota
        recalculationNeeded := false
        nlines := lines.length }

/- The first line of a new file. -/
def quotaHeader (quota : Maildirquota) : List Byte :=
  (if 0 < quota.nbytes then
    strOffT quota.nbytes ++ bytes "S"
  else
    []) ++
    ((if 0 < quota.nmessages then
      (if 0 < quota.nbytes then bytes "," else []) ++
        (strSizeT quota.nmessages.toInt.toNat ++ bytes "C")
    else
      []) ++ [nl])

/- What `doaddquota` writes. -/
def doaddquota (quota : Maildirquota) (size : Int64) (cnt : Int32) (isnew : Bool) : List Byte :=
  (if isnew then quotaHeader quota else []) ++
    (padLeft 8 (strOffT size) ++ bytes " " ++ (padLeft 4 (strOffT cnt.toInt64) ++ [nl]))

/- `checkOneQuota`, whether it finds room. -/
def checkOneQuota (size quota : Int64) : Bool :=
  quota = 0 || size ≤ quota

/- `checkQuota`. -/
def checkQuota (size quota : Maildirquota) : Bool :=
  checkOneQuota size.nbytes quota.nbytes &&
    checkOneQuota size.nmessages.toInt64 quota.nmessages.toInt64

/-
  The file, what each process read when it opened it, and
  all that was added.
-/
structure Ledger where
  file : List Byte
  info : Nat → Option Maildirsize
  appended : List (Int64 × Int32)

/- A recalculated file. -/
def Ledger.recalculated (quota : Maildirquota) (size : Int64) (cnt : Int32) : Ledger where
  file := doaddquota quota size cnt true
  info := fun _ => none
  appended := []

/-
  What a process does.  `maildir_quota_add_end` adds and
  closes, `maildir_quota_deleted` opens, checks, adds and
  closes.
-/
inductive Event where
  | openquotafile (pid : Nat)
  | checkquota (pid : Nat) (size : Int64) (cnt : Int32)
      (recent : Bool)
  | addquota (pid : Nat) (size : Int64) (cnt : Int32)
  | closequotafile (pid : Nat)
deriving DecidableEq

def Ledger.setInfo (s : Ledger) (pid : Nat) (info : Option Maildirsize) : Ledger :=
  { s with info := fun p => if p = pid then info else s.info p }

/-
  `docheckquota` leaves the file alone: there is room, or the
  file was recalculated a short time ago.
-/
def keepsFile (info : Maildirsize) (size : Int64) (cnt : Int32) (recent : Bool) : Bool :=
  !info.recalculationNeeded && (checkQuota (addTotals info.size (size, cnt)) info.quota ||
      (info.nlines = 1 && recent))

/-
  One step of a process.  A check that recalculates the file
  is no step.
-/
def Ledger.step (s : Ledger) : Event → Option Ledger
  | .openquotafile pid => some (s.setInfo pid (some (Maildir.openquotafile s.file)))
  | .checkquota pid size cnt recent =>
    match s.info pid with
    | none => some s
    | some info => if keepsFile info size cnt recent then some s else none
  | .addquota pid size cnt =>
    match s.info pid with
    | none => some s
    | some info =>
      some
        { s with
          file := s.file ++ doaddquota info.quota size cnt false
          appended := s.appended ++ [(size, cnt)] }
  | .closequotafile pid => some (s.setInfo pid none)

/- A run of all the processes together. -/
def Ledger.run (s : Ledger) (events : List Event) : Option Ledger :=
  events.foldlM Ledger.step s

end Wmail.Maildir
