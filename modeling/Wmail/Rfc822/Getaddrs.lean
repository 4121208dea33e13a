import Wmail.Rfc822.Address

/-
  A list of addresses as text in lines (rfc822_getaddrs.c).

  A pointer into the buffer is an index.

  Key definitions include:
    * `rfc822PrintSep`
-/

namespace Wmail.Rfc822

/- `rfc822_print`, with what `print_separator` prints. -/
def rfc822PrintSep (separator : List Byte → List Byte) : List Addr → List Byte
  | [] => []
  | [a] => printAddr a
  | a :: next :: rest =>
    printAddr a ++ (separator (printSeparator a next) ++ rfc822PrintSep separator (next :: rest))

/- A separator that is printed as it is. -/
theorem rfc822Print_eq (addrs : List Addr) : rfc822Print addrs = rfc822PrintSep id addrs := by
  induction addrs with
  | nil => rfl
  | cons a rest ih =>
    cases rest with
    | nil => rfl
    | cons next rest => rw [rfc822Print, rfc822PrintSep, ih, id_eq]

/- `saveaddrsep_wrap`: a blank is saved as a newline. -/
def saveaddrsepWrap (separator : List Byte) : List Byte :=
  separator.map fun c => if c = chr ' ' then nl else c

/-
  The loop of `rfc822_getaddrs_wrap`: a line starts at
  `start`, and the newline at `lastnl` is a blank again when
  what follows it still fits in `w` bytes.  A round leaves a
  newline behind or gives `lastnl` up, so a `fuel` of twice
  the length of the buffer is enough.
-/
def wrapLoop (w : Nat) : Nat → List Byte → Nat → Option Nat → Nat → List Byte
  | 0, addrbuf, _, _, _ => addrbuf
  | fuel + 1, addrbuf, start, lastnl, ptr =>
    if ptr < addrbuf.length then
      let ptr := ptr + ((addrbuf.drop ptr).takeWhile (· ≠ nl)).length
      let next :=
        if ptr < addrbuf.length then ptr + 1 else ptr
      if ptr < w + start then
        match lastnl with
        | some last => wrapLoop w fuel (addrbuf.set last (chr ' ')) start (some ptr) next
        | none => wrapLoop w fuel addrbuf start (some ptr) next
      else
        match lastnl with
        | some last => wrapLoop w fuel addrbuf (last + 1) none ptr
        | none => wrapLoop w fuel addrbuf (ptr + 1) none next
    else
      addrbuf

/- `rfc822_getaddrs_wrap`. -/
def rfc822GetaddrsWrap (addrs : List Addr) (w : Nat) : List Byte :=
  let addrbuf := rfc822PrintSep saveaddrsepWrap addrs
  wrapLoop w (2 * addrbuf.length) addrbuf 0 none 0

end Wmail.Rfc822
