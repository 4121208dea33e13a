import Mathlib.Algebra.GroupWithZero.Nat
import Wmail.Core.Bytes

/-
  Parsing of dates (rfc822_parsedt.c).

  Key definitions include:
    * `parsedig`
-/

namespace Wmail.Rfc822

/- `isdigit`. -/
def isdigit (b : Byte) : Bool :=
  48 ≤ b && b ≤ 57

/- `isalpha`: an ASCII letter. -/
def isalpha (b : Byte) : Bool :=
  (65 ≤ b && b ≤ 90) || (97 ≤ b && b ≤ 122)

/- `parsedig`, in 32-bit unsigned arithmetic. -/
def parsedig (p : List Byte) : Nat × List Byte :=
  ((p.takeWhile isdigit).foldl
      (fun i c => (i * 10 + (c.toNat - 48)) % 2 ^ 32) 0,
    p.dropWhile isdigit)

def mnames : List (List Byte) :=
  ["Jan", "Feb", "Mar", "Apr", "May", "Jun", "Jul", "Aug", "Sep", "Oct", "Nov", "Dec"].map bytes

def zonenames : List (List Byte) :=
  ["UT", "GMT", "EST", "EDT", "CST", "CDT", "MST", "MDT",
    "PST", "PDT", "Z", "A", "B", "C", "D", "E", "F", "G",
    "H", "I", "K", "L", "M", "N", "O", "P", "Q", "R", "S",
    "T", "U", "V", "W", "X", "Y"].map bytes

/- The hours of `zoneoffset`, in the order of `zonenames`. -/
def zonehours : List Int :=
  [0, 0, -5, -4, -6, -5, -7, -6, -8, -7, 0,
    -1, -2, -3, -4, -5, -6, -7, -8, -9, -10, -11, -12,
    1, 2, 3, 4, 5, 6, 7, 8, 9, 10, 11, 12]

/-
  `parsekey`: the number of the first name that the text
  begins with, counted from 1, and the text behind it.
-/
def parsekeyFrom : Nat → List (List Byte) → List Byte → Nat × List Byte
  | _, [], p => (0, p)
  | m, name :: names, p =>
    if casePrefix name p then (m + 1, p.drop name.length) else parsekeyFrom (m + 1) names p

def parsekey (ary : List (List Byte)) (p : List Byte) : Nat × List Byte :=
  parsekeyFrom 0 ary p

def leap (y : Nat) : Bool :=
  y % 400 = 0 || (y % 4 = 0 && y % 100 ≠ 0)

def mlength : List Nat :=
  [31, 28, 31, 30, 31, 30, 31, 31, 30, 31, 30, 31]

def mdays (m y : Nat) : Nat :=
  if m ≠ 2 then
    mlength.getD (m - 1) 0
  else if leap y then
    29
  else
    28

/-
  The first loop of `rfc822_parsedt`: day and month in any
  order.
-/
def parseDaymon : Nat → Nat → Nat → List Byte → Option (Nat × Nat × List Byte)
  | 0, _, _, _ => none
  | fuel + 1, day, mon, p =>
    if day ≠ 0 ∧ mon ≠ 0 then
      some (day, mon, p)
    else
      match p with
      | [] => none
      | c :: rest =>
        if isalpha c then
          if mon ≠ 0 then
            none
          else
            let key := parsekey mnames p
            if key.1 = 0 then
              parseDaymon fuel day 0 (p.dropWhile isalpha)
            else
              parseDaymon fuel day key.1 key.2
        else if isdigit c then
          if day ≠ 0 then
            none
          else
            let dig := parsedig p
            if dig.1 = 0 then none else parseDaymon fuel dig.1 mon dig.2
        else
          parseDaymon fuel day mon rest

/- The text after a colon that has a digit behind it. -/
def afterColon : List Byte → Option (List Byte)
  | c :: d :: rest => if c = chr ':' ∧ isdigit d then some (d :: rest) else none
  | _ => none

/- `parsetime`: the seconds, or `none` for -1. -/
def parsetime (t : List Byte) : Option (Nat × List Byte) :=
  if (t.head?.map isdigit).getD false then
    let h := parsedig t
    if h.1 > 23 then
      none
    else
      match afterColon h.2 with
      | none => none
      | some t =>
        let m := parsedig t
        let s :=
          if m.2.head? = some (chr ':') then (afterColon m.2).map parsedig else some (0, m.2)
        match s with
        | none => none
        | some s =>
          if m.1 > 59 ∨ s.1 > 59 then none else some (h.1 * 60 * 60 + m.1 * 60 + s.1, s.2)
  else
    none

/- The zone offset in seconds. -/
def parsezone (p : List Byte) : Int :=
  let p := p.dropWhile fun c => !(isalnum c || c = chr '+' || c = chr '-')
  match p with
  | [] => 0
  | c :: rest =>
    if isalpha c then
      let n := (parsekey zonenames p).1
      if n > 0 then zonehours.getD (n - 1) 0 * 60 * 60 else 0
    else
      let sign : Int := if c = chr '-' then -1 else 1
      let p := if c = chr '-' ∨ c = chr '+' then rest else p
      if (p.head?.map isdigit).getD false then
        let n := (parsedig p).1
        let n := if n > 2359 ∨ n % 100 > 59 then 0 else n
        sign * ((n % 100) * 60 + n / 100 * 60 * 60 : Nat)
      else
        0

/- The years from `y` up to `year`, four at a time. -/
def yearSeconds (year : Nat) : Nat → Nat → Nat
  | 0, _ => 0
  | fuel + 1, y =>
    if y < year then
      if leap y then
        if year - y ≥ 4 then
          (365 * 3 + 366) * 24 * 60 * 60 + yearSeconds year fuel (y + 4)
        else
          24 * 60 * 60 + 365 * 24 * 60 * 60 + yearSeconds year fuel (y + 1)
      else
        365 * 24 * 60 * 60 + yearSeconds year fuel (y + 1)
    else
      0

/- The months before `mon`. -/
def monthSeconds (year mon : Nat) : Nat :=
  ((List.range (mon - 1)).map
    fun y => mdays (y + 1) year * 24 * 60 * 60).sum

/- `rfc822_parsedt`: the time, or 0. -/
def rfc822Parsedt (rfcdt : List Byte) : Int :=
  match parseDaymon (rfcdt.length + 1) 0 0 rfcdt with
  | none => 0
  | some (day, mon, p) =>
    let p := p.dropWhile isspace
    if (p.head?.map isdigit).getD false then
      let dig := parsedig p
      let year := if dig.1 < 70 then dig.1 + 2000 else dig.1
      let year := if year < 100 then year + 1900 else year
      let p := dig.2.dropWhile isspace
      if day = 0 ∨ mon = 0 ∨ mon > 12 ∨ day > mdays mon year then
        0
      else
        match parsetime p with
        | none => 0
        | some (secs, p) =>
          let offset := parsezone p
          if year < 1970 ∨ year > 9999 then
            0
          else
            (yearSeconds year year 1970 +
                monthSeconds year mon +
                (day - 1) * 24 * 60 * 60 + secs : Nat) -
              offset
    else
      0

example : rfc822Parsedt (bytes "Tue, 25 Feb 1997 10:00:00 -0500 (EST)") = 856882800 := by
  decide

end Wmail.Rfc822
