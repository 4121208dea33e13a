import Mathlib.Algebra.Group.Int.Defs
import Mathlib.Algebra.Group.Nat.Defs
import Mathlib.Data.List.Basic

/-
  Bytes and the C library's character functions.

  A C `char` is a byte, and a C string or buffer is the list
  of its bytes.  The character functions follow the `C`
  locale.

  Key definitions include:
    * `Byte`
-/

namespace Wmail

/- One C `char`, taken as an unsigned byte. -/
abbrev Byte :=
  UInt8

/- The byte of an ASCII character. -/
abbrev chr (c : Char) : Byte :=
  c.toUInt8

/- The bytes of an ASCII string. -/
def bytes (s : String) : List Byte :=
  s.toList.map Char.toUInt8

/- The bytes of a string that is given by its characters. -/
theorem bytes_ofList (l : List Char) : bytes (String.ofList l) = l.map Char.toUInt8 := by
  unfold bytes
  rw [String.toList_ofList]

/- The newline byte. -/
abbrev nl : Byte :=
  chr '\n'

/- The carriage return byte. -/
abbrev cr : Byte :=
  chr '\r'

/-
  Prove a property of every byte from its 256 instances.
-/
theorem byte_forall {P : Byte → Prop} (hAll : ∀ n : Nat, n < 256 → P (UInt8.ofNat n)) :
    ∀ b : Byte, P b := by
  intro b
  have hInstance := hAll b.toNat b.toNat_lt
  rwa [UInt8.ofNat_toNat] at hInstance

/- `isspace`: blank, or one of `\t \n \v \f \r`. -/
def isspace (b : Byte) : Bool :=
  b = 32 || (9 ≤ b && b ≤ 13)

/- `iscntrl`: below the blank, or the delete character. -/
def iscntrl (b : Byte) : Bool :=
  b < 32 || b = 127

/- `tolower` of an upper-case ASCII letter. -/
def tolower (b : Byte) : Byte :=
  if 65 ≤ b && b ≤ 90 then b + 32 else b

theorem tolower_tolower (c : Byte) : tolower (tolower c) = tolower c := by
  revert c
  apply byte_forall
  decide +kernel

/- `toupper` of a lower-case ASCII letter. -/
def toupper (b : Byte) : Byte :=
  if 97 ≤ b && b ≤ 122 then b - 32 else b

/- `isalnum`: an ASCII letter or digit. -/
def isalnum (b : Byte) : Bool :=
  (48 ≤ b && b ≤ 57) || (65 ≤ b && b ≤ 90) ||
    (97 ≤ b && b ≤ 122)

/-
  `strncasecmp(p, s, strlen(p)) == 0`: the text `s` begins
  with `p` when case is ignored.
-/
def casePrefix (p s : List Byte) : Bool :=
  (p.map tolower).isPrefixOf (s.map tolower)

end Wmail
