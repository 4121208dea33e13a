import Wmail.Core.Bytes

/-
  Modified UTF-7, as IMAP folder names have it.

  A C string is the list of its bytes, and a string of code
  points the list of these.  Bits are collected in natural
  numbers: no collected value comes near the width of a word.

  Key definitions include:
    * `uctomodutf7x`
-/

namespace Wmail.Unicode

/- `unicode_char`. -/
abbrev UnicodeChar :=
  UInt32

/- `mbase64`. -/
def mbase64 : List Byte :=
  bytes "ABCDEFGHIJKLMNOPQRSTUVWXYZabcdefghijklmnopqrstuvwxyz0123456789+,"

/- `mbase64[bits]`. -/
def mbase64Char (bits : Nat) : Byte :=
  mbase64.getD bits 0

/- `mbase64_lookup`, where `none` is for `-1`. -/
def mbase64Lookup (b : Byte) : Option Nat :=
  mbase64.idxOf? b

/- `is_special`. -/
def isSpecial (specials : List UnicodeChar) (uc : UnicodeChar) : Bool :=
  specials.contains uc || uc < 0x20 || 0x7F ≤ uc

/- The bits that do not fill a character yet. -/
structure Pending where
  bits : Nat
  bitcount : Nat
  bitcount_lt : bitcount < 6

/- No bits. -/
def Pending.none : Pending :=
  ⟨0, 0, Nat.succ_pos 5⟩

/-
  The loop over the bits of one 16-bit unit.  The `counter`
  bits that are left are the highest ones of `uu`.
-/
def processBits (uu counter : Nat) (p : Pending) : List Byte × Pending :=
  if counter = 0 then
    ([], p)
  else if hFew : counter + p.bitcount < 6 then
    ([], ⟨(p.bits <<< counter) ||| (uu >>> (16 - counter)), p.bitcount + counter, by omega⟩)
  else
    let x := 6 - p.bitcount
    let more := processBits ((uu <<< x) &&& 0xFFFF) (counter - x) Pending.none
    (mbase64Char ((p.bits <<< x) ||| (uu >>> (16 - x))) :: more.1, more.2)
termination_by counter
decreasing_by
  have hPending := p.bitcount_lt
  omega

/- The unit of one code point. -/
def unitOf (uc : UnicodeChar) : Nat :=
  if uc.toNat &&& 0xFFFF = 0 then 0xFFFD else uc.toNat &&& 0xFFFF

/- The inner loop, and the leftovers after it. -/
def encodeRun : List UnicodeChar → Pending → List Byte
  | [], p =>
    if p.bitcount = 0 then [] else [mbase64Char (p.bits <<< (6 - p.bitcount))]
  | uc :: run, p =>
    (processBits (unitOf uc) 16 p).1 ++ encodeRun run (processBits (unitOf uc) 16 p).2

/- `uctoutf7_pass`. -/
def uctoutf7Pass (specials : List UnicodeChar) (text : List UnicodeChar) : List Byte :=
  match text with
  | [] => []
  | uc :: rest =>
    if isSpecial specials uc then
      chr '&' :: encodeRun (uc :: rest.takeWhile (isSpecial specials)) Pending.none ++
        chr '-' :: uctoutf7Pass specials (rest.dropWhile (isSpecial specials))
    else
      uc.toUInt8 :: (if uc = 0x26 then [chr '-'] else []) ++ uctoutf7Pass specials rest
termination_by text.length
decreasing_by
  · exact Nat.lt_succ_of_le (List.dropWhile_suffix _).length_le
  · exact Nat.lt_succ_self rest.length

/- `unicode_uctomodutf7x`. -/
def uctomodutf7x (text specials : List UnicodeChar) : List Byte :=
  uctoutf7Pass specials text

/-
  The loop over the characters of a run.  What comes back is
  the code points and the text after the run, or the place of
  the character that is not one of the alphabet.
-/
def decodeRun (l : Nat) : List Byte → Nat → Nat → Except Nat (List UnicodeChar × List Byte)
  | [], _, _ => .error l
  | b :: s, uu, bitcount =>
    if b = chr '-' then
      .ok ([], s)
    else
      match mbase64Lookup b with
      | none => .error l
      | some bits =>
        if 16 ≤ bitcount + 6 then
          let n := bitcount + 6 - 16
          let unit :=
            ((uu <<< (6 - n)) ||| (bits >>> n)) &&& 0xFFFF
          (decodeRun (l + 1) s bits n).map fun more => (UInt32.ofNat unit :: more.1, more.2)
        else
          decodeRun (l + 1) s ((uu <<< 6) ||| bits) (bitcount + 6)

/- A run that is read to its end is taken off. -/
theorem length_decodeRun {l uu bitcount : Nat} {s : List Byte}
    {more : List UnicodeChar × List Byte} (hRun : decodeRun l s uu bitcount = .ok more) :
    more.2.length < s.length := by
  induction s generalizing l uu bitcount more with
  | nil => cases hRun
  | cons b s ih =>
    unfold decodeRun at hRun
    split at hRun
    · cases hRun
      exact Nat.lt_succ_self s.length
    split at hRun
    · cases hRun
    split at hRun
    · simp only [] at hRun
      rename_i bits hLookup hFull
      cases hMore : decodeRun (l + 1) s bits (bitcount + 6 - 16) with
      | error place =>
        rw [hMore] at hRun
        cases hRun
      | ok found =>
        rw [hMore] at hRun
        cases hRun
        have hRest : found.2.length < s.length := ih hMore
        exact Nat.lt_succ_of_lt hRest
    · exact Nat.lt_succ_of_lt (ih hRun)

/-
  `unicode_modutf7touc`.  A failure gives the place that is
  stored in `err`.
-/
def modutf7toucFrom (l : Nat) (s : List Byte) : Except Nat (List UnicodeChar) :=
  match s with
  | [] => .ok []
  | b :: s =>
    if b < 0x20 || 0x7F ≤ b then
      .error l
    else if b ≠ chr '&' then
      (modutf7toucFrom (l + 1) s).map (b.toUInt32 :: ·)
    else if s.head? = some (chr '-') then
      (modutf7toucFrom (l + 2) s.tail).map (0x26 :: ·)
    else
      match _hRun : decodeRun (l + 1) s 0 0 with
      | .error place => .error place
      | .ok more =>
        (modutf7toucFrom (l + 1 + (s.length - more.2.length))
          more.2).map (more.1 ++ ·)
termination_by s.length
decreasing_by
  · exact Nat.lt_succ_self s.length
  · rw [List.length_tail]
    exact Nat.lt_succ_of_le (Nat.sub_le _ _)
  · exact Nat.lt_succ_of_lt (length_decodeRun _hRun)

/- `unicode_modutf7touc`. -/
def modutf7touc (s : List Byte) : Except Nat (List UnicodeChar) :=
  modutf7toucFrom 0 s

end Wmail.Unicode
