import Mathlib.Data.List.Induction
import Wmail.Unicode.Utf7imap

/-
  Text in UTF-8 and its code points (utf8.c).

  A C string is the list of its bytes, and a string of code
  points the list of these, both without the zero at the end.

  Key theorems include:
    * `bytes_shape`
    * `bytes_foldl`
-/

namespace Wmail.Unicode

/-
  A form with more than one byte: the bits of its first byte
  that are tested and what they are, the bits that count, and
  how many bytes follow.
-/
structure Utf8Form where
  test : Byte
  mark : Byte
  mask : Byte
  more : Nat
deriving DecidableEq

def twoBytes : Utf8Form := ⟨0xE0, 0xC0, 0x1F, 1⟩
def threeBytes : Utf8Form := ⟨0xF0, 0xE0, 0x0F, 2⟩
def fourBytes : Utf8Form := ⟨0xF8, 0xF0, 0x07, 3⟩
def fiveBytes : Utf8Form := ⟨0xFC, 0xF8, 0x03, 4⟩
def sixBytes : Utf8Form := ⟨0xFE, 0xFC, 0x01, 5⟩

/- The forms, as `unicode_utf8_tou` tries them. -/
def utf8Forms : List Utf8Form :=
  [twoBytes, threeBytes, fourBytes, fiveBytes, sixBytes]

/-
  `(cp[l+k] & 0xC0) == 0x80` for `n` bytes; the NUL at the end
  is not one of them.
-/
def continued (n : Nat) (cp : List Byte) : Bool :=
  n ≤ cp.length && (cp.take n).all (· &&& 0xC0 = 0x80)

/- The tests on a byte, and on those that follow it. -/
def utf8FormAt (b : Byte) (cp : List Byte) : Option Utf8Form :=
  utf8Forms.find? fun f => b &&& f.test = f.mark && continued f.more cp

/- `uc <<= 6; uc |= c & 0x3F;` -/
def pushBits (uc : UnicodeChar) (c : Byte) : UnicodeChar :=
  (uc <<< 6) ||| (c &&& 0x3F).toUInt32

/- The code point of a sequence of bytes with a form. -/
def Utf8Form.value (f : Utf8Form) (b : Byte) (cp : List Byte) : UnicodeChar :=
  (cp.take f.more).foldl pushBits (b &&& f.mask).toUInt32

/-
  The first loop of `unicode_utf8_tou`, where `skip` bytes
  belong to the sequence before.  An error is the place that
  is stored in `ip`, when that is not null.
-/
def touCount (ip : Bool) : Nat → Nat → Nat → List Byte → Except Nat Nat
  | _, n, _, [] => .ok n
  | l, n, skip + 1, _ :: cp => touCount ip (l + 1) n skip cp
  | l, n, 0, b :: cp =>
    if b &&& 0x80 = 0 then
      touCount ip (l + 1) (n + 1) 0 cp
    else
      match utf8FormAt b cp with
      | some f => touCount ip (l + 1) (n + 1) f.more cp
      | none =>
        if ip then .error l else touCount ip (l + 1) (n + 1) 0 cp

/-
  The second loop of `unicode_utf8_tou`.  A `char` that is no
  part of a sequence is extended with its sign.
-/
def touFill : Nat → List Byte → List UnicodeChar
  | _, [] => []
  | skip + 1, _ :: cp => touFill skip cp
  | 0, b :: cp =>
    if b &&& 0x80 = 0 then
      b.toUInt32 :: touFill 0 cp
    else
      match utf8FormAt b cp with
      | some f => f.value b cp :: touFill f.more cp
      | none => b.toInt8.toInt32.toUInt32 :: touFill 0 cp

/- `unicode_utf8_tou`. -/
def utf8Tou (ip : Bool) (cp : List Byte) : Except Nat (List UnicodeChar) :=
  (touCount ip 0 1 0 cp).map fun _ => touFill 0 cp

/- What a code point is written as, `n` bytes and the first. -/
def Utf8Form.bytes (f : Utf8Form) : Nat → UnicodeChar → List Byte
  | 0, uc => [(uc &&& f.mask.toUInt32).toUInt8 ||| f.mark]
  | n + 1, uc => f.bytes n (uc >>> 6) ++ [(uc &&& 0x3F).toUInt8 ||| 0x80]

/- The form of a code point that needs more than one byte. -/
def utf8FormOf (uc : UnicodeChar) : Option Utf8Form :=
  if uc = uc &&& 0x7F then
    none
  else if uc = uc &&& 0x7FF then
    some twoBytes
  else if uc = uc &&& 0xFFFF then
    some threeBytes
  else if uc = uc &&& 0x1FFFFF then
    some fourBytes
  else if uc = uc &&& 0x3FFFFFF then
    some fiveBytes
  else
    some sixBytes

/-
  `unicode_utf8_fromu_pass`: its result, and what it writes
  when `p` is not null.
-/
def utf8FromuPass (p : Bool) : Nat → List UnicodeChar → Nat × List Byte
  | l, [] => (l, [])
  | l, uc :: cp =>
    if uc = 0 then
      (l, [])
    else
      match utf8FormOf uc with
      | none =>
        let rest := utf8FromuPass p (l + 1) cp
        (rest.1, (if p then [uc.toUInt8] else []) ++ rest.2)
      | some f =>
        let rest := utf8FromuPass p (l + (f.more + 1)) cp
        (rest.1, (if p then f.bytes f.more uc else []) ++ rest.2)

/- `unicode_utf8_fromu`: the second pass has room. -/
def utf8Fromu (cp : List UnicodeChar) : List Byte :=
  (utf8FromuPass true 0 cp).2

example : utf8Fromu [0x20AC, 0x41] = [0xE2, 0x82, 0xAC, 0x41] := by
  decide

example : (utf8Tou true [0xE2, 0x82, 0xAC, 0x41, 0xC3]).toOption = none ∧
      (utf8Tou true [0xE2, 0x82, 0xAC, 0x41]).toOption = some [0x20AC, 0x41] := by
  decide

theorem toNat_pushBits {uc : UnicodeChar} (hRoom : uc.toNat < 2 ^ 26) (c : Byte) :
    (pushBits uc c).toNat = uc.toNat * 64 + c.toNat % 64 := by
  have hLow : ((c &&& 0x3F).toUInt32).toNat = c.toNat % 64 := by
    rw [UInt8.toNat_toUInt32, UInt8.toNat_and]
    exact Nat.and_two_pow_sub_one_eq_mod c.toNat 6
  have hHigh : (uc <<< 6).toNat = uc.toNat <<< 6 := by
    rw [UInt32.toNat_shiftLeft]
    have hFits : uc.toNat <<< 6 < 2 ^ 32 := by
      rw [Nat.shiftLeft_eq]
      omega
    exact Nat.mod_eq_of_lt hFits
  unfold pushBits
  rw [UInt32.toNat_or, hHigh, hLow, ← Nat.shiftLeft_add_eq_or_of_lt (Nat.mod_lt _ (by decide)),
    Nat.shiftLeft_eq]

/- A byte that follows, as it is written. -/
theorem toNat_continuation (uc : UnicodeChar) : ((uc &&& 0x3F).toUInt8 ||| 0x80).toNat =
      uc.toNat % 64 + 128 := by
  have hLow : (uc &&& 0x3F).toUInt8.toNat = uc.toNat % 64 := by
    rw [UInt32.toNat_toUInt8, UInt32.toNat_and]
    have hMask := Nat.and_two_pow_sub_one_eq_mod uc.toNat 6
    rw [show (0x3F : UInt32).toNat = 2 ^ 6 - 1 from rfl, hMask]
    omega
  rw [UInt8.toNat_or, hLow, Nat.or_comm]
  have hAdd := Nat.two_pow_add_eq_or_of_lt (i := 7) (b := uc.toNat % 64) (by omega) 1
  rw [show (0x80 : UInt8).toNat = 2 ^ 7 * 1 from rfl, ← hAdd]
  omega

/- Bytes that follow others have their two highest bits. -/
theorem continuation_iff (c : Byte) : c &&& 0xC0 = 0x80 ↔ 128 ≤ c.toNat ∧ c.toNat < 192 := by
  revert c
  apply byte_forall
  decide +kernel

theorem ascii_iff (b : Byte) : b &&& 0x80 = 0 ↔ b.toNat < 128 := by
  revert b
  apply byte_forall
  decide +kernel

/- Bits that are pushed are taken off again. -/
theorem pushBits_shiftRight (uc : UnicodeChar) :
    pushBits (uc >>> 6) ((uc &&& 0x3F).toUInt8 ||| 0x80) = uc := by
  have hShift : (uc >>> 6).toNat = uc.toNat / 64 := by
    rw [UInt32.toNat_shiftRight, Nat.shiftRight_eq_div_pow]
    rfl
  have hLess := uc.toNat_lt
  apply UInt32.toNat_inj.mp
  rw [toNat_pushBits (by omega), hShift, toNat_continuation]
  omega

theorem shiftRight_pushBits {uc : UnicodeChar} {c : Byte} (hRoom : uc.toNat < 2 ^ 26)
    (hByte : c &&& 0xC0 = 0x80) :
    pushBits uc c >>> 6 = uc ∧ ((pushBits uc c &&& 0x3F).toUInt8 ||| 0x80) = c := by
  have hPush := toNat_pushBits hRoom c
  rw [continuation_iff] at hByte
  constructor
  · apply UInt32.toNat_inj.mp
    rw [UInt32.toNat_shiftRight, hPush, Nat.shiftRight_eq_div_pow]
    have hSix : 2 ^ ((6 : UInt32).toNat % 32) = 64 := rfl
    rw [hSix]
    omega
  · apply UInt8.toNat_inj.mp
    rw [toNat_continuation, hPush]
    omega

/- How many bits a form holds. -/
def Utf8Form.bits (f : Utf8Form) : Nat :=
  5 * f.more + 6

/- What the first byte of a form consists of. -/
structure Utf8Form.Sane (f : Utf8Form) : Prop where
  mask : f.mask.toNat = 2 ^ (6 - f.more) - 1
  more_le : f.more ≤ 5
  long : ∀ b, b &&& f.test = f.mark → b &&& 0x80 ≠ 0
  split : ∀ b, b &&& f.test = f.mark → (b &&& f.mask) ||| f.mark = b
  join : ∀ b, b &&& f.mask = b → (b ||| f.mark) &&& f.test = f.mark ∧ (b ||| f.mark) &&& f.mask = b

set_option maxRecDepth 8000 in
theorem sane_forms : ∀ f, f ∈ utf8Forms → f.Sane := by
  intro f hForm
  simp only [utf8Forms, List.mem_cons, List.not_mem_nil, or_false] at hForm
  rcases hForm with rfl | rfl | rfl | rfl | rfl
  all_goals
    refine ⟨by decide, by decide, ?_, ?_, ?_⟩
    · apply byte_forall
      decide +kernel
    · apply byte_forall
      decide +kernel
    · apply byte_forall
      decide +kernel

section Sequences

variable {f : Utf8Form}

theorem and_mask (hSane : f.Sane) (uc : UnicodeChar) : (uc &&& f.mask.toUInt32).toNat =
      uc.toNat % 2 ^ (6 - f.more) := by
  rw [UInt32.toNat_and, UInt8.toNat_toUInt32, hSane.mask, Nat.and_two_pow_sub_one_eq_mod]

/- A first byte that is written has the form's mark. -/
theorem first_written (hSane : f.Sane) {uc : UnicodeChar} (hRoom : uc.toNat < 2 ^ (6 - f.more)) :
    let b := (uc &&& f.mask.toUInt32).toUInt8 ||| f.mark
    b &&& f.test = f.mark ∧ (b &&& f.mask).toUInt32 = uc := by
  have hAll : uc &&& f.mask.toUInt32 = uc := by
    apply UInt32.toNat_inj.mp
    rw [and_mask hSane, Nat.mod_eq_of_lt hRoom]
  have hByte : uc.toNat < 2 ^ 6 :=
    Nat.lt_of_lt_of_le hRoom (Nat.pow_le_pow_right (by decide) (by omega))
  have hLow : uc.toUInt8 &&& f.mask = uc.toUInt8 := by
    apply UInt8.toNat_inj.mp
    rw [UInt8.toNat_and, hSane.mask, Nat.and_two_pow_sub_one_eq_mod, UInt32.toNat_toUInt8]
    rw [Nat.mod_eq_of_lt (a := uc.toNat) (by omega), Nat.mod_eq_of_lt hRoom]
  rw [hAll]
  refine ⟨(hSane.join _ hLow).1, ?_⟩
  rw [(hSane.join _ hLow).2]
  apply UInt32.toNat_inj.mp
  rw [UInt8.toNat_toUInt32, UInt32.toNat_toUInt8]
  omega

/- What is written has the form, and is read as it was. -/
theorem bytes_shape (hSane : f.Sane) {n : Nat} {uc : UnicodeChar}
    (hRoom : uc.toNat < 2 ^ (6 - f.more + 6 * n)) :
    ∃ b conts, f.bytes n uc = b :: conts ∧ conts.length = n ∧ b &&& f.test = f.mark ∧
        (∀ c, c ∈ conts → c &&& 0xC0 = 0x80) ∧
          conts.foldl pushBits (b &&& f.mask).toUInt32 = uc := by
  induction n generalizing uc with
  | zero =>
    rcases first_written hSane hRoom with ⟨hMark, hValue⟩
    exact ⟨_, [], rfl, rfl, hMark, nofun, hValue⟩
  | succ n ih =>
    have hShift : (uc >>> 6).toNat = uc.toNat / 2 ^ 6 := by
      rw [UInt32.toNat_shiftRight, Nat.shiftRight_eq_div_pow]
      rfl
    have hLess : (uc >>> 6).toNat < 2 ^ (6 - f.more + 6 * n) := by
      rw [hShift]
      apply Nat.div_lt_of_lt_mul
      rw [← Nat.pow_add, Nat.add_comm 6, Nat.add_assoc]
      exact hRoom
    rcases ih hLess with ⟨b, conts, hBytes, hLength, hMark, hConts, hValue⟩
    refine ⟨b, conts ++ [(uc &&& 0x3F).toUInt8 ||| 0x80], ?_, ?_, hMark, ?_, ?_⟩
    · rw [Utf8Form.bytes, hBytes]
      rfl
    · rw [List.length_append, hLength]
      rfl
    · intro c hMem
      rcases List.mem_append.mp hMem with hBefore | hLast
      · exact hConts c hBefore
      · rw [List.mem_singleton.mp hLast, continuation_iff, toNat_continuation]
        omega
    · rw [List.foldl_append, hValue]
      exact pushBits_shiftRight uc

/- What has the form and is read is written as it was. -/
theorem bytes_foldl (hSane : f.Sane) {b : Byte} {conts : List Byte}
    (hMark : b &&& f.test = f.mark) (hConts : ∀ c, c ∈ conts → c &&& 0xC0 = 0x80)
    (hLength : conts.length ≤ f.more) : let uc := conts.foldl pushBits (b &&& f.mask).toUInt32
    uc.toNat < 2 ^ (6 - f.more + 6 * conts.length) ∧ f.bytes conts.length uc = b :: conts := by
  induction conts using List.reverseRecOn with
  | nil =>
    have hMask : (b &&& f.mask).toUInt32 &&& f.mask.toUInt32 = (b &&& f.mask).toUInt32 := by
      rw [← UInt8.toUInt32_and, UInt8.and_assoc, UInt8.and_self]
    constructor
    · rw [List.foldl_nil, ← hMask, and_mask hSane]
      exact Nat.mod_lt _ (Nat.two_pow_pos _)
    · rw [List.length_nil, List.foldl_nil, Utf8Form.bytes, hMask,
        UInt8.toUInt8_toUInt32, hSane.split b hMark]
  | append_singleton conts c ih =>
    rw [List.length_append, List.length_singleton] at hLength
    have hBefore := ih (fun d hMem => hConts d (List.mem_append_left _ hMem)) (by omega)
    have hLast := hConts c (List.mem_append_right _ (List.mem_singleton.mpr rfl))
    simp only [] at hBefore
    rw [List.foldl_append, List.foldl_cons, List.foldl_nil]
    generalize conts.foldl pushBits (b &&& f.mask).toUInt32 = uc at hBefore
    have hMore := hSane.more_le
    have hRoom : uc.toNat < 2 ^ 26 :=
      Nat.lt_of_lt_of_le hBefore.1 (Nat.pow_le_pow_right (by decide) (by omega))
    rcases shiftRight_pushBits hRoom hLast with ⟨hShift, hByte⟩
    have hNat := toNat_pushBits hRoom c
    rw [List.length_append, List.length_singleton]
    constructor
    · have hStep : 2 ^ (6 - f.more + 6 * (conts.length + 1)) =
          2 ^ (6 - f.more + 6 * conts.length) * 64 := by
        rw [Nat.mul_add, ← Nat.add_assoc, Nat.pow_add]
      have hPrev := hBefore.1
      rw [hNat, hStep]
      omega
    · rw [Utf8Form.bytes, hShift, hByte, hBefore.2]
      rfl

end Sequences

end Wmail.Unicode
