import Mathlib.Data.List.TakeWhile
import Mathlib.Tactic.Ring
import Wmail.Core.BigEndian
import Wmail.Unicode.Utf7imap

/-
  Modified UTF-7 that is written is read back.

  The characters of a run and the units that they encode are
  both the digits of one number: the encoder keeps what it has
  written, its pending bits below it, equal to what it has
  read, and so does the decoder.

  Key theorems include:
    * `decodeRun_encodeRun`
    * `modutf7_roundtrip`
-/

namespace Wmail.Unicode

/- The pending bits are as many as are counted. -/
def Pending.Fits (p : Pending) : Prop :=
  p.bits < 2 ^ p.bitcount

/- The bytes that an encoded run and its ends consist of. -/
def coding (b : Byte) : Bool :=
  isalnum b || b = chr '+' || b = chr ',' || b = chr '&' || b = chr '-'

/- The code points that cannot be made special. -/
def reserved (uc : UnicodeChar) : Bool :=
  uc < 128 && coding uc.toUInt8

/- A character of the alphabet is found at its place. -/
theorem mbase64_table : ∀ i, i < 64 → mbase64Lookup (mbase64Char i) = some i ∧
        coding (mbase64Char i) = true ∧
        mbase64Char i ≠ chr '-' := by
  decide

/- A byte that takes part in the encoding is printable. -/
theorem coding_printable : ∀ b : Byte, coding b = true →
      32 ≤ b ∧ b < 127 ∧ reserved b.toUInt32 = true := by
  apply byte_forall
  decide +kernel

------------
-- Encoding a Run
------------

/- The highest bits of a unit, and what is left of it. -/
theorem unit_cut {v counter x : Nat} (hCounter : counter ≤ 16) (hX : x ≤ counter) :
    (v * 2 ^ (16 - counter)) >>> (16 - x) = v / 2 ^ (counter - x) ∧
      (v * 2 ^ (16 - counter)) <<< x &&& 0xFFFF =
        (v % 2 ^ (counter - x)) * 2 ^ (16 - (counter - x)) := by
  constructor
  · have hExp : 16 - x = (16 - counter) + (counter - x) := by omega
    rw [Nat.shiftRight_eq_div_pow, hExp, Nat.pow_add, ← Nat.div_div_eq_div_mul,
      Nat.mul_div_cancel _ (Nat.two_pow_pos _)]
  · have hMask : (0xFFFF : Nat) = 2 ^ 16 - 1 := rfl
    have hExp : 16 - (counter - x) = (16 - counter) + x := by omega
    have hWidth : (2 : Nat) ^ 16 = 2 ^ (counter - x) * 2 ^ ((16 - counter) + x) := by
      rw [← Nat.pow_add]
      congr 1
      omega
    rw [hMask, Nat.and_two_pow_sub_one_eq_mod, Nat.shiftLeft_eq, Nat.mul_assoc, ← Nat.pow_add, hExp,
      hWidth, Nat.mul_mod_mul_right]

/-
  One unit.  The characters and the pending bits after them
  have the value of the pending bits and the unit.
-/
theorem processBits_value {v counter : Nat} {p : Pending} (hCounter : counter ≤ 16)
    (hUnit : v < 2 ^ counter) (hFits : p.Fits) :
    ∃ chars, (processBits (v * 2 ^ (16 - counter)) counter p).1 = chars.map mbase64Char ∧
        Digits 6 chars ∧
        (processBits (v * 2 ^ (16 - counter)) counter p).2.Fits ∧
        6 * chars.length + (processBits (v * 2 ^ (16 - counter)) counter p).2.bitcount =
          p.bitcount + counter ∧
        bigEndian 6 chars * 2 ^ (processBits (v * 2 ^ (16 - counter)) counter p).2.bitcount +
            (processBits (v * 2 ^ (16 - counter)) counter p).2.bits =
          p.bits * 2 ^ counter + v := by
  induction counter using Nat.strong_induction_on generalizing v p with
  | _ counter ih =>
    rw [processBits]
    by_cases hZero : counter = 0
    · rw [if_pos hZero]
      rw [hZero, Nat.pow_zero, Nat.lt_one_iff] at hUnit
      refine ⟨[], rfl, ?_, hFits, ?_, ?_⟩
      · intro d hMem
        cases hMem
      · simp [hZero]
      · simp [hZero, hUnit]
    rw [if_neg hZero]
    by_cases hFew : counter + p.bitcount < 6
    · rw [dif_pos hFew]
      have hHigh := (unit_cut (v := v) hCounter (Nat.le_refl counter)).1
      rw [Nat.sub_self, Nat.pow_zero, Nat.div_one] at hHigh
      have hBits : p.bits <<< counter ||| (v * 2 ^ (16 - counter)) >>> (16 - counter) =
            p.bits * 2 ^ counter + v := by
        rw [hHigh]
        exact shiftLeft_or hUnit
      refine ⟨[], rfl, ?_, ?_, ?_, ?_⟩
      · intro d hMem
        cases hMem
      · unfold Pending.Fits at hFits ⊢
        simp only [hBits]
        rw [Nat.pow_add]
        have hStep := Nat.mul_le_mul_right (2 ^ counter) (Nat.succ_le_of_lt hFits)
        rw [Nat.succ_mul] at hStep
        omega
      · simp
      · simp [hBits]
    rw [dif_neg hFew]
    have hPending := p.bitcount_lt
    have hX : 6 - p.bitcount ≤ counter := by omega
    rcases unit_cut (v := v) hCounter hX with ⟨hHigh, hLow⟩
    simp only [hHigh, hLow]
    generalize hLeft : counter - (6 - p.bitcount) = left at *
    have hQuot : v / 2 ^ left < 2 ^ (6 - p.bitcount) := by
      apply Nat.div_lt_of_lt_mul
      rw [← Nat.pow_add]
      have hExp : left + (6 - p.bitcount) = counter := by omega
      rwa [hExp]
    have hNone : Pending.none.Fits := Nat.succ_pos 0
    rcases ih left (by omega) (by omega) (Nat.mod_lt v (Nat.two_pow_pos left)) hNone with
      ⟨chars, hChars, hDigits, hRest, hCount, hValue⟩
    rw [shiftLeft_or hQuot]
    refine ⟨(p.bits * 2 ^ (6 - p.bitcount) + v / 2 ^ left) :: chars, ?_, ?_, hRest, ?_, ?_⟩
    · rw [hChars]
      rfl
    · apply Digits.cons
      · unfold Pending.Fits at hFits
        have hStep := Nat.mul_le_mul_right (2 ^ (6 - p.bitcount)) (Nat.succ_le_of_lt hFits)
        rw [Nat.succ_mul, ← Nat.pow_add] at hStep
        have hExp : p.bitcount + (6 - p.bitcount) = 6 := by omega
        rw [hExp] at hStep
        omega
      · exact hDigits
    · rw [List.length_cons]
      have hNoBits : Pending.none.bitcount = 0 := rfl
      rw [hNoBits] at hCount
      omega
    · have hNoBits : Pending.none.bitcount = 0 := rfl
      have hNoValue : Pending.none.bits = 0 := rfl
      rw [hNoBits, Nat.zero_add] at hCount
      rw [hNoValue, Nat.zero_mul, Nat.zero_add] at hValue
      rw [bigEndian_cons, Nat.add_mul, Nat.mul_assoc, ← Nat.pow_add, hCount, Nat.add_assoc, hValue,
        Nat.add_mul, Nat.add_assoc, Nat.mul_comm (v / 2 ^ left), Nat.div_add_mod, Nat.mul_assoc,
        ← Nat.pow_add]
      have hExp : 6 - p.bitcount + left = counter := by omega
      rw [hExp]

theorem unitOf_lt (uc : UnicodeChar) : unitOf uc < 2 ^ 16 := by
  have hMask : (0xFFFF : Nat) = 2 ^ 16 - 1 := rfl
  unfold unitOf
  split
  · decide
  · rw [hMask, Nat.and_two_pow_sub_one_eq_mod]
    exact Nat.mod_lt _ (Nat.two_pow_pos 16)

/- A whole unit. -/
theorem processBits_unitOf (uc : UnicodeChar) {p : Pending} (hFits : p.Fits) :
    ∃ chars, (processBits (unitOf uc) 16 p).1 = chars.map mbase64Char ∧ Digits 6 chars ∧
        (processBits (unitOf uc) 16 p).2.Fits ∧
        6 * chars.length + (processBits (unitOf uc) 16 p).2.bitcount = p.bitcount + 16 ∧
        bigEndian 6 chars * 2 ^ (processBits (unitOf uc) 16 p).2.bitcount +
            (processBits (unitOf uc) 16 p).2.bits =
          p.bits * 2 ^ 16 + unitOf uc := by
  have hOut := processBits_value (Nat.le_refl 16) (unitOf_lt uc) hFits
  rw [Nat.sub_self, Nat.pow_zero, Nat.mul_one] at hOut
  exact hOut

/-
  A run: its characters have the value of the pending bits,
  the units, and zeros that fill up the last character.
-/
theorem encodeRun_value (run : List UnicodeChar) {p : Pending} (hFits : p.Fits) :
    ∃ chars pad, encodeRun run p = chars.map mbase64Char ∧ Digits 6 chars ∧ pad < 6 ∧
        6 * chars.length = p.bitcount + 16 * run.length + pad ∧
        bigEndian 6 chars = (p.bits * 2 ^ (16 * run.length) +
            bigEndian 16 (run.map unitOf)) * 2 ^ pad := by
  induction run generalizing p with
  | nil =>
    have hPending := p.bitcount_lt
    unfold Pending.Fits at hFits
    unfold encodeRun
    by_cases hZero : p.bitcount = 0
    · rw [hZero, Nat.pow_zero, Nat.lt_one_iff] at hFits
      rw [if_pos hZero]
      refine ⟨[], 0, rfl, ?_, Nat.succ_pos 5, ?_, ?_⟩
      · intro d hMem
        cases hMem
      · simp [hZero]
      · simp [hFits]
    · rw [if_neg hZero]
      have hStep := Nat.mul_lt_mul_of_pos_right hFits (Nat.two_pow_pos (6 - p.bitcount))
      have hExp : p.bitcount + (6 - p.bitcount) = 6 := by omega
      rw [← Nat.pow_add, hExp] at hStep
      rw [Nat.shiftLeft_eq]
      refine ⟨[p.bits * 2 ^ (6 - p.bitcount)], 6 - p.bitcount, rfl, ?_, by omega, ?_, ?_⟩
      · intro d hMem
        rw [List.mem_singleton.mp hMem]
        exact hStep
      · simp
        omega
      · rw [bigEndian_cons]
        simp
  | cons uc run ih =>
    rcases processBits_unitOf uc hFits with ⟨front, hFront, hDigits, hNext, hCount, hValue⟩
    rcases ih hNext with ⟨chars, pad, hChars, hMore, hPad, hLength, hRest⟩
    refine ⟨front ++ chars, pad, ?_, hDigits.append hMore, hPad, ?_, ?_⟩
    · rw [encodeRun, hFront, hChars, List.map_append]
    · rw [List.length_append, List.length_cons]
      omega
    · rw [bigEndian_append, hLength, hRest, List.map_cons,
        bigEndian_cons, List.length_map, List.length_cons]
      have hExp : 16 * (run.length + 1) = 16 + 16 * run.length := by omega
      rw [hExp, Nat.pow_add, Nat.pow_add, Nat.pow_add]
      generalize 2 ^ (16 * run.length) = width
      calc
        _ = (bigEndian 6 front * 2 ^ (processBits (unitOf uc) 16 p).2.bitcount +
                (processBits (unitOf uc) 16 p).2.bits) *
              (width * 2 ^ pad) +
            bigEndian 16 (run.map unitOf) * 2 ^ pad := by
          ring
        _ = _ := by
          rw [hValue]
          ring

/- Bits put below others, and the lowest of all of these. -/
theorem low_bits (uu count : Nat) {low w : Nat} (hLow : low < 2 ^ w) :
    (uu <<< w ||| low) % 2 ^ (count + w) = (uu % 2 ^ count) * 2 ^ w + low := by
  have hSplit := Nat.div_add_mod uu (2 ^ count)
  have hLess := Nat.mul_le_mul_right (2 ^ w)
    (Nat.succ_le_of_lt (Nat.mod_lt uu (Nat.two_pow_pos count)))
  rw [Nat.succ_mul] at hLess
  have hValue : uu <<< w ||| low = 2 ^ (count + w) * (uu / 2 ^ count) +
        ((uu % 2 ^ count) * 2 ^ w + low) := by
    rw [shiftLeft_or hLow, Nat.pow_add]
    calc
      _ = (2 ^ count * (uu / 2 ^ count) + uu % 2 ^ count) * 2 ^ w + low := by
        rw [hSplit]
      _ = _ := by
        ring
  rw [hValue, Nat.mul_add_mod, Nat.mod_eq_of_lt]
  rw [Nat.pow_add]
  omega

/-
  A run that is read: the units and the bits that are left of
  the last character have the value of the pending bits and
  the characters.
-/
theorem decodeRun_value {chars : List Nat} (hDigits : Digits 6 chars) (uu : Nat)
    {bitcount : Nat} (hCount : bitcount < 16) (l : Nat) (rest : List Byte) :
    ∃ units n r, decodeRun l (chars.map mbase64Char ++ chr '-' :: rest) uu bitcount =
          .ok (units.map UInt32.ofNat, rest) ∧
        Digits 16 units ∧
        n < 16 ∧
        r < 2 ^ n ∧
        16 * units.length + n = bitcount + 6 * chars.length ∧
        bigEndian 16 units * 2 ^ n + r = (uu % 2 ^ bitcount) * 2 ^ (6 * chars.length) +
            bigEndian 6 chars := by
  induction chars generalizing uu bitcount l with
  | nil =>
    refine ⟨[], bitcount, uu % 2 ^ bitcount, ?_, ?_, hCount,
      Nat.mod_lt _ (Nat.two_pow_pos _), ?_, ?_⟩
    · rw [List.map_nil, List.nil_append, decodeRun, if_pos rfl]
      rfl
    · intro d hMem
      cases hMem
    · simp
    · simp
  | cons d chars ih =>
    have hFirst := hDigits d List.mem_cons_self
    have hMore : Digits 6 chars := fun c hMem => hDigits c (List.mem_cons_of_mem d hMem)
    rcases mbase64_table d hFirst with ⟨hLookup, _, hNotEnd⟩
    rw [List.map_cons, List.cons_append, decodeRun,
      if_neg hNotEnd, hLookup, List.length_cons, bigEndian_cons]
    have hExp : 6 * (chars.length + 1) = 6 + 6 * chars.length := by omega
    rw [hExp, Nat.pow_add]
    by_cases hFull : 16 ≤ bitcount + 6
    · -- the character completes a unit
      simp only [if_pos hFull]
      generalize hLeft : bitcount + 6 - 16 = left
      have hWidth : bitcount + (6 - left) = 16 := by omega
      have hHigh : d >>> left < 2 ^ (6 - left) := by
        rw [Nat.shiftRight_eq_div_pow]
        apply Nat.div_lt_of_lt_mul
        rw [← Nat.pow_add]
        have hSix : left + (6 - left) = 6 := by omega
        rw [hSix]
        exact hFirst
      have hUnit := low_bits uu bitcount hHigh
      rw [hWidth] at hUnit
      have hMask : (0xFFFF : Nat) = 2 ^ 16 - 1 := rfl
      rw [hMask, Nat.and_two_pow_sub_one_eq_mod, hUnit]
      have hTail : left < 16 := by omega
      rcases ih hMore d hTail (l + 1) with ⟨units, n, r, hOut, hUnits, hN, hR, hLength, hValue⟩
      rw [hOut]
      refine ⟨((uu % 2 ^ bitcount) * 2 ^ (6 - left) +
        d >>> left) :: units, n, r, rfl, ?_, hN, hR, ?_, ?_⟩
      · apply Digits.cons _ hUnits
        rw [← hUnit]
        exact Nat.mod_lt _ (Nat.two_pow_pos 16)
      · rw [List.length_cons]
        omega
      · have hSplit := Nat.div_add_mod d (2 ^ left)
        have hBits : (2 : Nat) ^ (16 * units.length) * 2 ^ n =
            2 ^ left * 2 ^ (6 * chars.length) := by
          rw [← Nat.pow_add, ← Nat.pow_add, hLength]
        have hSix : (2 : Nat) ^ (6 - left) * 2 ^ left = 2 ^ 6 := by
          rw [← Nat.pow_add]
          congr 1
          omega
        rw [bigEndian_cons, Nat.shiftRight_eq_div_pow]
        generalize 2 ^ (6 * chars.length) = width at *
        calc
          _ = ((uu % 2 ^ bitcount) * 2 ^ (6 - left) + d / 2 ^ left) *
                (2 ^ (16 * units.length) * 2 ^ n) +
              (bigEndian 16 units * 2 ^ n + r) := by
            ring
          _ = (uu % 2 ^ bitcount) * (2 ^ (6 - left) * 2 ^ left) * width +
              (2 ^ left * (d / 2 ^ left) + d % 2 ^ left) * width +
              bigEndian 6 chars := by
            rw [hValue, hBits]
            ring
          _ = _ := by
            rw [hSix, hSplit]
            ring
    · -- the character is collected
      simp only [if_neg hFull]
      have hTail : bitcount + 6 < 16 := by omega
      rcases ih hMore (uu <<< 6 ||| d) hTail (l + 1) with
        ⟨units, n, r, hOut, hUnits, hN, hR, hLength, hValue⟩
      rw [low_bits uu bitcount hFirst] at hValue
      refine ⟨units, n, r, hOut, hUnits, hN, hR, by omega, ?_⟩
      rw [hValue]
      ring

------------
-- Runs and Texts
------------

/- What the round trip is about: 1 to 0xFFFF. -/
def encodable (uc : UnicodeChar) : Bool :=
  1 ≤ uc && uc ≤ 0xFFFF

theorem unitOf_encodable {uc : UnicodeChar} (hSmall : encodable uc = true) :
    unitOf uc = uc.toNat := by
  unfold encodable at hSmall
  rw [Bool.and_eq_true, decide_eq_true_iff, decide_eq_true_iff,
    UInt32.le_iff_toNat_le, UInt32.le_iff_toNat_le] at hSmall
  have hOne : (1 : UInt32).toNat = 1 := rfl
  have hLast : (0xFFFF : UInt32).toNat = 0xFFFF := rfl
  have hMask : (0xFFFF : Nat) = 2 ^ 16 - 1 := rfl
  have hSame : uc.toNat &&& 0xFFFF = uc.toNat := by
    rw [hMask, Nat.and_two_pow_sub_one_eq_mod]
    exact Nat.mod_eq_of_lt (by omega)
  unfold unitOf
  rw [hSame, if_neg (by omega)]

variable {run : List UnicodeChar}

/- The characters of a run are read as its code points. -/
theorem decodeRun_encodeRun (hRun : ∀ uc ∈ run, encodable uc = true) (l : Nat)
    (rest : List Byte) :
    decodeRun l (encodeRun run Pending.none ++ chr '-' :: rest) 0 0 = .ok (run, rest) := by
  have hNone : Pending.none.Fits := Nat.succ_pos 0
  have hNoBits : Pending.none.bitcount = 0 := rfl
  have hNoValue : Pending.none.bits = 0 := rfl
  rcases encodeRun_value run hNone with ⟨chars, pad, hChars, hDigits, hPad, hLength, hValue⟩
  rcases decodeRun_value hDigits 0 (Nat.succ_pos 15) l rest with
    ⟨units, n, r, hOut, hUnits, hN, hR, hCount, hTotal⟩
  rw [hNoBits] at hLength
  rw [hNoValue, Nat.zero_mul, Nat.zero_add] at hValue
  rw [Nat.zero_mod, Nat.zero_mul, Nat.zero_add, hValue] at hTotal
  have hSame : units.length = run.length := by omega
  have hLeft : n = pad := by omega
  have hFits : Digits 16 (run.map unitOf) := by
    intro d hMem
    rcases List.mem_map.mp hMem with ⟨uc, _, hEq⟩
    rw [← hEq]
    exact unitOf_lt uc
  have hUnit : bigEndian 16 units = bigEndian 16 (run.map unitOf) := by
    rw [hLeft] at hTotal hR
    have hQuot := congrArg (· / 2 ^ pad) hTotal
    simp only [Nat.mul_comm _ (2 ^ pad), Nat.mul_add_div (Nat.two_pow_pos pad), Nat.div_eq_of_lt hR,
      Nat.add_zero, Nat.mul_div_cancel_left _ (Nat.two_pow_pos pad)] at hQuot
    exact hQuot
  have hUnitsEq := bigEndian_injective hUnits hFits (by rw [List.length_map, hSame]) hUnit
  have hBack : (run.map unitOf).map UInt32.ofNat = run := by
    have hEach : ∀ uc ∈ run, UInt32.ofNat (unitOf uc) = id uc := by
      intro uc hMem
      rw [unitOf_encodable (hRun uc hMem), UInt32.ofNat_toNat]
      rfl
    rw [List.map_map]
    exact (List.map_congr_left hEach).trans (List.map_id run)
  rw [hChars, hOut, hUnitsEq, hBack]

/- A run begins with a character of the alphabet. -/
theorem encodeRun_head (hSome : run ≠ []) (rest : List Byte) :
    (encodeRun run Pending.none ++ rest).head? ≠ some (chr '-') := by
  have hNone : Pending.none.Fits := Nat.succ_pos 0
  rcases encodeRun_value run hNone with ⟨chars, pad, hChars, hDigits, _, hLength, _⟩
  have hRun := List.length_pos_iff.mpr hSome
  rw [hChars]
  cases chars with
  | nil =>
    rw [List.length_nil] at hLength
    omega
  | cons d chars =>
    intro hHead
    rw [List.map_cons, List.cons_append, List.head?_cons, Option.some_inj] at hHead
    exact (mbase64_table d (hDigits d List.mem_cons_self)).2.2 hHead

theorem encodeRun_coding {b : Byte} (hMem : b ∈ encodeRun run Pending.none) : coding b = true := by
  have hNone : Pending.none.Fits := Nat.succ_pos 0
  rcases encodeRun_value run hNone with ⟨chars, _, hChars, hDigits, _⟩
  rw [hChars] at hMem
  rcases List.mem_map.mp hMem with ⟨d, hIn, hEq⟩
  rw [← hEq]
  exact (mbase64_table d (hDigits d hIn)).2.1

/- A code point that stands for itself is an ASCII byte. -/
theorem plain_byte {specials : List UnicodeChar} {uc : UnicodeChar}
    (hPlain : ¬ isSpecial specials uc = true) :
    uc.toUInt8.toUInt32 = uc ∧ 0x20 ≤ uc.toUInt8 ∧ uc.toUInt8 < 0x7F ∧ uc ∉ specials := by
  unfold isSpecial at hPlain
  simp only [Bool.or_eq_true, decide_eq_true_eq, not_or, List.contains_iff_mem] at hPlain
  rcases hPlain with ⟨⟨hNot, hLow⟩, hHigh⟩
  rw [UInt32.not_lt, UInt32.le_iff_toNat_le] at hLow
  rw [UInt32.not_le, UInt32.lt_iff_toNat_lt] at hHigh
  have hFirst : (0x20 : UInt32).toNat = 0x20 := rfl
  have hLast : (0x7F : UInt32).toNat = 0x7F := rfl
  have hByte : uc.toUInt8.toNat = uc.toNat := by
    rw [UInt32.toNat_toUInt8]
    exact Nat.mod_eq_of_lt (by omega)
  refine ⟨?_, ?_, ?_, hNot⟩
  · apply UInt32.toNat.inj
    rw [UInt8.toNat_toUInt32, hByte]
  · rw [UInt8.le_iff_toNat_le, hByte]
    exact hLow
  · rw [UInt8.lt_iff_toNat_lt, hByte]
    exact hHigh

/- A run is read, then what follows it. -/
theorem modutf7toucFrom_run {l : Nat} {s : List Byte} {more : List UnicodeChar × List Byte}
    (hHead : s.head? ≠ some (chr '-')) (hRun : decodeRun (l + 1) s 0 0 = .ok more) :
    modutf7toucFrom l (chr '&' :: s) = (modutf7toucFrom (l + 1 + (s.length - more.2.length))
        more.2).map (more.1 ++ ·) := by
  have hAscii : ¬ (decide (chr '&' < 0x20) ||
      decide (0x7F ≤ chr '&')) = true := by
    decide
  rw [modutf7toucFrom, if_neg hAscii, if_neg (not_not.mpr rfl), if_neg hHead]
  split
  · rename_i place hFound
    rw [hRun] at hFound
    cases hFound
  · rename_i found hFound
    rw [hRun] at hFound
    cases hFound
    rfl

/- The text is read back from any place on. -/
theorem modutf7toucFrom_uctoutf7Pass {specials text : List UnicodeChar}
    (hText : ∀ uc ∈ text, encodable uc = true) (l : Nat) :
    modutf7toucFrom l (uctoutf7Pass specials text) = .ok text := by
  fun_induction uctoutf7Pass specials text generalizing l with
  | case1 => rw [modutf7toucFrom]
  | case2 uc rest hSpecial ih =>
    have hRun : ∀ c ∈ uc :: rest.takeWhile (isSpecial specials), encodable c = true := by
      intro c hMem
      rcases List.mem_cons.mp hMem with hEq | hIn
      · exact hText c (hEq ▸ List.mem_cons_self)
      · exact hText c (List.mem_cons_of_mem uc ((List.takeWhile_sublist _).mem hIn))
    have hRest : ∀ c ∈ rest.dropWhile (isSpecial specials), encodable c = true := by
      intro c hMem
      exact hText c (List.mem_cons_of_mem uc ((List.dropWhile_sublist _).mem hMem))
    rw [List.cons_append, modutf7toucFrom_run (encodeRun_head (List.cons_ne_nil _ _) _)
      (decodeRun_encodeRun hRun _ _), ih hRest]
    have hText := List.takeWhile_append_dropWhile (p := isSpecial specials) (l := rest)
    rw [Except.map, List.cons_append, hText]
  | case3 uc rest hSpecial ih =>
    rcases plain_byte hSpecial with ⟨hBack, hLow, hHigh, _⟩
    have hRest : ∀ c ∈ rest, encodable c = true := fun c hMem =>
      hText c (List.mem_cons_of_mem uc hMem)
    have hAscii : ¬ (decide (uc.toUInt8 < 0x20) ||
        decide (0x7F ≤ uc.toUInt8)) = true := by
      rw [decide_eq_false (UInt8.not_lt.mpr hLow), decide_eq_false (UInt8.not_le.mpr hHigh)]
      exact Bool.false_ne_true
    by_cases hAmp : uc = 0x26
    · have hByte : uc.toUInt8 = chr '&' := by
        rw [hAmp]
        rfl
      rw [hByte] at hAscii
      rw [if_pos hAmp, hByte, List.cons_append, modutf7toucFrom,
        if_neg hAscii, if_neg (not_not.mpr rfl)]
      simp only [List.singleton_append, List.head?_cons, if_true, List.tail_cons, ih hRest]
      rw [hAmp]
      rfl
    · have hByte : uc.toUInt8 ≠ chr '&' := by
        intro hEq
        rw [hEq] at hBack
        exact hAmp hBack.symm
      rw [if_neg hAmp, List.singleton_append, modutf7toucFrom, if_neg hAscii, if_pos hByte, hBack,
        ih hRest]
      rfl

/- What is written is printable, and no special is. -/
theorem uctoutf7Pass_printable {specials text : List UnicodeChar}
    (hSpecials : ∀ uc ∈ specials, reserved uc = false) {b : Byte}
    (hMem : b ∈ uctoutf7Pass specials text) : 32 ≤ b ∧ b < 127 ∧ b.toUInt32 ∉ specials := by
  have hCoding : coding b = true → 32 ≤ b ∧ b < 127 ∧ b.toUInt32 ∉ specials := by
    intro hByte
    rcases coding_printable b hByte with ⟨hLow, hHigh, hReserved⟩
    refine ⟨hLow, hHigh, ?_⟩
    intro hIn
    rw [hSpecials _ hIn] at hReserved
    cases hReserved
  fun_induction uctoutf7Pass specials text with
  | case1 => cases hMem
  | case2 uc rest hSpecial ih =>
    rw [List.cons_append] at hMem
    rcases List.mem_cons.mp hMem with hEq | hMem
    · exact hCoding (hEq ▸ rfl)
    rcases List.mem_append.mp hMem with hIn | hMem
    · exact hCoding (encodeRun_coding hIn)
    rcases List.mem_cons.mp hMem with hEq | hIn
    · exact hCoding (hEq ▸ rfl)
    · exact ih hIn
  | case3 uc rest hSpecial ih =>
    rcases plain_byte hSpecial with ⟨hBack, hLow, hHigh, hNot⟩
    rw [List.cons_append] at hMem
    rcases List.mem_cons.mp hMem with hEq | hMem
    · rw [hEq, hBack]
      exact ⟨hLow, hHigh, hNot⟩
    rcases List.mem_append.mp hMem with hIn | hIn
    · split at hIn
      · exact hCoding (List.mem_singleton.mp hIn ▸ rfl)
      · cases hIn
    · exact ih hIn

/-
  A text of code points up to 0xFFFF is read back, whatever
  the specials are that are not part of the encoding itself.
  What is written is printable, and no byte of it is special.
-/
theorem modutf7_roundtrip (text specials : List UnicodeChar)
    (hText : ∀ uc ∈ text, encodable uc = true)
    (hSpecials : ∀ uc ∈ specials, reserved uc = false) :
    modutf7touc (uctomodutf7x text specials) = .ok text ∧ ∀ b ∈ uctomodutf7x text specials,
        32 ≤ b ∧ b < 127 ∧ b.toUInt32 ∉ specials := by
  constructor
  · exact modutf7toucFrom_uctoutf7Pass hText 0
  · intro b hMem
    exact uctoutf7Pass_printable hSpecials hMem

/- `a&` and a dot, which is special, and the euro sign. -/
theorem modutf7_roundtrip_dot : modutf7touc (uctomodutf7x [0x61, 0x26, 0x2E, 0x20AC] [0x2E]) =
        .ok [0x61, 0x26, 0x2E, 0x20AC] ∧
      ∀ b ∈ uctomodutf7x [0x61, 0x26, 0x2E, 0x20AC] [0x2E],
        32 ≤ b ∧ b < 127 ∧ b.toUInt32 ∉ [0x2E] :=
  modutf7_roundtrip _ _ (List.all_eq_true.mp (by decide))
    (List.forall_mem_singleton.mpr (by decide))

end Wmail.Unicode
