import Mathlib.Data.List.Forall2
import Mathlib.Data.List.TakeWhile
import Wmail.Unicode.Utf8

/-
  Decoding and encoding UTF-8 undo each other, but for
  sequences that are longer than they need to be.

  Key theorems include:
    * `utf8Tou_utf8Fromu`
    * `utf8Fromu_utf8Tou`
-/

------------
-- Texts
------------

namespace Wmail.Unicode

/- A sequence of bytes that is accepted, and its code point. -/
inductive Utf8Seq : List Byte → UnicodeChar → Prop where
  | ascii
      {b : Byte}
      (hLow : b &&& 0x80 = 0) :
      Utf8Seq [b] b.toUInt32
  | form
      {f : Utf8Form}
      {b : Byte}
      {conts : List Byte}
      (hForm : f ∈ utf8Forms)
      (hMark : b &&& f.test = f.mark)
      (hLength : conts.length = f.more)
      (hConts : ∀ c, c ∈ conts → c &&& 0xC0 = 0x80) :
      Utf8Seq (b :: conts) (conts.foldl pushBits (b &&& f.mask).toUInt32)

set_option maxRecDepth 20000 in
/- A first byte has one form. -/
theorem form_unique {f g : Utf8Form} (hF : f ∈ utf8Forms) (hG : g ∈ utf8Forms) :
    ∀ b : Byte, b &&& f.test = f.mark → b &&& g.test = g.mark → f = g := by
  simp only [utf8Forms, List.mem_cons, List.not_mem_nil, or_false] at hF hG
  rcases hF with rfl | rfl | rfl | rfl | rfl <;>
    rcases hG with rfl | rfl | rfl | rfl | rfl <;>
      first
      | exact fun _ _ _ => rfl
      | (apply byte_forall; decide)

theorem continued_append {n : Nat} {conts : List Byte} (hLength : conts.length = n)
    (hConts : ∀ c, c ∈ conts → c &&& 0xC0 = 0x80) (rest : List Byte) :
    continued n (conts ++ rest) = true := by
  unfold continued
  rw [← hLength, List.take_left, Bool.and_eq_true, decide_eq_true_iff, List.length_append]
  refine ⟨Nat.le_add_right _ _, ?_⟩
  exact List.all_eq_true.mpr fun c hMem => decide_eq_true (hConts c hMem)

/- The tests find the form of a sequence. -/
theorem utf8FormAt_append {f : Utf8Form} {b : Byte} {conts : List Byte}
    (hForm : f ∈ utf8Forms) (hMark : b &&& f.test = f.mark)
    (hLength : conts.length = f.more) (hConts : ∀ c, c ∈ conts → c &&& 0xC0 = 0x80)
    (rest : List Byte) : utf8FormAt b (conts ++ rest) = some f := by
  have hPass : (b &&& f.test = f.mark && continued f.more (conts ++ rest)) = true := by
    rw [continued_append hLength hConts, Bool.and_true]
    exact decide_eq_true hMark
  cases hFind : utf8FormAt b (conts ++ rest) with
  | none => exact absurd hPass (List.find?_eq_none.mp hFind f hForm)
  | some g =>
    have hOther := List.find?_some hFind
    rw [Bool.and_eq_true, decide_eq_true_iff] at hOther
    rw [form_unique (List.mem_of_find?_eq_some hFind) hForm b hOther.1 hMark]

/- Bytes that belong to the sequence before are passed. -/
theorem touCount_skip (ip : Bool) (l n : Nat) (conts rest : List Byte) :
    touCount ip l n conts.length (conts ++ rest) = touCount ip (l + conts.length) n 0 rest := by
  induction conts generalizing l with
  | nil => rfl
  | cons c conts ih =>
    rw [List.length_cons, List.cons_append, touCount, ih, Nat.add_assoc, Nat.add_comm 1]

theorem touFill_skip (conts rest : List Byte) :
    touFill conts.length (conts ++ rest) = touFill 0 rest := by
  induction conts with
  | nil => rfl
  | cons c conts ih => rw [List.length_cons, List.cons_append, touFill, ih]

variable {uc : UnicodeChar}

/- One sequence is counted, and one code point is stored. -/
theorem Utf8Seq.read {seq : List Byte} (hSeq : Utf8Seq seq uc) (rest : List Byte) :
    (∀ ip l n, touCount ip l n 0 (seq ++ rest) = touCount ip (l + seq.length) (n + 1) 0 rest) ∧
      touFill 0 (seq ++ rest) = uc :: touFill 0 rest := by
  cases hSeq with
  | ascii hLow =>
    constructor
    · intro ip l n
      rw [List.singleton_append, touCount, if_pos hLow]
      rfl
    · rw [List.singleton_append, touFill, if_pos hLow]
  | @form f b conts hForm hMark hLength hConts =>
    have hLong := (sane_forms f hForm).long b hMark
    have hFind := utf8FormAt_append hForm hMark hLength hConts rest
    constructor
    · intro ip l n
      rw [List.cons_append, touCount, if_neg hLong, hFind]
      simp only []
      rw [← hLength, touCount_skip, List.length_cons, Nat.add_assoc, Nat.add_comm 1]
    · rw [List.cons_append, touFill, if_neg hLong, hFind]
      simp only []
      rw [Utf8Form.value, ← hLength, List.take_left, touFill_skip]

/- What is accepted begins with a sequence. -/
theorem exists_utf8Seq {l n m : Nat} {b : Byte} {cp : List Byte}
    (hOk : touCount true l n 0 (b :: cp) = .ok m) :
    ∃ seq uc rest, b :: cp = seq ++ rest ∧ Utf8Seq seq uc := by
  rw [touCount] at hOk
  by_cases hLow : b &&& 0x80 = 0
  · exact ⟨[b], _, cp, rfl, .ascii hLow⟩
  rw [if_neg hLow] at hOk
  cases hFind : utf8FormAt b cp with
  | none =>
    rw [hFind] at hOk
    cases hOk
  | some f =>
    have hTests := List.find?_some hFind
    rw [Bool.and_eq_true, decide_eq_true_iff] at hTests
    rcases hTests with ⟨hMark, hContinued⟩
    unfold continued at hContinued
    rw [Bool.and_eq_true, decide_eq_true_iff] at hContinued
    refine ⟨b :: cp.take f.more, _, cp.drop f.more, ?_,
      .form (List.mem_of_find?_eq_some hFind) hMark ?_ ?_⟩
    · rw [List.cons_append, List.take_append_drop]
    · exact List.length_take_of_le hContinued.1
    · intro c hMem
      exact of_decide_eq_true (List.all_eq_true.mp hContinued.2 c hMem)

variable {seqs : List (List Byte)} {u : List UnicodeChar}

/- A row of sequences is accepted. -/
theorem touCount_sequences (hSeqs : List.Forall₂ Utf8Seq seqs u) (ip : Bool) (l n : Nat) :
    touCount ip l n 0 seqs.flatten = .ok (n + u.length) ∧ touFill 0 seqs.flatten = u := by
  induction hSeqs generalizing l n with
  | nil => exact ⟨rfl, rfl⟩
  | @cons seq uc seqs u hSeq hSeqs ih =>
    rcases hSeq.read seqs.flatten with ⟨hCount, hFill⟩
    rcases ih (l + seq.length) (n + 1) with ⟨hCounts, hFills⟩
    rw [List.flatten_cons, hCount, hCounts, hFill, hFills,
      List.length_cons, Nat.add_assoc, Nat.add_comm 1]
    exact ⟨rfl, rfl⟩

theorem exists_sequences {s : List Byte} {l n m : Nat} (hOk : touCount true l n 0 s = .ok m) :
    ∃ seqs u, s = seqs.flatten ∧ List.Forall₂ Utf8Seq seqs u := by
  induction hSize : s.length using Nat.strongRecOn generalizing s l n with
  | _ size ih =>
    cases s with
    | nil => exact ⟨[], [], rfl, .nil⟩
    | cons b cp =>
      rcases exists_utf8Seq hOk with ⟨seq, uc, rest, hText, hSeq⟩
      rw [hText, (hSeq.read rest).1] at hOk
      have hSome : 0 < seq.length := by
        cases hSeq <;> exact Nat.succ_pos _
      have hShorter : rest.length < size := by
        rw [← hSize, hText, List.length_append]
        omega
      rcases ih rest.length hShorter hOk rfl with ⟨seqs, u, hRest, hSeqs⟩
      refine ⟨seq :: seqs, uc :: u, ?_, .cons hSeq hSeqs⟩
      rw [hText, hRest, List.flatten_cons]

/- What is accepted is a row of sequences. -/
theorem utf8Tou_iff {s : List Byte} {u : List UnicodeChar} :
    utf8Tou true s = .ok u ↔ ∃ seqs, s = seqs.flatten ∧ List.Forall₂ Utf8Seq seqs u := by
  unfold utf8Tou
  constructor
  · intro hOk
    cases hCount : touCount true 0 1 0 s with
    | error place =>
      rw [hCount] at hOk
      cases hOk
    | ok n =>
      rcases exists_sequences hCount with ⟨seqs, u', rfl, hSeqs⟩
      rw [hCount, (touCount_sequences hSeqs true 0 1).2] at hOk
      cases hOk
      exact ⟨seqs, rfl, hSeqs⟩
  · rintro ⟨seqs, rfl, hSeqs⟩
    rcases touCount_sequences hSeqs true 0 1 with ⟨hCount, hFill⟩
    rw [hCount, hFill]
    rfl

------------
-- What Is Written
------------

/- What one code point is written as. -/
def utf8Bytes (uc : UnicodeChar) : List Byte :=
  match utf8FormOf uc with
  | none => [uc.toUInt8]
  | some f => f.bytes f.more uc

theorem length_bytes (f : Utf8Form) (n : Nat) (uc : UnicodeChar) :
    (f.bytes n uc).length = n + 1 := by
  induction n generalizing uc with
  | zero => rfl
  | succ n ih =>
    rw [Utf8Form.bytes, List.length_append, ih]
    rfl

theorem takeWhile_nonzero (hSome : uc ≠ 0) (cp : List UnicodeChar) : (uc :: cp).takeWhile (· ≠ 0) =
      uc :: cp.takeWhile (· ≠ 0) :=
  List.takeWhile_cons_of_pos (decide_eq_true hSome)

/- Both passes go through the same bytes. -/
theorem utf8FromuPass_eq (p : Bool) (l : Nat) (cp : List UnicodeChar) :
    let text := (cp.takeWhile (· ≠ 0)).flatMap utf8Bytes
    utf8FromuPass p l cp = (l + text.length, if p then text else []) := by
  induction cp generalizing l with
  | nil => cases p <;> rfl
  | cons uc cp ih =>
    unfold utf8FromuPass
    by_cases hZero : uc = 0
    · subst hZero
      cases p <;> rfl
    rw [if_neg hZero, takeWhile_nonzero hZero, List.flatMap_cons]
    cases hForm : utf8FormOf uc with
    | none =>
      have hBytes : utf8Bytes uc = [uc.toUInt8] := by rw [utf8Bytes, hForm]
      simp only []
      rw [ih, hBytes, List.length_append, Nat.add_assoc]
      cases p <;> rfl
    | some f =>
      have hBytes : utf8Bytes uc = f.bytes f.more uc := by rw [utf8Bytes, hForm]
      simp only []
      rw [ih, hBytes, List.length_append, length_bytes, Nat.add_assoc]
      cases p <;> rfl

theorem utf8Fromu_eq (cp : List UnicodeChar) : utf8Fromu cp =
      (cp.takeWhile (· ≠ 0)).flatMap utf8Bytes := by
  unfold utf8Fromu
  rw [utf8FromuPass_eq]
  rfl

theorem utf8Fromu_cons (hSome : uc ≠ 0) (cp : List UnicodeChar) :
    utf8Fromu (uc :: cp) = utf8Bytes uc ++ utf8Fromu cp := by
  rw [utf8Fromu_eq, utf8Fromu_eq, takeWhile_nonzero hSome, List.flatMap_cons]

/- A test of `unicode_utf8_fromu_pass`. -/
theorem eq_and_iff {n : Nat} {mask : UInt32} (hMask : mask.toNat = 2 ^ n - 1)
    (uc : UnicodeChar) : uc = uc &&& mask ↔ uc.toNat < 2 ^ n := by
  rw [← UInt32.toNat_inj, UInt32.toNat_and, hMask, Nat.and_two_pow_sub_one_eq_mod]
  constructor
  · intro hSame
    rw [hSame]
    exact Nat.mod_lt _ (Nat.two_pow_pos n)
  · intro hLess
    exact (Nat.mod_eq_of_lt hLess).symm

/- The forms are tried from the shortest on. -/
theorem utf8FormOf_eq (uc : UnicodeChar) : utf8FormOf uc =
      if uc.toNat < 2 ^ 7 then none
      else if uc.toNat < 2 ^ 11 then some twoBytes
      else if uc.toNat < 2 ^ 16 then some threeBytes
      else if uc.toNat < 2 ^ 21 then some fourBytes
      else if uc.toNat < 2 ^ 26 then some fiveBytes
      else some sixBytes := by
  unfold utf8FormOf
  simp only [@eq_and_iff 7 0x7F rfl, @eq_and_iff 11 0x7FF rfl, @eq_and_iff 16 0xFFFF rfl,
    @eq_and_iff 21 0x1FFFFF rfl, @eq_and_iff 26 0x3FFFFFF rfl]

/- The least code point that needs so many bytes. -/
def leastOf (length : Nat) : Nat :=
  match length with
  | 0 => 0
  | 1 => 0
  | 2 => 2 ^ 7
  | 3 => 2 ^ 11
  | 4 => 2 ^ 16
  | 5 => 2 ^ 21
  | _ => 2 ^ 26

/- A code point has the form that its size needs. -/
theorem utf8FormOf_spec (uc : UnicodeChar) : (utf8FormOf uc = none ∧ uc.toNat < 2 ^ 7) ∨
      ∃ f, utf8FormOf uc = some f ∧ f ∈ utf8Forms ∧ leastOf (f.more + 1) ≤ uc.toNat ∧
          (uc.toNat < 2 ^ 31 → uc.toNat < 2 ^ f.bits) := by
  rw [utf8FormOf_eq]
  by_cases hOne : uc.toNat < 2 ^ 7
  · exact Or.inl ⟨if_pos hOne, hOne⟩
  rw [if_neg hOne]
  right
  by_cases hTwo : uc.toNat < 2 ^ 11
  · exact ⟨twoBytes, if_pos hTwo, by decide, Nat.not_lt.mp hOne, fun _ => hTwo⟩
  rw [if_neg hTwo]
  by_cases hThree : uc.toNat < 2 ^ 16
  · exact ⟨threeBytes, if_pos hThree, by decide, Nat.not_lt.mp hTwo, fun _ => hThree⟩
  rw [if_neg hThree]
  by_cases hFour : uc.toNat < 2 ^ 21
  · exact ⟨fourBytes, if_pos hFour, by decide, Nat.not_lt.mp hThree, fun _ => hFour⟩
  rw [if_neg hFour]
  by_cases hFive : uc.toNat < 2 ^ 26
  · exact ⟨fiveBytes, if_pos hFive, by decide, Nat.not_lt.mp hFour, fun _ => hFive⟩
  rw [if_neg hFive]
  exact ⟨sixBytes, rfl, by decide, Nat.not_lt.mp hFive, id⟩

/- What a code point is written as is read as it. -/
theorem Utf8Seq.bytes (hRange : uc < 0x80000000) : Utf8Seq (utf8Bytes uc) uc := by
  have hBelow : uc.toNat < 2 ^ 31 := hRange
  unfold utf8Bytes
  rcases utf8FormOf_spec uc with ⟨hNone, hLess⟩ | ⟨f, hSome, hForm, _, hFits⟩
  · rw [hNone]
    have hByte : uc.toUInt8.toUInt32 = uc := by
      apply UInt32.toNat_inj.mp
      rw [UInt8.toNat_toUInt32, UInt32.toNat_toUInt8]
      omega
    have hLow : uc.toUInt8 &&& 0x80 = 0 := by
      have hSmall : uc.toUInt8.toNat < 128 := by
        rw [UInt32.toNat_toUInt8]
        omega
      exact (ascii_iff _).mpr hSmall
    have hSeq := Utf8Seq.ascii hLow
    rw [hByte] at hSeq
    exact hSeq
  · rw [hSome]
    have hSane := sane_forms f hForm
    have hMore := hSane.more_le
    have hBits : 6 - f.more + 6 * f.more = f.bits := by
      unfold Utf8Form.bits
      omega
    rcases bytes_shape hSane (hBits ▸ hFits hBelow) with
      ⟨b, conts, hBytes, hLength, hMark, hConts, hValue⟩
    have hSeq := Utf8Seq.form hForm hMark hLength hConts
    rw [hValue, ← hBytes] at hSeq
    exact hSeq

/- A sequence that is longer than its code point needs. -/
def Overlong (seq : List Byte) (uc : UnicodeChar) : Prop :=
  uc.toNat < leastOf seq.length

instance (seq : List Byte) (uc : UnicodeChar) : Decidable (Overlong seq uc) :=
  inferInstanceAs (Decidable (_ < _))

/- Forms are ordered by what they hold. -/
theorem form_of_least {f g : Utf8Form} (hF : f ∈ utf8Forms) (hG : g ∈ utf8Forms) {n : Nat}
    (hLeast : leastOf (g.more + 1) ≤ n) (hFits : n < 2 ^ f.bits) :
    g.more ≤ f.more ∧ (n < leastOf (f.more + 1) → g.more < f.more) := by
  simp only [utf8Forms, List.mem_cons, List.not_mem_nil, or_false] at hF hG
  rcases hF with rfl | rfl | rfl | rfl | rfl <;>
    rcases hG with rfl | rfl | rfl | rfl | rfl <;>
      simp only [twoBytes, threeBytes, fourBytes, fiveBytes,
        sixBytes, leastOf, Utf8Form.bits] at hLeast hFits ⊢ <;>
        omega

theorem form_of_more {f g : Utf8Form} (hF : f ∈ utf8Forms) (hG : g ∈ utf8Forms) :
    f.more = g.more → f = g := by
  simp only [utf8Forms, List.mem_cons, List.not_mem_nil, or_false] at hF hG
  rcases hF with rfl | rfl | rfl | rfl | rfl <;>
    rcases hG with rfl | rfl | rfl | rfl | rfl <;>
      decide

/- No form holds less than two bytes are for. -/
theorem least_of_form {f : Utf8Form} (hForm : f ∈ utf8Forms) :
    2 ^ 7 ≤ leastOf (f.more + 1) ∧ f.bits ≤ 31 ∧ 0 < f.more := by
  revert hForm f
  decide

/-
  A sequence is written again as it was, or it is overlong
  and what is written is shorter.
-/
theorem Utf8Seq.write {seq : List Byte} (hSeq : Utf8Seq seq uc) (hText : 0 ∉ seq) :
    (¬ Overlong seq uc ∧ uc ≠ 0 ∧ utf8Bytes uc = seq) ∨
      (Overlong seq uc ∧ (utf8Bytes uc).length < seq.length) := by
  cases hSeq with
  | @ascii b hLow =>
    left
    have hSmall := (ascii_iff b).mp hLow
    refine ⟨Nat.not_lt_zero _, ?_, ?_⟩
    · intro hZero
      have hByte : b = 0 := by
        rw [← UInt8.toUInt8_toUInt32 b, hZero]
        rfl
      exact hText (List.mem_singleton.mpr hByte.symm)
    · rcases utf8FormOf_spec b.toUInt32 with ⟨hNone, _⟩ | ⟨f, hSome, hForm, hLeast, _⟩
      · rw [utf8Bytes, hNone]
        simp only [UInt8.toUInt8_toUInt32]
      · have hMin := (least_of_form hForm).1
        rw [UInt8.toNat_toUInt32] at hLeast
        omega
  | @form f b conts hForm hMark hLength hConts =>
    rcases bytes_foldl (sane_forms f hForm) hMark hConts (Nat.le_of_eq hLength) with ⟨hRoom, hBytes⟩
    rcases least_of_form hForm with ⟨hMin, hBits, hPos⟩
    have hMore := (sane_forms f hForm).more_le
    generalize conts.foldl pushBits (b &&& f.mask).toUInt32 = uc at hRoom hBytes ⊢
    rw [hLength] at hRoom hBytes
    have hFits : uc.toNat < 2 ^ f.bits := by
      have hSame : 6 - f.more + 6 * f.more = f.bits := by
        unfold Utf8Form.bits
        omega
      rw [← hSame]
      exact hRoom
    unfold Overlong utf8Bytes
    rw [List.length_cons, hLength]
    rcases utf8FormOf_spec uc with ⟨hNone, hLess⟩ | ⟨g, hSome, hG, hLeast, hLarge⟩
    · rw [hNone]
      exact Or.inr ⟨Nat.lt_of_lt_of_le hLess hMin, Nat.succ_lt_succ hPos⟩
    rw [hSome]
    simp only [length_bytes]
    rcases form_of_least hForm hG hLeast hFits with ⟨hShorter, hOver⟩
    rcases Nat.lt_or_ge uc.toNat (leastOf (f.more + 1)) with hLong | hShort
    · exact Or.inr ⟨hLong, Nat.succ_lt_succ (hOver hLong)⟩
    · have hAll : uc.toNat < 2 ^ 31 :=
        Nat.lt_of_lt_of_le hFits (Nat.pow_le_pow_right (by decide) hBits)
      have hBack := (form_of_least hG hForm hShort (hLarge hAll)).1
      have hSame := form_of_more hG hForm (Nat.le_antisymm hShorter hBack)
      refine Or.inl ⟨Nat.not_lt.mpr hShort, ?_, ?_⟩
      · intro hZero
        rw [hZero] at hShort
        have hNothing : leastOf (f.more + 1) ≤ 0 := hShort
        omega
      · rw [hSame]
        exact hBytes

/-
  Code points are read back, and there is room for what is
  written.
-/
theorem utf8Tou_utf8Fromu (ip : Bool) {u : List UnicodeChar}
    (hRange : ∀ uc, uc ∈ u → uc ≠ 0 ∧ uc < 0x80000000) :
    utf8Tou ip (utf8Fromu u) = .ok u ∧ (utf8FromuPass true 0 u).2.length =
        (utf8FromuPass false 0 u).1 := by
  constructor
  · have hAll : u.takeWhile (· ≠ 0) = u :=
      List.takeWhile_eq_self_iff.mpr fun uc hMem => decide_eq_true (hRange uc hMem).1
    have hSeqs : List.Forall₂ Utf8Seq (u.map utf8Bytes) u := by
      apply List.forall₂_map_left_iff.mpr
      apply List.forall₂_same.mpr
      exact fun uc hMem => Utf8Seq.bytes (hRange uc hMem).2
    rcases touCount_sequences hSeqs ip 0 1 with ⟨hCount, hFill⟩
    unfold utf8Tou
    rw [utf8Fromu_eq, hAll, List.flatMap_def, hCount, hFill]
    rfl
  · rw [utf8FromuPass_eq, utf8FromuPass_eq]
    exact (Nat.zero_add _).symm

theorem utf8Tou_utf8Fromu_euro : utf8Tou true (utf8Fromu [0x20AC, 0x41]) = .ok [0x20AC, 0x41] ∧
      (utf8FromuPass true 0 [0x20AC, 0x41]).2.length =
        (utf8FromuPass false 0 [0x20AC, 0x41]).1 := by
  apply utf8Tou_utf8Fromu
  intro uc hMem
  rcases List.mem_pair.mp hMem with rfl | rfl
  · decide
  · decide

/- Nothing is written that is longer than what was read. -/
theorem length_utf8Fromu_le (hSeqs : List.Forall₂ Utf8Seq seqs u)
    (hText : 0 ∉ seqs.flatten) : (utf8Fromu u).length ≤ seqs.flatten.length := by
  induction hSeqs with
  | nil => exact Nat.le_refl 0
  | @cons seq uc seqs u hSeq hSeqs ih =>
    rw [List.flatten_cons, List.mem_append, not_or] at hText
    have hRest := ih hText.2
    rw [List.flatten_cons, List.length_append]
    by_cases hZero : uc = 0
    · subst hZero
      exact Nat.zero_le _
    rw [utf8Fromu_cons hZero, List.length_append]
    rcases hSeq.write hText.1 with ⟨_, _, hSame⟩ | ⟨_, hShorter⟩
    · rw [hSame]
      omega
    · omega

/- A row is written again when no sequence is overlong. -/
theorem utf8Fromu_sequences (hSeqs : List.Forall₂ Utf8Seq seqs u) (hText : 0 ∉ seqs.flatten) :
    utf8Fromu u = seqs.flatten ↔ List.Forall₂ (fun seq uc => ¬ Overlong seq uc) seqs u := by
  induction hSeqs with
  | nil => exact iff_of_true rfl .nil
  | @cons seq uc seqs u hSeq hSeqs ih =>
    rw [List.flatten_cons, List.mem_append, not_or] at hText
    rw [List.flatten_cons, List.forall₂_cons]
    rcases hSeq.write hText.1 with ⟨hShort, hSome, hSame⟩ | ⟨hLong, hShorter⟩
    · rw [utf8Fromu_cons hSome, hSame, List.append_cancel_left_eq, ih hText.2]
      exact (and_iff_right hShort).symm
    · refine iff_of_false ?_ (fun hBoth => hBoth.1 hLong)
      intro hEqual
      have hLength := congrArg List.length hEqual
      have hRest := length_utf8Fromu_le hSeqs hText.2
      rw [List.length_append] at hLength
      by_cases hZero : uc = 0
      · subst hZero
        have hNothing : (utf8Fromu (0 :: u)).length = 0 := rfl
        omega
      · rw [utf8Fromu_cons hZero, List.length_append] at hLength
        omega

/-
  What is accepted is a row of sequences, and it is written
  again as it was when none of them is overlong; only an
  overlong one hides an ASCII character.
-/
theorem utf8Fromu_utf8Tou {s : List Byte} {u : List UnicodeChar} (hText : 0 ∉ s)
    (hOk : utf8Tou true s = .ok u) :
    ∃ seqs, s = seqs.flatten ∧ List.Forall₂ Utf8Seq seqs u ∧ (utf8Fromu u = s ↔
          List.Forall₂ (fun seq uc => ¬ Overlong seq uc) seqs u) ∧
          ∀ seq uc, (seq, uc) ∈ seqs.zip u → 1 < seq.length → uc.toNat < 0x80 →
              Overlong seq uc := by
  rcases utf8Tou_iff.mp hOk with ⟨seqs, rfl, hSeqs⟩
  refine ⟨seqs, rfl, hSeqs, utf8Fromu_sequences hSeqs hText, ?_⟩
  intro seq uc hMem hLong hAscii
  have hSeq := List.forall₂_iff_zip.mp hSeqs |>.2 hMem
  cases hSeq with
  | ascii hLow => exact absurd hLong (Nat.lt_irrefl 1)
  | @form f b conts hForm hMark hLength hConts =>
    unfold Overlong
    rw [List.length_cons, hLength]
    exact Nat.lt_of_lt_of_le hAscii (least_of_form hForm).1

theorem utf8Fromu_utf8Tou_euro : ∃ seqs : List (List Byte),
      [0xE2, 0x82, 0xAC] = seqs.flatten ∧
        List.Forall₂ Utf8Seq seqs [0x20AC] ∧ (utf8Fromu [0x20AC] = [0xE2, 0x82, 0xAC] ↔
            List.Forall₂ (fun seq uc => ¬ Overlong seq uc) seqs [0x20AC]) ∧
            ∀ seq uc, (seq, uc) ∈ seqs.zip [0x20AC] → 1 < seq.length → uc.toNat < 0x80 →
                Overlong seq uc :=
  utf8Fromu_utf8Tou (by decide) rfl

/- A slash in two bytes is accepted. -/
theorem not_utf8Fromu_utf8Tou : ¬ ∀ (s : List Byte) (u : List UnicodeChar), 0 ∉ s →
      utf8Tou true s = .ok u → utf8Fromu u = s := by
  intro hAll
  have hSlash := hAll [0xC0, 0xAF] [0x2F] (by decide) rfl
  revert hSlash
  decide

end Wmail.Unicode
