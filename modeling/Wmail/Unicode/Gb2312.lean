import Wmail.Unicode.Utf7imap

/-
  Text in GB2312 and its code points (gb2312.c).

  The tables of gb2312.h are a parameter.  A C string is the
  list of its bytes, and a string of code points the list of
  these.  The first loops, which only count what memory is
  needed, are left out.

  Key theorems include:
    * `revlookup_pair`
    * `u2c_c2u_iff`
-/

namespace Wmail.Unicode

namespace Gb2312

/-
  The tables of gb2312.h.  The first one has a row for each
  first byte, and 0 where there is no character.
-/
structure Gb2312Tables where
  gb2312 : Byte → Byte → UnicodeChar
  revhashSize : UInt32
  revtableUc : List UnicodeChar
  revtableOctets : List UInt32
  revtableIndex : List Nat

/- A byte that begins a pair, when another one follows. -/
def isLead (a : Byte) : Bool :=
  0xB0 ≤ a && a ≤ 0xF7

/- The character of a pair, or 0. -/
def pairChar (t : Gb2312Tables) (a b : Byte) : UnicodeChar :=
  if 0xA1 ≤ b ∧ b < 0xFF then t.gb2312 (a - 0xB0) (b - 0xA1) else 0

/-
  `c2u`.  An error is the place that is stored in `err`, when
  that is not null.
-/
def c2uFrom (t : Gb2312Tables) (err : Bool) : Nat → List Byte → Except Nat (List UnicodeChar)
  | _, [] => .ok []
  | _, [a] => .ok [a.toUInt32]
  | i, a :: b :: cp =>
    if isLead a then
      if pairChar t a b ≠ 0 then
        (c2uFrom t err (i + 2) cp).map (pairChar t a b :: ·)
      else if err then
        .error (i + 1)
      else
        (c2uFrom t err (i + 2) cp).map (0xFFFD :: ·)
    else
      (c2uFrom t err (i + 1) (b :: cp)).map (a.toUInt32 :: ·)

def c2u (t : Gb2312Tables) (err : Bool) (cp : List Byte) : Except Nat (List UnicodeChar) :=
  c2uFrom t err 0 cp

/- The loop of `revlookup`, over the rest of both tables. -/
def revlookupLoop (t : Gb2312Tables) (c bucket : UInt32) : List (UnicodeChar × UInt32) → UInt32
  | [] => 0
  | (uuc, octets) :: rest =>
    if uuc = c then
      octets
    else if uuc % t.revhashSize ≠ bucket then
      0
    else
      revlookupLoop t c bucket rest

/- What is in the tables from an index on. -/
def Gb2312Tables.entries (t : Gb2312Tables) (bucket : UInt32) : List (UnicodeChar × UInt32) :=
  (t.revtableUc.zip t.revtableOctets).drop
    (t.revtableIndex.getD bucket.toNat 0)

/- `revlookup`. -/
def revlookup (t : Gb2312Tables) (c : UnicodeChar) : UInt32 :=
  let bucket := c % t.revhashSize
  revlookupLoop t c bucket (t.entries bucket)

/- `u2c`. -/
def u2cFrom (t : Gb2312Tables) (err : Bool) : Nat → List UnicodeChar → Except Nat (List Byte)
  | _, [] => .ok []
  | i, c :: cp =>
    if c = 0 then
      .ok []
    else if c.toInt32 < 0x80 then
      (u2cFrom t err (i + 1) cp).map (c.toUInt8 :: ·)
    else
      let uc := revlookup t c
      if uc = 0 then
        if err then .error i else (u2cFrom t err (i + 1) cp).map ([0xFF, 0xFF] ++ ·)
      else
        (u2cFrom t err (i + 1) cp).map
          ([(uc / 256).toUInt8, uc.toUInt8] ++ ·)

def u2c (t : Gb2312Tables) (err : Bool) (cp : List UnicodeChar) : Except Nat (List Byte) :=
  u2cFrom t err 0 cp

/-
  The tables are inverse of each other: the entry of each
  character of a pair is found in its bucket.
-/
structure Gb2312Tables.Inverse (t : Gb2312Tables) : Prop where
  range : ∀ a b, isLead a = true → pairChar t a b ≠ 0 →
      0x80 ≤ (pairChar t a b).toNat ∧ (pairChar t a b).toNat < 2 ^ 31
  entry : ∀ a b, isLead a = true → pairChar t a b ≠ 0 →
      let c := pairChar t a b
      ∃ before octets after, t.entries (c % t.revhashSize) = before ++ (c, octets) :: after ∧
        octets.toNat = a.toNat * 256 + b.toNat ∧
        ∀ e, e ∈ before → e.1 ≠ c ∧ e.1 % t.revhashSize = c % t.revhashSize

variable {t : Gb2312Tables}

/- A bucket is gone through up to the entry. -/
theorem revlookupLoop_append {c octets : UInt32} {before after : List (UnicodeChar × UInt32)}
    (hBefore : ∀ e, e ∈ before → e.1 ≠ c ∧ e.1 % t.revhashSize = c % t.revhashSize) :
    revlookupLoop t c (c % t.revhashSize) (before ++ (c, octets) :: after) = octets := by
  induction before with
  | nil => exact if_pos rfl
  | cons e before ih =>
    rcases hBefore e List.mem_cons_self with ⟨hOther, hBucket⟩
    rw [List.cons_append, revlookupLoop, if_neg hOther, if_neg (fun hNot => hNot hBucket)]
    exact ih fun e hMem => hBefore e (List.mem_cons_of_mem _ hMem)

/- The bytes of a pair are found again. -/
theorem revlookup_pair (hInverse : t.Inverse) {a b : Byte} (hLead : isLead a = true)
    (hSome : pairChar t a b ≠ 0) :
    revlookup t (pairChar t a b) ≠ 0 ∧ (revlookup t (pairChar t a b) / 256).toUInt8 = a ∧
        (revlookup t (pairChar t a b)).toUInt8 = b := by
  rcases hInverse.entry a b hLead hSome with ⟨before, octets, after, hEntries, hOctets, hBefore⟩
  have hFound : revlookup t (pairChar t a b) = octets := by
    unfold revlookup
    simp only []
    rw [hEntries]
    exact revlookupLoop_append hBefore
  have hHigh : 0xB0 ≤ a.toNat := by
    unfold isLead at hLead
    rw [Bool.and_eq_true, decide_eq_true_iff] at hLead
    exact hLead.1
  have hA := a.toNat_lt
  have hB := b.toNat_lt
  rw [hFound]
  refine ⟨?_, ?_, ?_⟩
  · intro hZero
    rw [hZero] at hOctets
    have hNothing : a.toNat * 256 + b.toNat = 0 := hOctets.symm
    omega
  · apply UInt8.toNat_inj.mp
    have hBase : (256 : UInt32).toNat = 256 := rfl
    rw [UInt32.toNat_toUInt8, UInt32.toNat_div, hOctets, hBase]
    omega
  · apply UInt8.toNat_inj.mp
    rw [UInt32.toNat_toUInt8, hOctets]
    omega

/- The bytes that `c2u` takes on their own. -/
def loneBytes : List Byte → List Byte
  | [] => []
  | [a] => [a]
  | a :: b :: cp =>
    if isLead a then loneBytes cp else a :: loneBytes (b :: cp)

theorem toInt32_lt_iff {c : UnicodeChar} (hRange : c.toNat < 2 ^ 31) :
    c.toInt32 < 0x80 ↔ c.toNat < 0x80 := by
  have hValue : c.toInt32.toInt = c.toNat :=
    BitVec.toInt_eq_toNat_of_lt (x := c.toBitVec) (by
      have hSame : c.toBitVec.toNat = c.toNat := rfl
      omega)
  rw [Int32.lt_iff_toInt_lt, hValue]
  exact Int.ofNat_lt

/- A character goes back to the bytes that it had. -/
theorem u2cFrom_pair (hInverse : t.Inverse) {a b : Byte} (hLead : isLead a = true)
    (hSome : pairChar t a b ≠ 0) (i : Nat) (u : List UnicodeChar) :
    u2cFrom t true i (pairChar t a b :: u) = (u2cFrom t true (i + 1) u).map ([a, b] ++ ·) := by
  rcases revlookup_pair hInverse hLead hSome with ⟨hFound, hHigh, hLow⟩
  rcases hInverse.range a b hLead hSome with ⟨hMin, hMax⟩
  have hTwo : ¬ (pairChar t a b).toInt32 < 0x80 := by
    rw [toInt32_lt_iff hMax]
    exact Nat.not_lt.mpr hMin
  rw [u2cFrom, if_neg hSome, if_neg hTwo]
  simp only []
  rw [if_neg hFound, hHigh, hLow]

/- A lone byte goes back when it is ASCII. -/
theorem u2cFrom_lone {a : Byte} (hText : a ≠ 0) (i : Nat) (u : List UnicodeChar) : (a < 0x80 ∧
      u2cFrom t true i (a.toUInt32 :: u) = (u2cFrom t true (i + 1) u).map (a :: ·)) ∨
    (¬ a < 0x80 ∧
      ∀ out, u2cFrom t true i (a.toUInt32 :: u) = .ok out →
        ∃ x y more, out = x :: y :: more ∧ u2cFrom t true (i + 1) u = .ok more) := by
  have hRange : a.toUInt32.toNat < 2 ^ 31 := by
    have hLess := a.toNat_lt
    rw [UInt8.toNat_toUInt32]
    omega
  have hSome : a.toUInt32 ≠ 0 := by
    intro hZero
    apply hText
    rw [← UInt8.toUInt8_toUInt32 a, hZero]
    rfl
  have hSmall : a.toUInt32.toInt32 < 0x80 ↔ a < 0x80 := by
    rw [toInt32_lt_iff hRange, UInt8.toNat_toUInt32]
    exact Iff.rfl
  rw [u2cFrom, if_neg hSome]
  by_cases hAscii : a < 0x80
  · rw [if_pos (hSmall.mpr hAscii), UInt8.toUInt8_toUInt32]
    exact Or.inl ⟨hAscii, rfl⟩
  · rw [if_neg (fun hLess => hAscii (hSmall.mp hLess))]
    refine Or.inr ⟨hAscii, ?_⟩
    intro out hOut
    simp only [] at hOut
    split at hOut
    · cases hOut
    · cases hMore : u2cFrom t true (i + 1) u with
      | error place =>
        rw [hMore] at hOut
        cases hOut
      | ok more =>
        rw [hMore] at hOut
        cases hOut
        exact ⟨_, _, more, rfl, rfl⟩

/-
  What comes back of a text with these lone bytes: the text,
  when all of them are ASCII, and something longer otherwise.
-/
structure Returned (t : Gb2312Tables) (s lone : List Byte) (u : List UnicodeChar) (i : Nat) :
    Prop where
  same : (∀ b, b ∈ lone → b < 0x80) → u2cFrom t true i u = .ok s
  length_le : ∀ out, u2cFrom t true i u = .ok out → s.length ≤ out.length
  length_lt : ∀ out, u2cFrom t true i u = .ok out →
      (∃ b, b ∈ lone ∧ ¬ b < 0x80) → s.length < out.length

theorem returned_nil (t : Gb2312Tables) (i : Nat) : Returned t [] [] [] i where
  same := fun _ => rfl
  length_le := fun _ _ => Nat.zero_le _
  length_lt := fun _ _ hHigh => absurd hHigh.choose_spec.1 List.not_mem_nil

variable {u : List UnicodeChar}

/- Bytes in front that go back as they are. -/
theorem Returned.append {s lone front alone : List Byte} {c : UnicodeChar} {i : Nat}
    (hReturned : Returned t s lone u (i + 1)) (hAlone : ∀ b, b ∈ alone → b < 0x80)
    (hSame : u2cFrom t true i (c :: u) = (u2cFrom t true (i + 1) u).map (front ++ ·)) :
    Returned t (front ++ s) (alone ++ lone) (c :: u) i := by
  have hOut : ∀ out, u2cFrom t true i (c :: u) = .ok out →
      ∃ more, u2cFrom t true (i + 1) u = .ok more ∧ out = front ++ more := by
    intro out hOk
    rw [hSame] at hOk
    cases hMore : u2cFrom t true (i + 1) u with
    | error place =>
      rw [hMore] at hOk
      cases hOk
    | ok more =>
      rw [hMore] at hOk
      cases hOk
      exact ⟨more, rfl, rfl⟩
  refine ⟨?_, ?_, ?_⟩
  · intro hAll
    rw [hSame, hReturned.same (fun b hMem => hAll b (List.mem_append_right _ hMem))]
    rfl
  · intro out hOk
    rcases hOut out hOk with ⟨more, hMore, rfl⟩
    have hLength := hReturned.length_le more hMore
    rw [List.length_append, List.length_append]
    omega
  · rintro out hOk ⟨b, hMem, hHigh⟩
    rcases hOut out hOk with ⟨more, hMore, rfl⟩
    rcases List.mem_append.mp hMem with hFront | hRest
    · exact absurd (hAlone b hFront) hHigh
    · have hLength := hReturned.length_lt more hMore ⟨b, hRest, hHigh⟩
      rw [List.length_append, List.length_append]
      omega

theorem Returned.lone {s lone : List Byte} {a : Byte} {i : Nat}
    (hReturned : Returned t s lone u (i + 1)) (hText : a ≠ 0) :
    Returned t (a :: s) (a :: lone) (a.toUInt32 :: u) i := by
  rcases u2cFrom_lone (t := t) hText i u with ⟨hAscii, hSame⟩ | ⟨hHigh, hLonger⟩
  · have hAlone : ∀ b, b ∈ [a] → b < 0x80 := by
      intro b hMem
      rw [List.mem_singleton.mp hMem]
      exact hAscii
    have hFront : u2cFrom t true i (a.toUInt32 :: u) = (u2cFrom t true (i + 1) u).map ([a] ++ ·) :=
      hSame
    exact hReturned.append hAlone hFront
  · refine ⟨?_, ?_, ?_⟩
    · intro hAll
      exact absurd (hAll a List.mem_cons_self) hHigh
    · intro out hOut
      rcases hLonger out hOut with ⟨x, y, more, rfl, hMore⟩
      have hLength := hReturned.length_le more hMore
      simp only [List.length_cons]
      omega
    · intro out hOut _
      rcases hLonger out hOut with ⟨x, y, more, rfl, hMore⟩
      have hLength := hReturned.length_le more hMore
      simp only [List.length_cons]
      omega

theorem returned_c2uFrom (hInverse : t.Inverse) {err : Bool} {i : Nat} {s : List Byte}
    (hText : 0 ∉ s) (hErr : err = true) (hOk : c2uFrom t err i s = .ok u) (j : Nat) :
    Returned t s (loneBytes s) u j := by
  fun_induction c2uFrom t err i s generalizing u j with
  | case1 =>
    cases hOk
    exact returned_nil t j
  | case2 i a =>
    cases hOk
    have hSome : a ≠ 0 := fun hZero => hText (List.mem_singleton.mpr hZero.symm)
    exact (returned_nil t (j + 1)).lone hSome
  | case3 i a b cp hLead hSome ih =>
    rw [List.mem_cons, not_or, List.mem_cons, not_or] at hText
    cases hRest : c2uFrom t err (i + 2) cp with
    | error place =>
      rw [hRest] at hOk
      cases hOk
    | ok rest =>
      rw [hRest] at hOk
      cases hOk
      have hNone : ∀ b, b ∈ ([] : List Byte) → b < 0x80 := nofun
      have hBack := (ih hText.2.2 hRest (j + 1)).append hNone
        (u2cFrom_pair hInverse hLead hSome j rest)
      rw [loneBytes, if_pos hLead]
      exact hBack
  | case4 i a b cp hLead hNone hYes => cases hOk
  | case5 i a b cp hLead hNone hNo ih => exact absurd hErr hNo
  | case6 i a b cp hLead ih =>
    rw [List.mem_cons, not_or] at hText
    cases hRest : c2uFrom t err (i + 1) (b :: cp) with
    | error place =>
      rw [hRest] at hOk
      cases hOk
    | ok rest =>
      rw [hRest] at hOk
      cases hOk
      rw [loneBytes, if_neg hLead]
      exact (ih hText.2 hRest (j + 1)).lone (fun hZero => hText.1 hZero.symm)

/-
  What is accepted comes back without an error when all lone
  bytes are ASCII, and only then.
-/
theorem u2c_c2u_iff (hInverse : t.Inverse) {s : List Byte} {u : List UnicodeChar}
    (hText : 0 ∉ s) (hOk : c2u t true s = .ok u) :
    u2c t true u = .ok s ↔ ∀ b, b ∈ loneBytes s → b < 0x80 := by
  have hBack := returned_c2uFrom hInverse hText rfl hOk 0
  refine ⟨?_, hBack.same⟩
  intro hSame b hMem
  by_contra hHigh
  exact Nat.lt_irrefl _ (hBack.length_lt s hSame ⟨b, hMem, hHigh⟩)

/- The tables, with their first character only. -/
def firstCharacter : Gb2312Tables where
  gb2312 a b := if a = 0 ∧ b = 0 then 21834 else 0
  revhashSize := 1
  revtableUc := [21834]
  revtableOctets := [0xB0A1]
  revtableIndex := [0]

theorem inverse_firstCharacter : firstCharacter.Inverse := by
  have hOnly : ∀ a b : Byte, pairChar firstCharacter a b ≠ 0 → a = 0xB0 ∧ b = 0xA1 := by
    intro a b hSome
    unfold pairChar firstCharacter at hSome
    split at hSome
    · simp only [ne_eq, ite_eq_right_iff, not_forall] at hSome
      rcases hSome with ⟨⟨hA, hB⟩, _⟩
      rw [← UInt8.sub_add_cancel a 0xB0, hA, ← UInt8.sub_add_cancel b 0xA1, hB]
      exact ⟨rfl, rfl⟩
    · exact absurd rfl hSome
  constructor
  · intro a b _ hSome
    rcases hOnly a b hSome with ⟨rfl, rfl⟩
    decide
  · intro a b _ hSome
    rcases hOnly a b hSome with ⟨rfl, rfl⟩
    exact ⟨[], 0xB0A1, [], by decide, by decide, nofun⟩

theorem u2c_c2u_firstCharacter : u2c firstCharacter true [21834, 0x41] = .ok [0xB0, 0xA1, 0x41] ↔
      ∀ b, b ∈ loneBytes [0xB0, 0xA1, 0x41] → b < 0x80 :=
  u2c_c2u_iff inverse_firstCharacter (by decide) rfl

/- A lone byte is passed through, and not taken back. -/
theorem not_u2c_c2u : ¬ ∀ t : Gb2312Tables, t.Inverse →
      ∀ (s : List Byte) (u : List UnicodeChar), 0 ∉ s →
        c2u t true s = .ok u → u2c t true u = .ok s := by
  intro hAll
  have hLone := hAll firstCharacter inverse_firstCharacter [0x80]
    [0x80] (by decide) rfl
  cases hLone

end Gb2312

end Wmail.Unicode
