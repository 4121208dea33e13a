import Wmail.Gpglib.Mimegpg

/-
  The signature of a multipart/signed entity, which may be
  quoted-printable (mimegpg.c).

  The loop passes over five characters for an escape, not
  over three.

  Key theorems include:
    * `signatureLine_eq`
    * `signatureLoop_iff`
-/

namespace Wmail.Gpglib

open Authlib (cString)

/- The table of `nybble`. -/
def hexDigits : List Byte :=
  bytes "0123456789ABCDEFabcdef"

/- `nybble`; `strchr` finds the terminator, too. -/
def nybble (c : Byte) : Nat :=
  let n := if c ∈ hexDigits ∨ c = 0 then hexDigits.idxOf c else 0
  if 16 ≤ n then n - 6 else n

/-
  The loop of `checksign` over a quoted-printable line, with
  `skip` characters to pass over; none if it goes beyond the
  terminator.
-/
def signatureLine : Nat → List Byte → Option (List Byte)
  | 0, [] => some []
  | _ + 1, [] => none
  | skip + 1, _ :: rest => signatureLine skip rest
  | 0, c :: rest =>
    if c = chr '=' ∧ rest.head? = some nl then
      some []
    else
      match (if c = chr '=' then rest else []) with
      | h :: l :: _ =>
        let n := UInt8.ofNat (nybble h * 16 + nybble l)
        if n ≠ 0 then (signatureLine 4 rest).map (n :: ·) else signatureLine 2 rest
      | _ => (signatureLine 0 rest).map (c :: ·)

/- The loop of `checksign` that writes the signature file. -/
def signatureLoop (stack : MimeStack) (qpdecode : Bool) : List (List Byte) → Option (List Byte)
  | [] => some []
  | piece :: rest =>
    let buf := cString piece
    if (isBoundary stack buf).isSome then
      some []
    else
      (if qpdecode then signatureLine 0 buf else some buf).bind fun out =>
        (signatureLoop stack qpdecode rest).map (out ++ ·)

/- The value of a digit. -/
def hexValue (c : Byte) : Byte :=
  if c ≤ chr '9' then
    c - chr '0'
  else if c ≤ chr 'F' then
    c - chr 'A' + 10
  else
    c - chr 'a' + 10

/- A character that stands for itself, or `=HH`. -/
inductive QpToken where
  | literal (b : Byte)
  | escape (h l : Byte)

namespace QpToken

def text : QpToken → List Byte
  | literal b => [b]
  | escape h l => [chr '=', h, l]

def decoded : QpToken → Byte
  | literal b => b
  | escape h l => hexValue h * 16 + hexValue l

/- There are no escapes for NUL. -/
def WellFormed : QpToken → Prop
  | literal b => b ≠ chr '=' ∧ b ≠ nl ∧ b ≠ 0
  | escape h l => h ∈ hexDigits ∧ l ∈ hexDigits ∧ (escape h l).decoded ≠ 0

instance : DecidablePred WellFormed
  | literal b => inferInstanceAs (Decidable (b ≠ chr '=' ∧ b ≠ nl ∧ b ≠ 0))
  | escape h l => inferInstanceAs
      (Decidable (h ∈ hexDigits ∧ l ∈ hexDigits ∧ (escape h l).decoded ≠ 0))

end QpToken

/- Only the last line of a file may have no end. -/
inductive LineEnd where
  | hard
  | soft
  | missing
deriving DecidableEq

namespace LineEnd

def text : LineEnd → List Byte
  | hard => [nl]
  | soft => [chr '=', nl]
  | missing => []

def decoded : LineEnd → List Byte
  | hard => [nl]
  | soft => []
  | missing => []

end LineEnd

structure QpLine where
  tokens : List QpToken
  ending : LineEnd

namespace QpLine

def text (line : QpLine) : List Byte :=
  line.tokens.flatMap QpToken.text ++ line.ending.text

def decoded (line : QpLine) : List Byte :=
  line.tokens.map QpToken.decoded ++ line.ending.decoded

end QpLine

/-
  Behind an escape stands the soft end, or an escape `=3D`
  with a decimal digit D, or `3` and such an escape; what
  follows is the same again.
-/
def Aligned (ending : LineEnd) : List QpToken → Prop
  | [] => True
  | .literal _ :: ts => Aligned ending ts
  | [.escape _ _] => ending = .soft
  | .escape _ _ :: .escape m n :: ts => m = chr '3' ∧ isdigit n ∧ Aligned ending ts
  | [.escape _ _, .literal _] => False
  | .escape _ _ :: .literal _ :: .literal _ :: _ => False
  | .escape _ _ :: .literal b :: .escape m n :: ts =>
    b = chr '3' ∧ m = chr '3' ∧ isdigit n ∧ Aligned ending ts

------------
-- One Line
------------

/- What the loop writes of a line, by its tokens. -/
def lineTokens (ending : LineEnd) : List QpToken → Option (List Byte)
  | [] => some ending.decoded
  | .literal b :: ts => (lineTokens ending ts).map (b :: ·)
  | [.escape h l] => (signatureLine 2 ending.text).map ((QpToken.escape h l).decoded :: ·)
  | .escape h l :: .escape _ n :: ts =>
    (lineTokens ending ts).map fun out => (QpToken.escape h l).decoded :: n :: out
  | [.escape h l, .literal _] =>
    (signatureLine 1 ending.text).map ((QpToken.escape h l).decoded :: ·)
  | .escape h l :: .literal _ :: .literal _ :: ts =>
    (lineTokens ending ts).map ((QpToken.escape h l).decoded :: ·)
  | .escape h l :: .literal _ :: .escape m n :: ts =>
    (lineTokens ending ts).map fun out => (QpToken.escape h l).decoded :: m :: n :: out

theorem nybble_eq {h l : Byte} (hH : h ∈ hexDigits) (hL : l ∈ hexDigits) :
    UInt8.ofNat (nybble h * 16 + nybble l) = hexValue h * 16 + hexValue l := by
  have hAll : hexDigits.all (fun h => hexDigits.all fun l =>
      UInt8.ofNat (nybble h * 16 + nybble l) = hexValue h * 16 + hexValue l) = true := by
    decide +kernel
  exact of_decide_eq_true (List.all_eq_true.mp (List.all_eq_true.mp hAll h hH) l hL)

/- An escape that stands for its own second digit. -/
theorem digit_eq_iff {m n : Byte} (hM : m ∈ hexDigits) (hN : n ∈ hexDigits) :
    n = hexValue m * 16 + hexValue n ↔ m = chr '3' ∧ isdigit n := by
  have hAll : hexDigits.all (fun m => hexDigits.all fun n =>
      n = hexValue m * 16 + hexValue n ↔ m = chr '3' ∧ isdigit n) = true := by
    decide +kernel
  exact of_decide_eq_true (List.all_eq_true.mp (List.all_eq_true.mp hAll m hM) n hN)

theorem hexDigit_plain {h : Byte} (hH : h ∈ hexDigits) : h ≠ chr '=' ∧ h ≠ nl ∧ h ≠ 0 := by
  have hAll : hexDigits.all (fun h => h ≠ chr '=' ∧ h ≠ nl ∧ h ≠ 0) = true := by decide +kernel
  exact of_decide_eq_true (List.all_eq_true.mp hAll h hH)

theorem signatureLine_char {c : Byte} (hC : c ≠ chr '=') (rest : List Byte) :
    signatureLine 0 (c :: rest) = (signatureLine 0 rest).map (c :: ·) := by
  rw [signatureLine, if_neg (fun hBoth => hC hBoth.1), if_neg hC]

theorem signatureLine_escape {h l : Byte} (hToken : (QpToken.escape h l).WellFormed)
    (rest : List Byte) :
    signatureLine 0 (chr '=' :: h :: l :: rest) =
      (signatureLine 2 rest).map ((QpToken.escape h l).decoded :: ·) := by
  rcases hToken with ⟨hH, hL, hValue⟩
  have hNl : ¬ (chr '=' = chr '=' ∧ (h :: l :: rest).head? = some nl) :=
    fun hBoth => (hexDigit_plain hH).2.1 (Option.some.inj hBoth.2)
  rw [signatureLine, if_neg hNl, if_pos rfl]
  dsimp only
  rw [nybble_eq hH hL]
  exact if_pos hValue

theorem signatureLine_end (ending : LineEnd) :
    signatureLine 0 ending.text = some ending.decoded := by
  cases ending with
  | hard => rfl
  | soft => rfl
  | missing => rfl

theorem signatureLine_eq (ending : LineEnd) {ts : List QpToken}
    (hTokens : ∀ t ∈ ts, t.WellFormed) :
    signatureLine 0 (ts.flatMap QpToken.text ++ ending.text) = lineTokens ending ts := by
  induction ts using lineTokens.induct with
  | case1 => exact signatureLine_end ending
  | case2 b ts ih =>
    rcases List.forall_mem_cons.mp hTokens with ⟨hB, hRest⟩
    rw [lineTokens, ← ih hRest]
    exact signatureLine_char hB.1 _
  | case3 h l => exact signatureLine_escape (hTokens _ List.mem_cons_self) ending.text
  | case4 h l m n ts ih =>
    rcases List.forall_mem_cons.mp hTokens with ⟨hFirst, hMore⟩
    rcases List.forall_mem_cons.mp hMore with ⟨hSecond, hRest⟩
    have hNext := signatureLine_char (hexDigit_plain hSecond.2.1).1
      (ts.flatMap QpToken.text ++ ending.text)
    rw [ih hRest] at hNext
    refine (signatureLine_escape hFirst _).trans ?_
    exact (congrArg (Option.map _) hNext).trans (Option.map_map _ _ _)
  | case5 h l b => exact signatureLine_escape (hTokens _ List.mem_cons_self) (b :: ending.text)
  | case6 h l a b ts ih =>
    rcases List.forall_mem_cons.mp hTokens with ⟨hFirst, hMore⟩
    rw [lineTokens, ← ih fun t hT => hMore t (List.mem_cons_of_mem _ (List.mem_cons_of_mem _ hT))]
    exact signatureLine_escape hFirst _
  | case7 h l b m n ts ih =>
    rcases List.forall_mem_cons.mp hTokens with ⟨hFirst, hMore⟩
    rcases List.forall_mem_cons.mp (List.forall_mem_cons.mp hMore).2 with ⟨hThird, hRest⟩
    have hLast := signatureLine_char (hexDigit_plain hThird.2.1).1
      (ts.flatMap QpToken.text ++ ending.text)
    have hNext := signatureLine_char (hexDigit_plain hThird.1).1
      (n :: (ts.flatMap QpToken.text ++ ending.text))
    rw [hLast, ih hRest, Option.map_map] at hNext
    refine (signatureLine_escape hFirst _).trans ?_
    exact (congrArg (Option.map _) hNext).trans (Option.map_map _ _ _)

/- Nothing is written that would make a line longer. -/
theorem length_lineTokens {ending : LineEnd} {ts : List QpToken} {out : List Byte}
    (hOut : lineTokens ending ts = some out) : out.length ≤ ts.length + ending.decoded.length := by
  induction ts using lineTokens.induct generalizing out with
  | case1 => grind [lineTokens, Option.map_eq_some_iff]
  | case2 b ts ih => grind [lineTokens, Option.map_eq_some_iff]
  | case3 h l =>
    rcases Option.map_eq_some_iff.mp hOut with ⟨more, hMore, rfl⟩
    cases ending with
    | hard => cases hMore
    | soft =>
      cases hMore
      simp
    | missing => cases hMore
  | case4 h l m n ts ih => grind [lineTokens, Option.map_eq_some_iff]
  | case5 h l b =>
    rcases Option.map_eq_some_iff.mp hOut with ⟨more, hMore, rfl⟩
    cases ending with
    | hard =>
      cases hMore
      exact Nat.le_add_right_of_le (Nat.le_succ 1)
    | soft =>
      cases hMore
      exact Nat.le_refl 2
    | missing => cases hMore
  | case6 h l a b ts ih => grind [lineTokens, Option.map_eq_some_iff]
  | case7 h l b m n ts ih => grind [lineTokens, Option.map_eq_some_iff]

/- The line is decoded where it is aligned. -/
theorem lineTokens_iff {ending : LineEnd} {ts : List QpToken} (hTokens : ∀ t ∈ ts, t.WellFormed) :
    lineTokens ending ts = some (ts.map QpToken.decoded ++ ending.decoded) ↔
      Aligned ending ts := by
  induction ts using lineTokens.induct with
  | case1 => simp [lineTokens, Aligned]
  | case2 b ts ih =>
    rw [Aligned, ← ih (List.forall_mem_cons.mp hTokens).2]
    simp [lineTokens, QpToken.decoded]
  | case3 h l =>
    cases ending with
    | hard => simp [lineTokens, Aligned, LineEnd.text, signatureLine]
    | soft => simp [lineTokens, Aligned, LineEnd.decoded, LineEnd.text, signatureLine]
    | missing => simp [lineTokens, Aligned, LineEnd.text, signatureLine]
  | case4 h l m n ts ih =>
    rcases List.forall_mem_cons.mp (List.forall_mem_cons.mp hTokens).2 with ⟨hSecond, hRest⟩
    rw [Aligned, ← ih hRest, ← and_assoc, ← digit_eq_iff hSecond.1 hSecond.2.1]
    simp [lineTokens, QpToken.decoded, and_comm]
  | case5 h l b =>
    have hB := (hTokens _ (List.mem_cons_of_mem _ List.mem_cons_self)).2.1
    cases ending with
    | hard => simp [lineTokens, Aligned, LineEnd.text, signatureLine]
    | soft =>
      simp [lineTokens, Aligned, LineEnd.decoded, QpToken.decoded, Ne.symm hB, LineEnd.text,
        signatureLine]
    | missing => simp [lineTokens, Aligned, LineEnd.text, signatureLine]
  | case6 h l a b ts ih =>
    rw [Aligned, iff_false]
    intro hEq
    rcases Option.map_eq_some_iff.mp hEq with ⟨more, hMore, hSame⟩
    have hLength := length_lineTokens hMore
    have hMany := congrArg List.length hSame
    simp only [List.length_append, List.length_cons, List.length_map] at hMany
    omega
  | case7 h l b m n ts ih =>
    rcases List.forall_mem_cons.mp (List.forall_mem_cons.mp hTokens).2 with ⟨hSecond, hMore⟩
    rcases List.forall_mem_cons.mp hMore with ⟨hThird, hRest⟩
    have hDigit := digit_eq_iff hThird.1 hThird.2.1
    rw [Aligned, ← ih hRest]
    simp only [lineTokens, Option.map_eq_some_iff, List.map_cons, List.cons_append,
      List.cons.injEq, QpToken.decoded, true_and, hDigit]
    grind

namespace QpLine

/- A line of the part; as it is short, it is a piece. -/
structure IsPart (stack : MimeStack) (line : QpLine) : Prop where
  tokens : ∀ t ∈ line.tokens, t.WellFormed
  inside : isBoundary stack line.text = none

variable {line : QpLine}

theorem cString_text (hTokens : ∀ t ∈ line.tokens, t.WellFormed) :
    cString line.text = line.text := by
  apply Authlib.cString_eq_self
  intro hMem
  rcases List.mem_append.mp hMem with hIn | hEnd
  · rcases List.mem_flatMap.mp hIn with ⟨t, hT, hZero⟩
    have hToken := hTokens t hT
    cases t with
    | literal b => exact hToken.2.2 (List.mem_singleton.mp hZero).symm
    | escape h l =>
      rcases List.mem_cons.mp hZero with hEq | hMore
      · cases hEq
      · rcases List.mem_cons.mp hMore with hH | hL
        · exact (hexDigit_plain hToken.1).2.2 hH.symm
        · exact (hexDigit_plain hToken.2.1).2.2 (List.mem_singleton.mp hL).symm
  · revert hEnd
    cases line.ending with
    | hard => decide
    | soft => decide
    | missing => decide

theorem signatureLine_text (hTokens : ∀ t ∈ line.tokens, t.WellFormed) :
    signatureLine 0 line.text = lineTokens line.ending line.tokens :=
  signatureLine_eq line.ending hTokens

end QpLine

/- Outputs that are not too long make up the text if each of them does. -/
theorem bind_eq_iff {x y : Option (List Byte)} {d e : List Byte}
    (hX : ∀ out, x = some out → out.length ≤ d.length)
    (hY : ∀ out, y = some out → out.length ≤ e.length) :
    (x.bind fun out => y.map (out ++ ·)) = some (d ++ e) ↔ x = some d ∧ y = some e := by
  constructor
  · intro hBoth
    rcases Option.bind_eq_some_iff.mp hBoth with ⟨front, hFront, hMap⟩
    rcases Option.map_eq_some_iff.mp hMap with ⟨back, hBack, hEq⟩
    have hLength := congrArg List.length hEq
    rw [List.length_append, List.length_append] at hLength
    have hFirst := hX front hFront
    have hSecond := hY back hBack
    rcases List.append_inj hEq (by omega) with ⟨rfl, rfl⟩
    exact ⟨hFront, hBack⟩
  · rintro ⟨rfl, rfl⟩
    rfl

section Part

variable {stack : MimeStack} {lines : List QpLine} {rest : List (List Byte)}

theorem signatureLoop_cons {line : QpLine} (hLine : line.IsPart stack) :
    signatureLoop stack true (line.text :: (lines.map QpLine.text ++ rest)) =
      (lineTokens line.ending line.tokens).bind fun out =>
        (signatureLoop stack true (lines.map QpLine.text ++ rest)).map (out ++ ·) := by
  rw [signatureLoop, QpLine.cString_text hLine.tokens, hLine.inside,
    ← QpLine.signatureLine_text hLine.tokens]
  rfl

theorem signatureLoop_rest
    (hRest : ∀ piece ∈ rest.head?, (isBoundary stack (cString piece)).isSome) :
    signatureLoop stack true rest = some [] := by
  cases rest with
  | nil => rfl
  | cons piece rest =>
    rw [signatureLoop]
    exact if_pos (hRest piece rfl)

theorem length_decoded (line : QpLine) :
    line.decoded.length = line.tokens.length + line.ending.decoded.length := by
  rw [QpLine.decoded, List.length_append, List.length_map]

theorem length_signatureLoop (hLines : ∀ line ∈ lines, line.IsPart stack)
    (hRest : ∀ piece ∈ rest.head?, (isBoundary stack (cString piece)).isSome) {out : List Byte}
    (hOut : signatureLoop stack true (lines.map QpLine.text ++ rest) = some out) :
    out.length ≤ (lines.flatMap QpLine.decoded).length := by
  induction lines generalizing out with
  | nil =>
    cases hOut.symm.trans (signatureLoop_rest hRest)
    exact Nat.le_refl _
  | cons line lines ih =>
    rcases List.forall_mem_cons.mp hLines with ⟨hLine, hMore⟩
    rw [List.map_cons, List.cons_append, signatureLoop_cons hLine] at hOut
    rcases Option.bind_eq_some_iff.mp hOut with ⟨front, hFront, hMap⟩
    rcases Option.map_eq_some_iff.mp hMap with ⟨back, hBack, rfl⟩
    rw [List.flatMap_cons, List.length_append, List.length_append, length_decoded]
    exact Nat.add_le_add (length_lineTokens hFront) (ih hMore hBack)

/-
  The part is decoded, and no line is read beyond its
  terminator, where the escapes of every line are aligned.
-/
theorem signatureLoop_iff (hLines : ∀ line ∈ lines, line.IsPart stack)
    (hRest : ∀ piece ∈ rest.head?, (isBoundary stack (cString piece)).isSome) :
    signatureLoop stack true (lines.map QpLine.text ++ rest) = some (lines.flatMap QpLine.decoded) ↔
      ∀ line ∈ lines, Aligned line.ending line.tokens := by
  induction lines with
  | nil => simpa using signatureLoop_rest hRest
  | cons line lines ih =>
    rcases List.forall_mem_cons.mp hLines with ⟨hLine, hMore⟩
    have hFirst : ∀ out, lineTokens line.ending line.tokens = some out →
        out.length ≤ line.decoded.length :=
      fun out hOut => (length_lineTokens hOut).trans_eq (length_decoded line).symm
    rw [List.map_cons, List.cons_append, signatureLoop_cons hLine, List.flatMap_cons,
      bind_eq_iff hFirst fun out => length_signatureLoop hMore hRest, ih hMore,
      List.forall_mem_cons]
    exact and_congr_left' (lineTokens_iff hLine.tokens)

end Part

/- Padding at a soft line end. -/
def paddingLine : QpLine where
  tokens := (bytes "ab").map .literal ++ [.escape (chr '3') (chr 'D')]
  ending := .soft

theorem signatureLoop_padding :
    signatureLoop [bytes "x"] true [bytes "ab=3D=\n", bytes "--x\n"] = some (bytes "ab=") ↔
      ∀ line ∈ [paddingLine], Aligned line.ending line.tokens :=
  @signatureLoop_iff [bytes "x"] [paddingLine] [bytes "--x\n"]
    (List.forall_mem_singleton.mpr ⟨by decide +kernel, rfl⟩)
    (fun piece hPiece => by cases hPiece; rfl)

/- A checksum line loses two characters. -/
def checksumLine : QpLine where
  tokens := .escape (chr '3') (chr 'D') :: (bytes "abcd").map .literal
  ending := .hard

theorem not_signatureLoop_checksum : checksumLine.IsPart [] ∧
    checksumLine.text = bytes "=3Dabcd\n" ∧ checksumLine.decoded = bytes "=abcd\n" ∧
    signatureLoop [] true [bytes "=3Dabcd\n"] = some (bytes "=cd\n") := by
  exact ⟨⟨by decide +kernel, rfl⟩, by decide +kernel, by decide +kernel, by decide +kernel⟩

end Wmail.Gpglib
