import Wmail.Authlib.CramLogin

/-
  Base64 in SASL (authsaslfrombase64.c, authsasltobase64.c): the
  buffer, the round trip, and what can be decoded.

  Up to two characters behind the last group are not looked
  at, unless they are `=`.

  Key theorems include:
    * `base64Text_iff`
    * `saslBase64_iff`
-/

namespace Wmail.Authlib

open Rfc2045

/- The largest `int`. -/
def intMax : Nat :=
  2 ^ 31 - 1

/-
  `(l+3)/3*4+1`, the size that `authsasl_tobase64` allocates;
  none if the arithmetic leaves the range of `int`.
-/
def tobase64Size (l : Nat) : Option Nat :=
  if l + 3 ≤ intMax ∧ (l + 3) / 3 * 4 + 1 ≤ intMax then some ((l + 3) / 3 * 4 + 1) else none

/- The text and the zero byte behind it fit. -/
def FitsBuffer (p : List Byte) : Prop :=
  ∃ size, tobase64Size p.length = some size ∧ (authsaslTobase64 p).length + 1 ≤ size

theorem fitsBuffer_iff (p : List Byte) : FitsBuffer p ↔ p.length ≤ 1610612732 := by
  have hLength : (authsaslTobase64 p).length = (p.length + 2) / 3 * 4 := by
    rw [authsaslTobase64_eq, base64Groups_length]
  unfold FitsBuffer tobase64Size intMax
  rw [hLength]
  constructor
  · rintro ⟨size, hSize, _⟩
    split at hSize
    · omega
    · cases hSize
  · intro hFits
    rw [if_pos (by omega)]
    exact ⟨_, rfl, by omega⟩

/- Groups of four, and at most two `=` at the end. -/
def Base64Text (s : List Byte) : Prop :=
  s.length % 4 = 0 ∧ ∃ front pads, s = front ++ List.replicate pads (chr '=') ∧ pads ≤ 2 ∧
        ∀ b ∈ front, b ∈ base64Alphabet

/- The first characters that are of the alphabet. -/
def alphabetPart (s : List Byte) : List Byte :=
  s.takeWhile (· ∈ base64Alphabet)

/- What is behind them. -/
def behindPart (s : List Byte) : List Byte :=
  s.dropWhile (· ∈ base64Alphabet)

/-
  One or two characters that are not all `=` are behind the
  alphabet, and without the stray ones there are whole groups.
-/
def StrayEnd (s : List Byte) : Prop :=
  (behindPart s).length ≤ 2 ∧
    (∃ b ∈ behindPart s, b ≠ chr '=') ∧
    ((alphabetPart s).length + ((behindPart s).takeWhile (· = chr '=')).length) % 4 = 0

/- The table of the decoder has the alphabet. -/
theorem saslDecode64tab_lt_iff (b : Byte) : saslDecode64tab b < 100 ↔ b ∈ base64Alphabet := by
  unfold saslDecode64tab
  cases hIndex : base64Alphabet.idxOf? b with
  | none =>
    rw [List.idxOf?_eq_none_iff] at hIndex
    simp [hIndex]
  | some i =>
    rcases List.idxOf?_eq_some_iff.mp hIndex with ⟨hLess, hHere, _⟩
    have hSize : base64Alphabet.length = 64 := by decide
    rw [Option.getD_some]
    refine ⟨fun _ => ?_, fun _ => by omega⟩
    rw [← hHere]
    exact List.getElem_mem hLess

/- When the decoder accepts a text. -/
theorem authsaslFrombase64_isSome_iff (s : List Byte) : (authsaslFrombase64 s).isSome ↔
      (behindPart s).length ≤ 2 ∧
        ((alphabetPart s).length +
          ((behindPart s).takeWhile (· = chr '=')).length) % 4 = 0 := by
  have hTable : (fun b : Byte => decide (saslDecode64tab b < 100)) =
      fun b => decide (b ∈ base64Alphabet) := by
    funext b
    exact decide_eq_decide.mpr (saslDecode64tab_lt_iff b)
  unfold authsaslFrombase64
  simp only [hTable]
  rw [List.length_append]
  unfold behindPart alphabetPart
  split
  · rename_i hRefused
    rw [Option.isSome_none]
    constructor
    · intro hFalse
      cases hFalse
    · omega
  · rw [Option.isSome_some]
    constructor
    · omega
    · exact fun _ => rfl

theorem alphabetPart_append (s : List Byte) : alphabetPart s ++ behindPart s = s :=
  List.takeWhile_append_dropWhile

theorem equals_not_mem_base64Alphabet : chr '=' ∉ base64Alphabet := by
  decide

/- A text that is accepted is one, or has a stray end. -/
theorem base64Text_iff {s : List Byte} (hAccept : (authsaslFrombase64 s).isSome) :
    Base64Text s ↔ ¬ StrayEnd s := by
  rcases (authsaslFrombase64_isSome_iff s).mp hAccept with ⟨hShort, hGroups⟩
  constructor
  · rintro ⟨_, front, pads, hSplit, _, hFront⟩ ⟨_, hStray, _⟩
    rcases hStray with ⟨b, hMem, hOther⟩
    have hBehind : behindPart s = List.replicate pads (chr '=') := by
      unfold behindPart
      rw [hSplit]
      apply dropWhile_run
      · intro c hIn
        exact decide_eq_true (hFront c hIn)
      · intro c hHead
        have hPad := List.eq_of_mem_replicate (List.mem_of_head? hHead)
        rw [hPad]
        exact decide_eq_false equals_not_mem_base64Alphabet
    rw [hBehind] at hMem
    exact hOther (List.eq_of_mem_replicate hMem)
  · intro hNone
    have hPads : ∀ b ∈ behindPart s, b = chr '=' := by
      intro b hMem
      by_contra hOther
      exact hNone ⟨hShort, ⟨b, hMem, hOther⟩, hGroups⟩
    have hAll : (behindPart s).takeWhile (· = chr '=') = behindPart s := by
      rw [List.takeWhile_eq_self_iff]
      intro b hMem
      exact decide_eq_true (hPads b hMem)
    rw [hAll, ← List.length_append, alphabetPart_append] at hGroups
    refine ⟨hGroups, alphabetPart s, (behindPart s).length, ?_, hShort, ?_⟩
    · rw [← List.eq_replicate_of_mem hPads, alphabetPart_append]
    · intro b hMem
      have hIn := forall_takeWhile _ _ b hMem
      exact of_decide_eq_true hIn

/-
  A byte string whose length is an `int` is encoded in its
  buffer and decoded again, and only texts in base64 are
  decoded.
-/
def SaslBase64 (p s : List Byte) : Prop :=
  (p.length ≤ intMax → FitsBuffer p ∧ authsaslFrombase64 (authsaslTobase64 p) = some p) ∧
    ∀ text, authsaslFrombase64 s = some text → Base64Text s

/-
  This is so unless the size of the buffer leaves the range of
  `int`, or the text has a stray end.
-/
theorem saslBase64_iff (p s : List Byte) : SaslBase64 p s ↔
      (p.length ≤ intMax → p.length ≤ 1610612732) ∧ ¬ StrayEnd s := by
  have hRound : authsaslFrombase64 (authsaslTobase64 p) = some p := by
    rw [authsaslTobase64_eq, authsaslFrombase64_base64Groups]
  unfold SaslBase64
  rw [fitsBuffer_iff]
  constructor
  · rintro ⟨hEncode, hDecode⟩
    refine ⟨fun hInt => (hEncode hInt).1, ?_⟩
    intro hStray
    have hAccept := (authsaslFrombase64_isSome_iff s).mpr ⟨hStray.1, hStray.2.2⟩
    rcases Option.isSome_iff_exists.mp hAccept with ⟨text, hText⟩
    exact (base64Text_iff hAccept).mp (hDecode text hText) hStray
  · rintro ⟨hEncode, hNone⟩
    refine ⟨fun hInt => ⟨hEncode hInt, hRound⟩, ?_⟩
    intro text hText
    have hAccept : (authsaslFrombase64 s).isSome := by
      rw [hText]
      rfl
    exact (base64Text_iff hAccept).mpr hNone

/- `QUJD!` is decoded like `QUJD`. -/
theorem not_saslBase64 : ¬ SaslBase64 (bytes "ABC") (bytes "QUJD!") := by
  rintro ⟨_, hDecode⟩
  have hText : authsaslFrombase64 (bytes "QUJD!") = some (bytes "ABC") := by decide
  exact absurd (hDecode _ hText).1 (by decide)

end Wmail.Authlib
