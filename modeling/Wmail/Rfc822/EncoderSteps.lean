import Wmail.Core.Halting
import Wmail.Rfc822.EncodedRuns

/-
  Does the header encoder stop?  Its loops are taken step by
  step, without what they write.

  Key theorems include:
    * `roomy_step`
    * `encode_halts_iff`
-/

namespace Wmail.Rfc822

/-
  Where `rfc2047_encode_callback` is: at the beginning of its
  outer loop, with the text that is left, or of the loop that
  writes encoded words, with the length `c` of the current
  word, the text to be encoded and the text behind it.
-/
inductive Encoder
  | text (str : List Byte)
  | word (c : Nat) (run rest : List Byte)
deriving DecidableEq, Repr

/- One round of either loop. -/
def encodeStep (charset : List Byte) : Encoder → Option Encoder
  | .text str =>
    if str.any doencode then
      let front := str.takeWhile (!doencode ·)
      let raw := front.rdropWhile (!blank ·)
      let word := str.drop raw.length
      let run := encodedRun word.length word
      some (.word 0 run (word.drop run.length))
    else
      none
  | .word _ [] rest => some (.text rest)
  | .word c (b :: run) rest =>
    let c := if c = 0 then charset.length + 5 else c
    let str := (b :: run).drop (nextChunk c b run).length
    let c := c + (chunkText c b run).length
    some (.word (if str = [] ∨ 50 ≤ c then 0 else c) str rest)

/- Each round of the inner loop takes a byte of the text. -/
def Consumes (charset str : List Byte) : Prop :=
  ∀ c run rest, run ≠ [] → Steps (encodeStep charset) (.text str) (.word c run rest) →
      ∃ d left, encodeStep charset (.word c run rest) =
        some (.word d left rest) ∧ left.length < run.length

theorem encodeStep_text {str run rest : List Byte} (charset : List Byte)
    (hEncode : str.any doencode = true) (hRound : EncoderRound str run rest) :
    encodeStep charset (.text str) = some (.word 0 run rest) := by
  have hRun := hRound.run_eq
  have hRest := hRound.rest_eq
  unfold rawText at hRun hRest
  simp only [encodeStep, if_pos hEncode, hRun, hRest]

/- The width of the current word, once it is begun. -/
def begun (charset : List Byte) (c : Nat) : Nat :=
  if c = 0 then charset.length + 5 else c

theorem encodeStep_word (charset : List Byte) (c : Nat) (b : Byte) (run rest : List Byte) :
    encodeStep charset (.word c (b :: run) rest) = some (.word
        (if (b :: run).drop (nextChunk (begun charset c) b run).length = [] ∨
            50 ≤ begun charset c + (chunkText (begun charset c) b run).length then
          0
        else
          begun charset c + (chunkText (begun charset c) b run).length)
        ((b :: run).drop (nextChunk (begun charset c) b run).length) rest) :=
  rfl

/- A character that is written as it is. -/
def isPlain (b : Byte) : Bool :=
  !special b

/-
  Every word has room for a character, or there is none that
  takes room: special characters are written in any case.
-/
def Roomy (charset : List Byte) : Encoder → Prop
  | .text str => charset.length < 45 ∨ ¬ Encoded isPlain str
  | .word c run rest =>
    charset.length < 45 ∧ c < 50 ∨ run.any isPlain = false ∧ ¬ Encoded isPlain rest

/- What is left to do; each text takes a few steps more. -/
def toDo : Encoder → Nat
  | .text str => 3 * str.length + 1
  | .word _ run rest => run.length + 3 * rest.length + 2

theorem roomy_step {charset : List Byte} {s t : Encoder} (hRoomy : Roomy charset s)
    (hStep : encodeStep charset s = some t) :
    Roomy charset t ∧ toDo t < toDo s ∧ ∀ c run rest, s = .word c run rest → run ≠ [] →
        ∃ d left, t = .word d left rest ∧ left.length < run.length := by
  cases s with
  | text str =>
    by_cases hEncode : str.any doencode = true
    · rcases encoderRound hEncode with ⟨run, rest, hRound⟩
      rw [encodeStep_text charset hEncode hRound] at hStep
      cases hStep
      refine ⟨?_, ?_, ?_⟩
      · rcases hRoomy with hShort | hNone
        · exact Or.inl ⟨hShort, Nat.succ_pos 49⟩
        · rw [hRound.encoded, not_or, Bool.not_eq_true] at hNone
          exact Or.inr hNone
      · have hLength := congrArg List.length hRound.parts
        have hPos := List.length_pos_iff.mpr hRound.run_ne
        simp only [List.length_append] at hLength
        show run.length + 3 * rest.length + 2 < 3 * str.length + 1
        omega
      · intro c run rest hWord
        cases hWord
    · have hNone : encodeStep charset (.text str) = none := if_neg hEncode
      rw [hNone] at hStep
      cases hStep
  | word c run rest =>
    cases run with
    | nil =>
      cases hStep
      refine ⟨?_, ?_, ?_⟩
      · rcases hRoomy with ⟨hShort, _⟩ | ⟨_, hNone⟩
        · exact Or.inl hShort
        · exact Or.inr hNone
      · show 3 * rest.length + 1 < 0 + 3 * rest.length + 2
        omega
      · intro d run last hWord hSome
        cases hWord
        exact absurd rfl hSome
    | cons b run =>
      rw [encodeStep_word] at hStep
      have hChunk : nextChunk (begun charset c) b run ≠ [] := by
        rcases hRoomy with ⟨hShort, hC⟩ | ⟨hSpecial, _⟩
        · apply nextChunk_ne_nil
          unfold begun
          split
          · omega
          · exact hC
        · rw [List.any_cons, Bool.or_eq_false_iff] at hSpecial
          have hB : special b = true := by simpa [isPlain] using hSpecial.1
          unfold nextChunk
          rw [if_pos hB]
          exact List.cons_ne_nil b []
      have hPos := List.length_pos_iff.mpr hChunk
      have hLess : ((b :: run).drop (nextChunk (begun charset c) b run).length).length <
            (b :: run).length := by
        rw [List.length_drop, List.length_cons]
        omega
      have hPart := List.drop_suffix (nextChunk (begun charset c) b run).length (b :: run)
      generalize begun charset c = size at hStep hLess hPart
      generalize (b :: run).drop (nextChunk size b run).length = left at hStep hLess hPart
      cases hStep
      refine ⟨?_, ?_, ?_⟩
      · rcases hRoomy with ⟨hShort, hC⟩ | ⟨hSpecial, hNone⟩
        · left
          refine ⟨hShort, ?_⟩
          split
          · omega
          · rename_i hGo
            rw [not_or] at hGo
            omega
        · refine Or.inr ⟨?_, hNone⟩
          rw [List.any_eq_false] at hSpecial ⊢
          intro d hMem
          exact hSpecial d (hPart.subset hMem)
      · show left.length + 3 * rest.length + 2 < (b :: run).length + 3 * rest.length + 2
        omega
      · intro d word last hWord _
        cases hWord
        exact ⟨_, left, rfl, hLess⟩

theorem roomy_run {charset : List Byte} {s : Encoder} (hRoomy : Roomy charset s) :
    Halts (encodeStep charset) s :=
  halts_of_falls toDo (fun _ _ hInv hStep => (roomy_step hInv hStep).1)
    (fun _ _ hInv hStep => (roomy_step hInv hStep).2.1)
    hRoomy

theorem roomy_consumes {charset str : List Byte} (hRoomy : Roomy charset (.text str)) :
    Consumes charset str := by
  intro c run rest hSome hRun
  have hHere := hRun.kept (fun _ _ hInv hStep => (roomy_step hInv hStep).1) hRoomy
  cases hStep : encodeStep charset (.word c run rest) with
  | none =>
    cases run with
    | nil => exact absurd rfl hSome
    | cons b run =>
      rw [encodeStep_word] at hStep
      cases hStep
  | some next =>
    rcases (roomy_step hHere hStep).2.2 c run rest rfl hSome with ⟨d, left, hNext, hLess⟩
    rw [hNext]
    exact ⟨d, left, rfl, hLess⟩

section NoRoom

variable {charset : List Byte} (hLong : 45 ≤ charset.length)

include hLong

/- A special character takes a word of its own. -/
theorem step_special {b : Byte} (hSpecial : special b = true) (run rest : List Byte) :
    encodeStep charset (.word 0 (b :: run) rest) = some (.word 0 run rest) := by
  have hChunk : ∀ c, nextChunk c b run = [b] := by
    intro c
    exact if_pos hSpecial
  rw [encodeStep_word, hChunk, if_pos]
  · rfl
  · right
    show 50 ≤ charset.length + 5 + _
    omega

/- A plain character is never written. -/
theorem step_plain {b : Byte} (hPlain : isPlain b = true) (run rest : List Byte) :
    encodeStep charset (.word 0 (b :: run) rest) = some (.word 0 (b :: run) rest) := by
  have hSpecial : ¬ special b = true := by simpa [isPlain] using hPlain
  have hBegun : begun charset 0 = charset.length + 5 := rfl
  have hNone : 50 - (charset.length + 5) = 0 := by omega
  have hChunk : nextChunk (begun charset 0) b run = [] := by
    unfold nextChunk
    rw [if_neg hSpecial, hBegun, hNone, List.take_zero]
  rw [encodeStep_word, hChunk, if_pos]
  · rfl
  · right
    rw [hBegun]
    omega

/- The encoder gets to the first plain character. -/
theorem steps_run (run rest : List Byte) :
    Steps (encodeStep charset) (.word 0 run rest) (.text rest) ∧ run.any isPlain = false ∨
      ∃ b more, isPlain b = true ∧ Steps (encodeStep charset) (.word 0 run rest)
          (.word 0 (b :: more) rest) := by
  induction run with
  | nil => exact Or.inl ⟨Steps.head rfl (Steps.refl _), rfl⟩
  | cons b run ih =>
    cases hPlain : isPlain b with
    | true => exact Or.inr ⟨b, run, hPlain, Steps.refl _⟩
    | false =>
      have hSpecial : special b = true := by simpa [isPlain] using hPlain
      have hStep := step_special hLong hSpecial run rest
      rcases ih with ⟨hRun, hNone⟩ | ⟨d, more, hD, hRun⟩
      · left
        refine ⟨Steps.head hStep hRun, ?_⟩
        rw [List.any_cons, hPlain, hNone]
        rfl
      · exact Or.inr ⟨d, more, hD, Steps.head hStep hRun⟩

theorem steps_stuck {str : List Byte} (hEncoded : Encoded isPlain str) :
    ∃ b more rest, isPlain b = true ∧ Steps (encodeStep charset) (.text str)
        (.word 0 (b :: more) rest) := by
  generalize hN : str.length = n
  induction n using Nat.strongRecOn generalizing str with
  | ind n ih =>
    by_cases hEncode : str.any doencode = true
    · rcases encoderRound hEncode with ⟨run, rest, hRound⟩
      have hStep := encodeStep_text charset hEncode hRound
      rcases steps_run hLong run rest with ⟨hRun, hNone⟩ | ⟨b, more, hPlain, hRun⟩
      · rw [hRound.encoded, hNone] at hEncoded
        have hRest := hEncoded.resolve_left Bool.false_ne_true
        have hLength := congrArg List.length hRound.parts
        have hPos := List.length_pos_iff.mpr hRound.run_ne
        simp only [List.length_append] at hLength
        rcases ih rest.length (by omega) hRest rfl with ⟨b, more, last, hPlain, hMore⟩
        exact ⟨b, more, last, hPlain, Steps.head hStep (Relation.ReflTransGen.trans hRun hMore)⟩
      · exact ⟨b, more, rest, hPlain, Steps.head hStep hRun⟩
    · rw [Bool.not_eq_true] at hEncode
      exact absurd hEncoded (not_encoded_of_plain hEncode)

end NoRoom

/- A run that stops has room, or nothing that takes room. -/
theorem roomy_of_halts {charset str : List Byte}
    (hHalts : Halts (encodeStep charset) (.text str)) : Roomy charset (.text str) := by
  by_contra hNot
  have hNo : ¬ (charset.length < 45 ∨ ¬ Encoded isPlain str) := hNot
  rw [not_or, Nat.not_lt, not_not] at hNo
  rcases steps_stuck hNo.1 hNo.2 with ⟨b, more, rest, hPlain, hRun⟩
  exact not_halts_of_loop hRun (step_plain hNo.1 hPlain more rest) hHalts

/-
  The encoder stops, and each round of its inner loop takes a
  byte, exactly for a charset name with fewer than 45
  characters, or a header none of whose plain characters is
  encoded.
-/
theorem encode_halts_iff (charset str : List Byte) : (Halts (encodeStep charset) (.text str) ∧
        Consumes charset str) ↔
      charset.length < 45 ∨ ¬ Encoded (!special ·) str := by
  constructor
  · rintro ⟨hHalts, _⟩
    exact roomy_of_halts hHalts
  · intro hRoomy
    exact ⟨roomy_run hRoomy, roomy_consumes hRoomy⟩

/- A long charset name, and a letter behind an equal sign. -/
theorem encode_never_halts : ¬ (Halts (encodeStep (List.replicate 45 (chr 'x')))
          (.text (bytes "=a")) ∧
        Consumes (List.replicate 45 (chr 'x')) (bytes "=a")) := by
  rintro ⟨hHalts, _⟩
  have hStart : encodeStep (List.replicate 45 (chr 'x')) (.text (bytes "=a")) =
        some (.word 0 (bytes "=a") []) := by
    decide
  have hEqual : encodeStep (List.replicate 45 (chr 'x')) (.word 0 (bytes "=a") []) =
        some (.word 0 (bytes "a") []) := by
    decide
  have hLetter : encodeStep (List.replicate 45 (chr 'x')) (.word 0 (bytes "a") []) =
        some (.word 0 (bytes "a") []) := by
    decide
  exact not_halts_of_loop (Steps.head hStart (Steps.head hEqual (Steps.refl _))) hLetter hHalts

end Wmail.Rfc822
