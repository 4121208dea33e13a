import Wmail.Rfc822.EncoderSteps

/-
  The encoded words of a header that the encoder wrote: their
  form, and the characters in them.

  Key theorems include:
    * `wordsIn_encodeLoop`
    * `rfc2047_words_iff`
-/

namespace Wmail.Rfc822

/-
  An encoded word in a header, the question marks between its
  parts left out, and whether `?=` ends it; `width` counts the
  characters from the `=?` on.
-/
structure FoundWord where
  charset : List Byte
  encoding : List Byte
  text : List Byte
  closed : Bool
  width : Nat
deriving DecidableEq, Repr

/- The word behind an `=?`, found as the decoder finds it. -/
def foundWord (text : List Byte) : FoundWord × List Byte :=
  let (charset, rest) := rfc2047SearchQuote text
  let (encoding, rest) := rfc2047SearchQuote (rest.drop 1)
  let (enctext, rest) := rfc2047SearchQuote (rest.drop 1)
  let closed := (bytes "?=").isPrefixOf rest
  let rest := if closed then rest.drop 2 else rest
  (⟨charset, encoding, enctext, closed, 2 + (text.length - rest.length)⟩, rest)

/- The encoded words of a header. -/
def wordsInLoop : Nat → List Byte → List FoundWord
  | 0, _ => []
  | _ + 1, [] => []
  | fuel + 1, c :: rest =>
    if c = chr '=' ∧ rest.head? = some (chr '?') then
      let (word, text) := foundWord (rest.drop 1)
      word :: wordsInLoop fuel text
    else
      wordsInLoop fuel rest

def wordsIn (header : List Byte) : List FoundWord :=
  wordsInLoop header.length header

theorem foundWord_rest (text : List Byte) : (foundWord text).2 = (decodeWord text).2 := by
  rfl

/- Any fuel of the length of the header gives the same. -/
theorem wordsInLoop_fuel {fuel more : Nat} {header : List Byte}
    (hFuel : header.length ≤ fuel) (hMore : header.length ≤ more) :
    wordsInLoop fuel header = wordsInLoop more header := by
  induction fuel generalizing more header with
  | zero =>
    have hNil := List.eq_nil_of_length_eq_zero (Nat.le_zero.mp hFuel)
    rw [hNil]
    cases more with
    | zero => rfl
    | succ more => rfl
  | succ fuel ih =>
    cases header with
    | nil =>
      cases more with
      | zero => rfl
      | succ more => rfl
    | cons c rest =>
      cases more with
      | zero => cases hMore
      | succ more =>
        rw [List.length_cons] at hFuel hMore
        have hLess := length_decodeWord_le (rest.drop 1)
        rw [List.length_drop, ← foundWord_rest] at hLess
        simp only [wordsInLoop]
        split
        · rw [@ih more _ (by omega) (by omega)]
        · exact ih (by omega) (by omega)

theorem wordsIn_cons {c : Byte} (hOther : c ≠ chr '=') (rest : List Byte) :
    wordsIn (c :: rest) = wordsIn rest := by
  unfold wordsIn
  rw [List.length_cons]
  simp only [wordsInLoop]
  rw [if_neg]
  rintro ⟨hSame, _⟩
  exact hOther hSame

/- There is no word in text without an equal sign. -/
theorem wordsIn_raw {raw : List Byte} (hRaw : chr '=' ∉ raw) (rest : List Byte) :
    wordsIn (raw ++ rest) = wordsIn rest := by
  induction raw with
  | nil => rfl
  | cons c raw ih =>
    rw [List.mem_cons, not_or] at hRaw
    rw [List.cons_append, wordsIn_cons (Ne.symm hRaw.1), ih hRaw.2]

/- A word of the form that the encoder writes. -/
theorem wordsIn_word {charset text : List Byte} (hCharset : chr '?' ∉ charset)
    (hText : chr '?' ∉ text) (rest : List Byte) :
    wordsIn (bytes "=?" ++ charset ++ bytes "?Q?" ++ (text ++ (bytes "?=" ++ rest))) =
      ⟨charset, bytes "Q", text, true, charset.length + text.length + 7⟩ :: wordsIn rest := by
  have hFirst := searchQuote_append hCharset (chr 'Q' :: chr '?' :: (text ++ (bytes "?=" ++ rest)))
  have hSecond := @searchQuote_append [chr 'Q'] (by decide) (text ++ (bytes "?=" ++ rest))
  have hThird := searchQuote_append hText (chr '=' :: rest)
  have hWord : foundWord (charset ++ chr '?' ::
      (chr 'Q' :: chr '?' :: (text ++ (bytes "?=" ++ rest)))) =
        (⟨charset, bytes "Q", text, true, charset.length + text.length + 7⟩, rest) := by
    have hMore : chr 'Q' :: chr '?' :: (text ++ (bytes "?=" ++ rest)) =
          [chr 'Q'] ++ chr '?' :: (text ++ (bytes "?=" ++ rest)) := rfl
    have hLast : text ++ (bytes "?=" ++ rest) = text ++ chr '?' :: (chr '=' :: rest) := rfl
    have hWidth : 2 + ((charset ++ chr '?' :: (chr 'Q' ::
        chr '?' :: (text ++ (bytes "?=" ++ rest)))).length -
          rest.length) = charset.length + text.length + 7 := by
      have hTwo : (bytes "?=").length = 2 := rfl
      simp only [List.length_append, List.length_cons, hTwo]
      omega
    have hClosed : (bytes "?=").isPrefixOf (chr '?' :: chr '=' :: rest) = true := rfl
    unfold foundWord
    generalize (charset ++ chr '?' :: (chr 'Q' :: chr '?' ::
      (text ++ (bytes "?=" ++ rest)))).length = size at hWidth ⊢
    rw [hFirst]
    simp only [List.drop_succ_cons, List.drop_zero]
    rw [hMore, hSecond]
    simp only [List.drop_succ_cons, List.drop_zero]
    rw [hLast, hThird]
    simp only [hClosed, if_true, List.drop_succ_cons, List.drop_zero, hWidth]
    rfl
  have hJoin : bytes "=?" ++ charset ++ bytes "?Q?" ++ (text ++ (bytes "?=" ++ rest)) =
        chr '=' :: chr '?' :: (charset ++ chr '?' :: (chr 'Q' :: chr '?' ::
            (text ++ (bytes "?=" ++ rest)))) := by
    simp [List.append_assoc, bytes]
  rw [hJoin]
  unfold wordsIn
  rw [List.length_cons, List.length_cons]
  rw [wordsInLoop, if_pos ⟨rfl, rfl⟩]
  simp only [List.drop_succ_cons, List.drop_zero, hWord]
  apply congrArg (List.cons _)
  apply wordsInLoop_fuel
  · simp only [List.length_append, List.length_cons]
    omega
  · exact Nat.le_refl _

/- The word that holds a text. -/
def writtenWord (charset text : List Byte) : FoundWord where
  charset := charset
  encoding := bytes "Q"
  text := text
  closed := true
  width := charset.length + text.length + 7

theorem length_qEncode (b : Byte) : (qEncode b).length ≤ 3 := by
  unfold qEncode
  split
  · unfold encodeSpecial
    split
    · exact Nat.le_of_ble_eq_true rfl
    · exact Nat.le_refl 3
  · exact Nat.le_of_ble_eq_true rfl

/- The words that are written for a text, found again. -/
theorem wordsIn_wordsOut {charset : List Byte} (hCharset : chr '?' ∉ charset)
    (hShort : charset.length < 45) {front run : List Byte}
    (hRoom : charset.length + 5 +
      (front.flatMap qEncode).length < 50) (hSome : run ≠ []) (tail : List Byte) :
    ∃ texts : List (List Byte), wordsIn (bytes "=?" ++ charset ++ bytes "?Q?" ++
          (front.flatMap qEncode ++
            (wordsOut charset (charset.length + 5 + (front.flatMap qEncode).length) run ++ tail))) =
        texts.map (writtenWord charset) ++ wordsIn tail ∧
      texts.flatten = (front ++ run).flatMap qEncode ∧
      ∀ text, text ∈ texts → charset.length + text.length ≤ 47 := by
  induction run generalizing front with
  | nil => exact absurd rfl hSome
  | cons b rest ih =>
    have hMove : front.flatMap qEncode ++ qEncode b = (front ++ [b]).flatMap qEncode := by
      rw [List.flatMap_append, List.flatMap_singleton]
    have hChar : front ++ b :: rest = front ++ [b] ++ rest := List.append_cons front b rest
    have hWidth := length_qEncode b
    have hSize : ((front ++ [b]).flatMap qEncode).length = (front.flatMap qEncode).length +
          (qEncode b).length := by
      rw [← hMove, List.length_append]
    have hClean := question_not_mem_flatMap (front ++ [b])
    rw [wordsOut_cons charset (by omega), List.append_assoc (qEncode b),
      ← List.append_assoc (front.flatMap qEncode), hMove,
      hChar, Nat.add_assoc, ← hSize]
    unfold wordEnd
    by_cases hEnd : rest = []
    · rw [if_pos hEnd, hEnd, wordsIn_word hCharset hClean]
      refine ⟨[(front ++ [b]).flatMap qEncode], rfl, ?_, ?_⟩
      · rw [List.append_nil]
        exact List.append_nil _
      · intro text hText
        rw [List.mem_singleton.mp hText]
        omega
    · rw [if_neg hEnd]
      by_cases hFull : 50 ≤ charset.length + 5 + ((front ++ [b]).flatMap qEncode).length
      · rw [if_pos hFull]
        cases rest with
        | nil => exact absurd rfl hEnd
        | cons d more =>
          rcases @ih [] (by simp; omega) hEnd with ⟨texts, hWords, hTexts, hWidths⟩
          have hGap : bytes "?= " ++ wordsOut charset 0 (d :: more) ++ tail =
                bytes "?=" ++ (bytes " " ++ (wordsOut charset 0 (d :: more) ++ tail)) := by
            simp [bytes]
          rw [hGap, wordsIn_word hCharset hClean, wordsIn_raw (by decide), wordsOut_start,
            List.append_assoc (bytes "=?" ++ charset ++ bytes "?Q?")]
          rw [List.flatMap_nil, List.length_nil, Nat.add_zero, List.nil_append] at hWords
          rw [hWords]
          refine ⟨(front ++ [b]).flatMap qEncode :: texts, rfl, ?_, ?_⟩
          · rw [List.flatten_cons, hTexts, List.nil_append, ← List.flatMap_append]
          · intro text hText
            rcases List.mem_cons.mp hText with hEq | hIn
            · rw [hEq]
              omega
            · exact hWidths text hIn
      · rw [if_neg hFull]
        exact @ih (front ++ [b]) (by omega) hEnd

/- A printable character, the blank left out. -/
def graphic (b : Byte) : Bool :=
  33 ≤ b && b ≤ 126

/- A control character is written as it is. -/
set_option maxRecDepth 8000 in
theorem any_qEncode (b : Byte) : (qEncode b).any (!graphic ·) = iscntrl b := by
  apply @byte_forall fun b => (qEncode b).any (!graphic ·) = iscntrl b
  decide

/- Bytes of seven bits. -/
def sevenBit (text : List Byte) : Bool :=
  text.all (· < 128)

theorem sevenBit_append (front rest : List Byte) :
    sevenBit (front ++ rest) = (sevenBit front && sevenBit rest) :=
  List.all_append

set_option maxRecDepth 8000 in
theorem sevenBit_qEncode (b : Byte) : sevenBit (qEncode b) = true := by
  apply @byte_forall fun b => sevenBit (qEncode b) = true
  decide

theorem sevenBit_of_plain {text : List Byte} (hPlain : text.any doencode = false) :
    sevenBit text = true := by
  unfold sevenBit
  rw [List.all_eq_true]
  rw [List.any_eq_false] at hPlain
  intro b hMem
  have hNot := hPlain b hMem
  simp only [doencode, Bool.or_eq_true, not_or, decide_eq_true_eq] at hNot
  exact decide_eq_true (UInt8.not_le.mp hNot.1.1)

theorem sevenBit_wordsOut {charset : List Byte} (hCharset : sevenBit charset = true)
    (c : Nat) (run : List Byte) : sevenBit (wordsOut charset c run) = true := by
  have hOpen : sevenBit (bytes "=?" ++ charset ++ bytes "?Q?") = true := by
    rw [sevenBit_append, sevenBit_append, hCharset]
    rfl
  induction run generalizing c with
  | nil => rfl
  | cons d rest ih =>
    have hClose : sevenBit (bytes "?= " ++ wordsOut charset 0 rest) = true := by
      rw [sevenBit_append, ih]
      rfl
    rw [wordsOut, sevenBit_append, sevenBit_append,
      sevenBit_qEncode, Bool.and_eq_true, Bool.and_eq_true]
    generalize (if c = 0 then charset.length + 5 else c) = size
    refine ⟨?_, rfl, ?_⟩
    · split
      · exact hOpen
      · rfl
    · split
      · rfl
      · split
        · exact hClose
        · exact ih _

------------
-- Well-Formed Headers
------------

/-
  A header of the encoder: it has seven bits, and each of its
  encoded words has the right form.
-/
structure WellFormed (charset out : List Byte) : Prop where
  seven_bit : ∀ b, b ∈ out → b < 128
  words : ∀ word, word ∈ wordsIn out → word.charset = charset ∧ word.encoding = bytes "Q" ∧
      word.closed = true ∧ word.width ≤ 75 ∧ ∀ b, b ∈ word.text → graphic b = true ∧ b ≠ chr '?'

/- The words in what the encoder writes. -/
theorem wordsIn_encodeLoop {charset : List Byte} (hCharset : chr '?' ∉ charset)
    (hSeven : sevenBit charset = true) (hShort : charset.length < 45) {fuel : Nat}
    {str : List Byte} (hFuel : str.length ≤ fuel) :
    ∃ out, ∃ texts : List (List Byte),
      encodeLoop charset fuel str = some out ∧ sevenBit out = true ∧
        wordsIn out = texts.map (writtenWord charset) ∧
        (∀ text, text ∈ texts → chr '?' ∉ text ∧ charset.length + text.length ≤ 47) ∧
        (texts.flatten.any (!graphic ·) = true ↔ Encoded iscntrl str) := by
  induction fuel generalizing str with
  | zero =>
    have hNil := List.eq_nil_of_length_eq_zero (Nat.le_zero.mp hFuel)
    have hNone : ¬ Encoded iscntrl [] := not_encoded_of_plain rfl
    refine ⟨[], [], by rw [hNil]; rfl, rfl, rfl, ?_, ?_⟩
    · intro text hText
      cases hText
    · rw [hNil]
      exact iff_of_false Bool.false_ne_true hNone
  | succ fuel ih =>
    cases hEncode : str.any doencode with
    | false =>
      have hNone : ¬ Encoded iscntrl str := not_encoded_of_plain hEncode
      have hOut : encodeLoop charset (fuel + 1) str = some str := by
        cases str with
        | nil => rfl
        | cons b rest =>
          rw [encodeLoop, if_neg (by rw [hEncode]; simp)]
          exact List.cons_ne_nil b rest
      have hRaw : chr '=' ∉ str := by
        intro hMem
        rw [List.any_eq_false] at hEncode
        exact hEncode _ hMem (by decide)
      refine ⟨str, [], hOut, sevenBit_of_plain hEncode, ?_, ?_, ?_⟩
      · have hWords := wordsIn_raw hRaw []
        rw [List.append_nil] at hWords
        exact hWords
      · intro text hText
        cases hText
      · exact iff_of_false Bool.false_ne_true hNone
    | true =>
      rcases encoderRound hEncode with ⟨run, rest, hRound⟩
      have hLength := congrArg List.length hRound.parts
      have hPos := List.length_pos_iff.mpr hRound.run_ne
      simp only [List.length_append] at hLength
      rcases @ih rest (by omega) with ⟨out, texts, hOut, hBits, hWords, hTexts, hAny⟩
      have hRun := @encodeWords_eq charset hShort run.length 0 run (Nat.le_refl _) (Nat.succ_pos 49)
      have hRaw : chr '=' ∉ rawText str := by
        intro hMem
        have hPlain := (@rawText_plain str).1
        rw [List.any_eq_false] at hPlain
        exact hPlain _ hMem (by decide)
      rcases @wordsIn_wordsOut charset hCharset hShort [] run
        (by simp; omega) hRound.run_ne out with
        ⟨found, hFound, hFlat, hWidths⟩
      refine ⟨rawText str ++ wordsOut charset 0 run ++ out, found ++ texts, ?_, ?_, ?_, ?_, ?_⟩
      · rw [encodeLoop_run hEncode rfl hRound.run_eq hRun, hRound.rest_eq, hOut]
        rfl
      · rw [sevenBit_append, sevenBit_append, sevenBit_of_plain rawText_plain.1,
          sevenBit_wordsOut hSeven, hBits]
        rfl
      · rw [List.append_assoc, wordsIn_raw hRaw, List.map_append, ← hWords, ← hFound]
        cases run with
        | nil => exact absurd rfl hRound.run_ne
        | cons b more =>
          rw [wordsOut_start]
          simp
      · intro text hText
        rcases List.mem_append.mp hText with hIn | hIn
        · refine ⟨?_, hWidths text hIn⟩
          intro hMem
          have hAll := List.mem_flatten.mpr ⟨text, hIn, hMem⟩
          rw [hFlat] at hAll
          exact question_not_mem_flatMap _ hAll
        · exact hTexts text hIn
      · rw [List.flatten_append, List.any_append, hFlat, List.nil_append, Bool.or_eq_true, hAny,
          hRound.encoded, List.any_flatMap]
        simp only [any_qEncode]

/-
  For a charset name that is printable and not too long, the
  header is well formed exactly when no control character is
  in a word that must be encoded or between two such words.
-/
theorem rfc2047_words_iff {charset : List Byte} (hShort : charset.length < 40)
    (hCharset : ∀ b, b ∈ charset → 32 ≤ b ∧ b ≤ 126 ∧ b ≠ chr '?') (str : List Byte) :
    ∃ out, rfc2047EncodeStr str charset = some out ∧
      (WellFormed charset out ↔ ¬ Encoded iscntrl str) := by
  have hSeven : sevenBit charset = true := by
    unfold sevenBit
    rw [List.all_eq_true]
    intro b hMem
    have hLe := (hCharset b hMem).2.1
    rw [UInt8.le_iff_toNat_le] at hLe
    apply decide_eq_true
    rw [UInt8.lt_iff_toNat_lt]
    exact Nat.lt_of_le_of_lt hLe (by decide)
  have hQuestion : chr '?' ∉ charset := by
    intro hMem
    exact (hCharset _ hMem).2.2 rfl
  rcases wordsIn_encodeLoop hQuestion hSeven (by omega) (Nat.le_refl str.length) with
    ⟨out, texts, hOut, hBits, hWords, hTexts, hAny⟩
  refine ⟨out, hOut, ?_⟩
  rw [← hAny, Bool.not_eq_true, List.any_eq_false]
  constructor
  · intro hFormed b hMem
    rcases List.mem_flatten.mp hMem with ⟨text, hText, hB⟩
    have hWord := hFormed.words (writtenWord charset text) (by
      rw [hWords]
      exact List.mem_map_of_mem hText)
    have hGraphic := (hWord.2.2.2.2 b hB).1
    rw [hGraphic]
    exact Bool.false_ne_true
  · intro hGraphic
    refine ⟨?_, ?_⟩
    · intro b hMem
      exact of_decide_eq_true (List.all_eq_true.mp hBits b hMem)
    · intro word hWord
      rw [hWords] at hWord
      rcases List.mem_map.mp hWord with ⟨text, hText, rfl⟩
      rcases hTexts text hText with ⟨hNo, hWidth⟩
      refine ⟨rfl, rfl, rfl, ?_, ?_⟩
      · show charset.length + text.length + 7 ≤ 75
        omega
      · intro b hB
        have hNot := hGraphic b (List.mem_flatten.mpr ⟨text, hText, hB⟩)
        refine ⟨by simpa using hNot, ?_⟩
        rintro rfl
        exact hNo hB

/- A header with a usual charset name and a blank. -/
theorem rfc2047_words_latin : ∃ out, rfc2047EncodeStr (bytes "a =b c") (bytes "latin1") = some out ∧
      (WellFormed (bytes "latin1") out ↔ ¬ Encoded iscntrl (bytes "a =b c")) := by
  have hAll : ((bytes "latin1").all fun b => decide (32 ≤ b ∧ b ≤ 126 ∧ b ≠ chr '?')) = true := by
    decide
  have hCharset : ∀ b, b ∈ bytes "latin1" → 32 ≤ b ∧ b ≤ 126 ∧ b ≠ chr '?' := by
    intro b hMem
    exact of_decide_eq_true (List.all_eq_true.mp hAll b hMem)
  exact rfc2047_words_iff (by decide) hCharset _

/- A tab between two words that are encoded. -/
theorem rfc2047_words_tab : ∃ out, rfc2047EncodeStr (bytes "=\t=") (bytes "x") = some out ∧
      ¬ WellFormed (bytes "x") out := by
  refine ⟨bytes "=?x?Q?=3D\t=3D?=", by decide, ?_⟩
  intro hFormed
  have hWord := hFormed.words ⟨bytes "x", bytes "Q", bytes "=3D\t=3D", true, 15⟩ (by decide)
  have hTab := (hWord.2.2.2.2 (chr '\t') (by decide)).1
  revert hTab
  decide

end Wmail.Rfc822
