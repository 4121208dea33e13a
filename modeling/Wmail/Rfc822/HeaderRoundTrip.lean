import Wmail.Rfc822.EncodedWords

/-
  Header text through the encoder and back.

  The decoder drops the blanks behind an encoded word when
  nothing but blanks comes before the next encoded word.
  The encoder writes such blanks inside the words, except at
  the end of the text.

  Key theorems include:
    * `decoded_encodeLoop`
    * `rfc2047_roundTrip_iff`
-/

namespace Wmail.Rfc822

theorem rdropWhile_append_all {α : Type} {p : α → Bool} {gap : List α}
    (hGap : ∀ x, x ∈ gap → p x = true) (front : List α) :
    (front ++ gap).rdropWhile p = front.rdropWhile p := by
  unfold List.rdropWhile
  rw [List.reverse_append, List.dropWhile_append_of_pos]
  intro x hMem
  exact hGap x (List.mem_reverse.mp hMem)

theorem rdropWhile_append_stop {α : Type} {p : α → Bool} {b : α} (hStop : p b = false)
    (front tail : List α) :
    (front ++ b :: tail).rdropWhile p = front ++ b :: tail.rdropWhile p := by
  unfold List.rdropWhile
  rw [List.reverse_append, List.reverse_cons, List.append_assoc, List.dropWhile_append]
  split
  · rename_i hEmpty
    rw [List.isEmpty_iff.mp hEmpty, List.singleton_append,
      List.dropWhile_cons_of_neg (by simp [hStop])]
    simp
  · simp

theorem rtakeWhile_append_stop {α : Type} {p : α → Bool} {b : α} (hStop : p b = false)
    (front tail : List α) : (front ++ b :: tail).rtakeWhile p = tail.rtakeWhile p := by
  unfold List.rtakeWhile
  rw [List.reverse_append, List.reverse_cons, List.append_assoc, List.takeWhile_append]
  split
  · rename_i hAll
    rw [List.singleton_append, List.takeWhile_cons_of_neg (by simp [hStop]), List.append_nil]
    have hSame := (List.takeWhile_prefix (l := tail.reverse) p).eq_of_length hAll
    rw [hSame]
  · rfl

theorem rtakeWhile_append_all {α : Type} {p : α → Bool} {last : List α}
    (hLast : ∀ x, x ∈ last → p x = true) (front : List α) :
    (front ++ last).rtakeWhile p = front.rtakeWhile p ++ last := by
  unfold List.rtakeWhile
  rw [List.reverse_append, List.takeWhile_append_of_pos, List.reverse_append, List.reverse_reverse]
  intro x hMem
  exact hLast x (List.mem_reverse.mp hMem)

/- The last word of a text. -/
def lastWord (text : List Byte) : List Byte :=
  (text.rdropWhile blank).rtakeWhile (!blank ·)

/-
  The text ends in blanks, directly behind a word that is
  written as an encoded word.
-/
def losesTail (text : List Byte) : Bool :=
  text.getLast?.any blank && (lastWord text).any doencode

theorem losesTail_of_plain {text : List Byte} (hPlain : text.any doencode = false) :
    losesTail text = false := by
  have hLast : (lastWord text).any doencode = false := by
    rw [List.any_eq_false] at hPlain ⊢
    intro b hMem
    have hIn := (List.rtakeWhile_suffix _ _).subset hMem
    exact hPlain b ((List.rdropWhile_prefix _ _).subset hIn)
  unfold losesTail
  rw [hLast, Bool.and_false]

/- A text that ends in a word ends in no blank. -/
theorem getLast_not_blank {front last : List Byte} (hLast : ∀ b, b ∈ last → blank b = false)
    (hSome : last ≠ []) : (front ++ last).getLast?.any blank = false := by
  rw [List.getLast?_append_of_ne_nil _ hSome, List.getLast?_eq_some_getLast hSome, Option.any_some]
  exact hLast _ (List.getLast_mem hSome)

theorem lastWord_append_blanks {front last gap : List Byte}
    (hLast : ∀ b, b ∈ last → blank b = false) (hSome : last ≠ [])
    (hGap : ∀ b, b ∈ gap → blank b = true) :
    lastWord (front ++ last ++ gap) = front.rtakeWhile (!blank ·) ++ last := by
  have hKeep : (front ++ last).rdropWhile blank = front ++ last := by
    rw [List.rdropWhile_eq_self_iff]
    intro hNe hBlank
    have hEnd := @getLast_not_blank front last hLast hSome
    rw [List.getLast?_eq_some_getLast hNe, Option.any_some, hBlank] at hEnd
    cases hEnd
  unfold lastWord
  rw [rdropWhile_append_all hGap, hKeep, rtakeWhile_append_all]
  intro b hMem
  rw [hLast b hMem, Bool.not_false]

/- Blanks behind an encoded word are at the end. -/
theorem losesTail_append_blanks {front last gap : List Byte}
    (hLast : ∀ b, b ∈ last → blank b = false) (hEncode : last.any doencode = true)
    (hGap : ∀ b, b ∈ gap → blank b = true) : losesTail (front ++ last ++ gap) = !gap.isEmpty := by
  have hSome : last ≠ [] := by
    rintro rfl
    cases hEncode
  have hWord : (lastWord (front ++ last ++ gap)).any doencode = true := by
    rw [lastWord_append_blanks hLast hSome hGap, List.any_append, hEncode, Bool.or_true]
  unfold losesTail
  rw [hWord, Bool.and_true]
  by_cases hNil : gap = []
  · rw [hNil, List.append_nil, getLast_not_blank hLast hSome]
    rfl
  · rw [List.getLast?_append_of_ne_nil _ hNil, List.getLast?_eq_some_getLast hNil, Option.any_some,
      hGap _ (List.getLast_mem hNil)]
    simpa using hNil

/- Text that begins with a blank has a last word of its own. -/
theorem losesTail_append {b : Byte} (hBlank : blank b = true) {tail : List Byte}
    (hSome : tail.all blank = false) (front : List Byte) :
    losesTail (front ++ b :: tail) = losesTail (b :: tail) := by
  have hStop : (!blank b) = false := by rw [hBlank, Bool.not_true]
  have hWord : ∀ pre : List Byte, lastWord (pre ++ b :: tail) =
        (tail.rdropWhile blank).rtakeWhile (!blank ·) := by
    intro pre
    rw [List.all_eq_false] at hSome
    rcases hSome with ⟨d, hMem, hWord⟩
    rcases List.append_of_mem hMem with ⟨left, right, rfl⟩
    rw [Bool.not_eq_true] at hWord
    unfold lastWord
    rw [rdropWhile_append_stop hWord, ← List.cons_append, ← List.append_assoc,
      rdropWhile_append_stop hWord, List.append_assoc, List.cons_append]
    exact @rtakeWhile_append_stop _ (!blank ·) b hStop pre _
  have hOwn := hWord []
  rw [List.nil_append] at hOwn
  unfold losesTail
  rw [hWord front, hOwn, List.getLast?_append_of_ne_nil _ (List.cons_ne_nil b tail)]

------------
-- The Words That Are Encoded
------------

/- The text before the first word to be encoded. -/
def rawText (text : List Byte) : List Byte :=
  (text.takeWhile (!doencode ·)).rdropWhile (!blank ·)

/-
  What follows encoded words: nothing or a blank, and no word
  to be encoded without another word before it.
-/
structure Calm (rest : List Byte) : Prop where
  begins : ∀ b, rest.head? = some b → blank b = true
  quiet : rest.any doencode = true → (rawText rest).all blank = false

theorem doencode_of_blank {b : Byte} (hBlank : blank b = true) : doencode b = false := by
  by_contra hEncode
  rw [Bool.not_eq_false] at hEncode
  rw [not_blank_of_doencode hEncode] at hBlank
  cases hBlank

theorem head_dropWhile {p : Byte → Bool} {text more : List Byte} {b : Byte}
    (hMore : text.dropWhile p = b :: more) : p b = false := by
  have hNe : text.dropWhile p ≠ [] := by
    rw [hMore]
    exact List.cons_ne_nil b more
  have hHead := List.head_dropWhile_not p hNe
  simp only [hMore, List.head_cons] at hHead
  exact hHead

/- A gap and a plain word are left for later. -/
theorem calm_of_plain {gap next more : List Byte}
    (hBegins : ∀ b, (gap ++ (next ++ more)).head? = some b →
      blank b = true) (hGap : ∀ b, b ∈ gap → blank b = true)
    (hNext : ∀ b, b ∈ next → blank b = false ∧ doencode b = false)
    (hMore : more = [] ∨ next ≠ [] ∧ ∃ b tail, more = b :: tail ∧ blank b = true) :
    Calm (gap ++ (next ++ more)) := by
  refine ⟨hBegins, ?_⟩
  intro hEncode
  have hPlain : ∀ b, b ∈ gap ++ next → doencode b = false := by
    intro b hMem
    rcases List.mem_append.mp hMem with hIn | hIn
    · exact doencode_of_blank (hGap b hIn)
    · exact (hNext b hIn).2
  rcases hMore with rfl | ⟨hSome, b, tail, rfl, hBlank⟩
  · rw [List.append_nil, List.any_eq_true] at hEncode
    rcases hEncode with ⟨b, hMem, hDo⟩
    rw [hPlain b hMem] at hDo
    cases hDo
  · have hFront : rawText (gap ++ (next ++ b :: tail)) = gap ++ next ++ b :: (tail.takeWhile
          (!doencode ·)).rdropWhile (!blank ·) := by
      have hAll : ∀ d, d ∈ gap ++ next → (!doencode d) = true := by
        intro d hMem
        rw [hPlain d hMem, Bool.not_false]
      have hHere : (!doencode b) = true := by rw [doencode_of_blank hBlank, Bool.not_false]
      have hStop : (!blank b) = false := by rw [hBlank, Bool.not_true]
      unfold rawText
      rw [← List.append_assoc, List.takeWhile_append_of_pos hAll,
        @List.takeWhile_cons_of_pos _ (!doencode ·) b tail hHere]
      exact @rdropWhile_append_stop _ (!blank ·) b hStop _ _
    rw [hFront, List.all_eq_false]
    cases next with
    | nil => exact absurd rfl hSome
    | cons d next =>
      refine ⟨d, by simp, ?_⟩
      rw [(hNext d List.mem_cons_self).1]
      exact Bool.false_ne_true

/-
  The words encoded together end in a word that needs it,
  and what is left over is calm.
-/
theorem encodedRun_split {fuel : Nat} {str : List Byte} (hFuel : str.length ≤ fuel)
    (hWord : (str.takeWhile (!blank ·)).any doencode = true) :
    ∃ front last rest, str = front ++ last ++ rest ∧ encodedRun fuel str = front ++ last ∧
        (∀ b, b ∈ last → blank b = false) ∧
        last.any doencode = true ∧
        Calm rest := by
  induction fuel generalizing str with
  | zero =>
    have hNil := List.length_eq_zero_iff.mp (Nat.le_zero.mp hFuel)
    rw [hNil] at hWord
    cases hWord
  | succ fuel ih =>
    have hStr := List.takeWhile_append_dropWhile (p := (!blank ·)) (l := str)
    have hLast : ∀ b, b ∈ str.takeWhile (!blank ·) → blank b = false := by
      intro b hMem
      simpa using List.mem_takeWhile_imp hMem
    have hBegins : ∀ b, (str.dropWhile (!blank ·)).head? = some b → blank b = true := by
      intro b hHead
      rcases List.head?_eq_some_iff.mp hHead with ⟨tail, hRest⟩
      simpa using head_dropWhile hRest
    have hSize : 0 < (str.takeWhile (!blank ·)).length := by
      rw [List.length_pos_iff]
      intro hNil
      rw [hNil] at hWord
      cases hWord
    unfold encodedRun
    generalize str.takeWhile (!blank ·) = word at *
    generalize str.dropWhile (!blank ·) = rest at *
    subst hStr
    have hRest := List.takeWhile_append_dropWhile (p := blank) (l := rest)
    have hGap : ∀ b, b ∈ rest.takeWhile blank → blank b = true := by
      intro b hMem
      exact List.mem_takeWhile_imp hMem
    have hSplit := List.takeWhile_append_dropWhile (p := fun b => !blank b && !doencode b)
      (l := rest.dropWhile blank)
    have hNext : ∀ b, b ∈ (rest.dropWhile blank).takeWhile (fun b => !blank b && !doencode b) →
          blank b = false ∧ doencode b = false := by
      intro b hMem
      have hPlain := List.mem_takeWhile_imp hMem
      simpa using hPlain
    have hStop : ∀ b tail, (rest.dropWhile blank).dropWhile
        (fun b => !blank b && !doencode b) = b :: tail → blank b = true ∨ doencode b = true := by
      intro b tail hMore
      have hHead := head_dropWhile hMore
      cases hBlank : blank b with
      | true => exact Or.inl rfl
      | false =>
        right
        simpa [hBlank] using hHead
    have hFirst : ∀ b tail, rest.dropWhile blank = b :: tail → blank b = false := by
      intro b tail hMore
      exact head_dropWhile hMore
    simp only []
    generalize rest.takeWhile blank = gap at *
    generalize rest.dropWhile blank = plain at *
    generalize plain.takeWhile (fun b => !blank b && !doencode b) = next at *
    generalize plain.dropWhile (fun b => !blank b && !doencode b) = more at *
    subst hSplit
    subst hRest
    cases more with
    | nil =>
      exact ⟨[], word, gap ++ (next ++ []), rfl, rfl, hLast,
        hWord, calm_of_plain hBegins hGap hNext (Or.inl rfl)⟩
    | cons b tail =>
      simp only []
      by_cases hBlank : blank b = true
      · have hSome : next ≠ [] := by
          rintro rfl
          have hNot := hFirst b tail rfl
          rw [hBlank] at hNot
          cases hNot
        rw [if_pos hBlank]
        exact ⟨[], word, gap ++ (next ++ b :: tail), rfl, rfl,
          hLast, hWord, calm_of_plain hBegins hGap hNext (Or.inr ⟨hSome, b, tail, rfl, hBlank⟩)⟩
      · rw [Bool.not_eq_true] at hBlank
        have hDo : doencode b = true := by
          rcases hStop b tail rfl with hYes | hDo
          · rw [hBlank] at hYes
            cases hYes
          · exact hDo
        have hLess : (b :: tail).length ≤ fuel := by
          simp only [List.length_append] at hFuel
          omega
        have hAgain : ((b :: tail).takeWhile (!blank ·)).any doencode = true := by
          have hHere : (!blank b) = true := by rw [hBlank, Bool.not_false]
          rw [@List.takeWhile_cons_of_pos _ (!blank ·) b tail
            hHere, List.any_cons, hDo, Bool.true_or]
        rcases ih hLess hAgain with ⟨front, last, rest, hStr, hRun, hEnd, hEncode, hCalm⟩
        refine ⟨word ++ (gap ++ (next ++ front)), last, rest, ?_, ?_, hEnd, hEncode, hCalm⟩
        · rw [hStr]
          simp only [List.append_assoc]
        · rw [if_neg (by simp [hBlank]), hRun]
          simp only [List.append_assoc]

/- Where a text loses its end, told by what is left over. -/
theorem losesTail_run {front last rest : List Byte}
    (hLast : ∀ b, b ∈ last → blank b = false) (hEncode : last.any doencode = true)
    (hCalm : Calm rest) :
    losesTail (front ++ last ++ rest) = false ↔ losesTail rest = false ∧
        (rest = [] ∨ rest.all blank = false) := by
  cases hAll : rest.all blank with
  | true =>
    have hGap : ∀ b, b ∈ rest → blank b = true := List.all_eq_true.mp hAll
    have hPlain : rest.any doencode = false := by
      rw [List.any_eq_false]
      intro b hMem
      rw [doencode_of_blank (hGap b hMem)]
      exact Bool.false_ne_true
    rw [losesTail_append_blanks hLast hEncode hGap, losesTail_of_plain hPlain]
    simp
  | false =>
    cases rest with
    | nil => cases hAll
    | cons b tail =>
      have hBlank := hCalm.begins b rfl
      have hSome : tail.all blank = false := by
        rw [List.all_cons, hBlank, Bool.true_and] at hAll
        exact hAll
      rw [losesTail_append hBlank hSome]
      simp

------------
-- Round Trip
------------

theorem all_isspace_eq (text : List Byte) : text.all isspace = text.all blank := by
  have hSame : isspace = blank := by
    funext b
    exact (blank_eq b).symm
  rw [hSame]

/- Text without a character that must be encoded. -/
theorem decoded_self_iff {str : List Byte} (hPlain : str.any doencode = false) (had : Bool) :
    decoded had str = str ↔ (had = true → str = [] ∨ str.all blank = false) := by
  have hRaw : chr '=' ∉ str := by
    intro hMem
    rw [List.any_eq_false] at hPlain
    exact hPlain _ hMem (by decide)
  cases str with
  | nil => simp [decoded, decodeLoop]
  | cons b rest =>
    have hOut := decoded_plain hRaw (List.cons_ne_nil b rest) (Or.inl rfl) had
    rw [List.append_nil] at hOut
    rw [hOut, all_isspace_eq]
    cases had with
    | false => simp [decoded, decodeLoop]
    | true =>
      cases (b :: rest).all blank with
      | false => simp [decoded, decodeLoop]
      | true => simp [decoded, decodeLoop]

/- The first word to be encoded comes behind the raw text. -/
theorem rawText_split {str : List Byte} (hEncode : str.any doencode = true) :
    ∃ word, str = rawText str ++ word ∧ (word.takeWhile (!blank ·)).any doencode = true ∧
      chr '=' ∉ rawText str := by
  have hStr := List.takeWhile_append_dropWhile (p := (!doencode ·)) (l := str)
  have hFront := @List.rdropWhile_append_rtakeWhile _ (!blank ·) (str.takeWhile (!doencode ·))
  have hNext : ∃ d more, str.dropWhile (!doencode ·) = d :: more ∧ doencode d = true := by
    cases hMore : str.dropWhile (!doencode ·) with
    | nil =>
      rw [List.dropWhile_eq_nil_iff] at hMore
      rw [List.any_eq_true] at hEncode
      rcases hEncode with ⟨b, hMem, hDo⟩
      have hNot := hMore b hMem
      rw [hDo] at hNot
      cases hNot
    | cons d more =>
      refine ⟨d, more, rfl, ?_⟩
      simpa using head_dropWhile hMore
  have hClean : chr '=' ∉ rawText str := by
    intro hMem
    have hIn := (List.rdropWhile_prefix _ _).subset hMem
    have hPlain := List.mem_takeWhile_imp hIn
    revert hPlain
    decide
  rcases hNext with ⟨d, more, hDrop, hDo⟩
  refine ⟨(str.takeWhile (!doencode ·)).rtakeWhile (!blank ·) ++ d :: more, ?_, ?_, hClean⟩
  · unfold rawText
    rw [← List.append_assoc, hFront, ← hDrop, hStr]
  · have hAll : ∀ b, b ∈ (str.takeWhile (!doencode ·)).rtakeWhile (!blank ·) →
          (!blank b) = true := by
      intro b hMem
      exact @List.mem_rtakeWhile_imp _ (!blank ·) _ b hMem
    have hHere : (!blank d) = true := by rw [not_blank_of_doencode hDo, Bool.not_false]
    rw [List.takeWhile_append_of_pos hAll, @List.takeWhile_cons_of_pos _ (!blank ·) d more hHere,
      List.any_append, List.any_cons, hDo, Bool.true_or, Bool.or_true]

/- One round of the encoder. -/
theorem encodeLoop_run {charset str word run words : List Byte}
    (hEncode : str.any doencode = true) (hDrop : str.drop (rawText str).length = word)
    (hRun : encodedRun word.length word = run)
    (hWords : encodeWords charset run.length 0 run = some words) (fuel : Nat) :
    encodeLoop charset (fuel + 1) str = (encodeLoop charset fuel (word.drop run.length)).map
        fun more => rawText str ++ words ++ more := by
  cases str with
  | nil => cases hEncode
  | cons b rest =>
    unfold rawText at hDrop ⊢
    rw [encodeLoop, if_pos hEncode]
    simp only []
    rw [hDrop, hRun, hWords]
    exact List.cons_ne_nil b rest

/- What the decoder makes of that round. -/
theorem decoded_run {charset str run more : List Byte} (hCharset : chr '?' ∉ charset)
    (hSome : run ≠ []) (hNul : (0 : Byte) ∉ run) (hRaw : chr '=' ∉ rawText str) {had : Bool}
    (hQuiet : had = true → (rawText str).all blank = false) :
    decoded had (rawText str ++ wordsOut charset 0 run ++ more) =
      rawText str ++ (run ++ decoded true more) := by
  have hStart : ∀ before : Bool, decoded before (wordsOut charset 0 run ++ more) =
        run ++ decoded true more := by
    intro before
    have hOut := @decoded_words charset hCharset
      (charset.length + 5) (Nat.succ_ne_zero _) [] run hSome
      hNul before more
    cases run with
    | nil => exact absurd rfl hSome
    | cons b rest =>
      rw [wordsOut_start, List.append_assoc]
      exact hOut
  have hAt : AtWord (wordsOut charset 0 run ++ more) := by
    cases run with
    | nil => exact absurd rfl hSome
    | cons b rest =>
      rw [wordsOut_start, List.append_assoc, List.append_assoc, List.append_assoc]
      exact Or.inr (List.prefix_append _ _)
  rw [List.append_assoc]
  by_cases hNil : rawText str = []
  · rw [hNil, List.nil_append, List.nil_append, hStart]
  · have hKeep : (had && (rawText str).all isspace) = false := by
      rw [all_isspace_eq]
      cases had with
      | false => rfl
      | true =>
        rw [hQuiet rfl]
        rfl
    rw [decoded_plain hRaw hNil hAt, hKeep, hStart, if_neg Bool.false_ne_true]

theorem decoded_encodeLoop {charset : List Byte} (hCharset : chr '?' ∉ charset)
    (hShort : charset.length < 45) {fuel : Nat} {str : List Byte}
    (hFuel : str.length ≤ fuel) (hText : (0 : Byte) ∉ str) {had : Bool}
    (hCalm : had = true → Calm str) :
    ∃ e, encodeLoop charset fuel str = some e ∧ (decoded had e = str ↔
        losesTail str = false ∧ (had = true → str = [] ∨ str.all blank = false)) := by
  induction fuel generalizing str had with
  | zero =>
    have hNil := List.length_eq_zero_iff.mp (Nat.le_zero.mp hFuel)
    subst hNil
    refine ⟨[], rfl, ?_⟩
    rw [decoded_self_iff rfl]
    simp [losesTail]
  | succ fuel ih =>
    cases hEncode : str.any doencode with
    | false =>
      refine ⟨str, ?_, ?_⟩
      · cases str with
        | nil => rfl
        | cons b rest =>
          unfold encodeLoop
          simp only [hEncode]
          rfl
      · rw [decoded_self_iff hEncode, losesTail_of_plain hEncode]
        simp
    | true =>
      rcases rawText_split hEncode with ⟨word, hStr, hWord, hRaw⟩
      rcases encodedRun_split (Nat.le_refl word.length) hWord with
        ⟨front, last, rest, hSplit, hRun, hLast, hDo, hRest⟩
      have hSome : front ++ last ≠ [] := by
        intro hNil
        rw [(List.append_eq_nil_iff.mp hNil).2] at hDo
        cases hDo
      have hPos := List.length_pos_iff.mpr hSome
      have hLess : rest.length ≤ fuel := by
        rw [hStr, hSplit, List.length_append, List.length_append] at hFuel
        omega
      have hNul : (0 : Byte) ∉ front ++ last ∧ (0 : Byte) ∉ rest := by
        rw [hStr, hSplit, List.mem_append, not_or, List.mem_append, not_or] at hText
        exact hText.2
      rcases @ih rest hLess hNul.2 true (fun _ => hRest) with ⟨more, hMore, hBack⟩
      have hWords : encodeWords charset (front ++ last).length 0 (front ++ last) =
            some (wordsOut charset 0 (front ++ last)) :=
        encodeWords_eq hShort (Nat.le_refl _) (Nat.succ_pos 49)
      refine ⟨rawText str ++ wordsOut charset 0 (front ++ last) ++ more, ?_, ?_⟩
      · have hDrop : str.drop (rawText str).length = word := by
          nth_rewrite 2 [hStr]
          exact List.drop_left
        have hRest : word.drop (front ++ last).length = rest := by
          rw [hSplit]
          exact List.drop_left
        rw [encodeLoop_run hEncode hDrop hRun hWords, hRest, hMore]
        rfl
      · have hQuiet : had = true → (rawText str).all blank = false :=
          fun hHad => (hCalm hHad).quiet hEncode
        have hOther : str.all blank = false := by
          rw [List.any_eq_true] at hEncode
          rcases hEncode with ⟨b, hMem, hNeed⟩
          rw [List.all_eq_false]
          refine ⟨b, hMem, ?_⟩
          rw [not_blank_of_doencode hNeed]
          exact Bool.false_ne_true
        have hJoin : str = rawText str ++ (front ++ last ++ rest) := by
          rw [← hSplit]
          exact hStr
        have hLoses : losesTail str = false ↔ losesTail rest = false ∧
              (rest = [] ∨ rest.all blank = false) := by
          nth_rewrite 1 [hJoin]
          rw [← List.append_assoc, ← List.append_assoc]
          exact losesTail_run hLast hDo hRest
        have hSame : (decoded had (rawText str ++ wordsOut charset 0 (front ++ last) ++ more) =
              str) ↔ decoded true more = rest := by
          rw [decoded_run hCharset hSome hNul.1 hRaw hQuiet]
          nth_rewrite 2 [hJoin]
          rw [List.append_cancel_left_eq, List.append_cancel_left_eq]
        rw [hSame, hBack, hLoses, hOther]
        simp

/-
  The round trip.  It fails for the texts that end in blanks
  behind a word that is encoded.
-/
theorem rfc2047_roundTrip_iff {charset s : List Byte} (hCharset : chr '?' ∉ charset)
    (hShort : charset.length < 40) (hText : (0 : Byte) ∉ s) :
    (rfc2047EncodeStr s charset).map rfc2047DecodeSimple = some s ↔ losesTail s = false := by
  have hLess : charset.length < 45 := by omega
  rcases @decoded_encodeLoop charset hCharset hLess s.length s
    (Nat.le_refl _) hText false (fun hNo => nomatch hNo) with
    ⟨e, hOut, hIff⟩
  have hSame : rfc2047DecodeSimple e = decoded false e := rfl
  have hEncode : rfc2047EncodeStr s charset = some e := hOut
  rw [hEncode, Option.map_some, Option.some_inj, hSame, hIff]
  simp

theorem rfc2047_roundTrip_plain : (rfc2047EncodeStr (bytes "a =?b c_d") (bytes "utf-8")).map
      rfc2047DecodeSimple = some (bytes "a =?b c_d") :=
  (rfc2047_roundTrip_iff (by decide) (by decide)
    (by decide)).mpr (by decide)

/- A blank behind an encoded word at the end is lost. -/
theorem rfc2047_roundTrip_trailing_blank : ¬ ∀ s charset : List Byte,
      (0 : Byte) ∉ s →
        chr '?' ∉ charset →
        charset.length < 40 →
        (rfc2047EncodeStr s charset).map rfc2047DecodeSimple = some s := by
  intro hAll
  have hBack := hAll [0xE9, chr ' '] (bytes "utf-8") (by decide) (by decide) (by decide)
  revert hBack
  decide

end Wmail.Rfc822
