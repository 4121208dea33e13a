import Wmail.Rfc822.HeaderRoundTrip

/-
  The bytes of a header that are written in encoded words:
  which they are can be told from the words of the header,
  without the encoder.

  Key theorems include:
    * `encoded_split`
    * `encoded_round`
-/

namespace Wmail.Rfc822

/-
  A byte that satisfies `p` is encoded: it is in a word with
  a character that must be encoded, or between two such words.
-/
def Encoded (p : Byte → Bool) (str : List Byte) : Prop :=
  ∃ word gap next : List Byte, word ++ (gap ++ next) <:+: str ∧ (∀ b, b ∈ word → blank b = false) ∧
      (∀ b, b ∈ gap → blank b = true) ∧
      (∀ b, b ∈ next → blank b = false) ∧
      word.any doencode = true ∧
      (gap = [] ∧ next = [] ∨ next.any doencode = true) ∧
      (word ++ gap).any p = true

variable {p : Byte → Bool}

theorem Encoded.within {str text : List Byte} (hEncoded : Encoded p str)
    (hText : str <:+: text) : Encoded p text := by
  rcases hEncoded with ⟨word, gap, next, hStr, hRest⟩
  exact ⟨word, gap, next, hStr.trans hText, hRest⟩

/- A byte of a word that must be encoded. -/
theorem encoded_of_word {word str : List Byte} (hStr : word <:+: str)
    (hWord : ∀ b, b ∈ word → blank b = false) (hEncode : word.any doencode = true)
    (hByte : word.any p = true) : Encoded p str := by
  refine ⟨word, [], [], ?_, hWord, ?_, ?_, hEncode, Or.inl ⟨rfl, rfl⟩, ?_⟩
  · simpa using hStr
  · intro b hB
    cases hB
  · intro b hB
    cases hB
  · simpa using hByte

/- What is encoded in one run of the encoder is `Encoded`. -/
theorem encoded_of_run {fuel : Nat} {str : List Byte} (hFuel : str.length ≤ fuel)
    (hWord : (str.takeWhile (!blank ·)).any doencode = true)
    (hByte : (encodedRun fuel str).any p = true) : Encoded p str := by
  induction fuel generalizing str with
  | zero =>
    have hNil := List.eq_nil_of_length_eq_zero (Nat.le_zero.mp hFuel)
    rw [hNil] at hWord
    cases hWord
  | succ fuel ih =>
    have hStr := List.takeWhile_append_dropWhile (p := (!blank ·)) (l := str)
    have hSolid : ∀ b, b ∈ str.takeWhile (!blank ·) → blank b = false := by
      intro b hMem
      simpa using List.mem_takeWhile_imp hMem
    have hSize : 0 < (str.takeWhile (!blank ·)).length := by
      rw [List.length_pos_iff]
      intro hNil
      rw [hNil] at hWord
      cases hWord
    unfold encodedRun at hByte
    simp only [] at hByte
    generalize str.takeWhile (!blank ·) = word at *
    generalize str.dropWhile (!blank ·) = rest at *
    subst hStr
    have hHere : word.any p = true → Encoded p (word ++ rest) := by
      intro hAny
      exact encoded_of_word (List.prefix_append _ _).isInfix hSolid hWord hAny
    have hRest := List.takeWhile_append_dropWhile (p := blank) (l := rest)
    have hGap : ∀ b, b ∈ rest.takeWhile blank → blank b = true := by
      intro b hMem
      exact List.mem_takeWhile_imp hMem
    have hSplit := List.takeWhile_append_dropWhile (p := fun b => !blank b && !doencode b)
      (l := rest.dropWhile blank)
    have hNext : ∀ b, b ∈ (rest.dropWhile blank).takeWhile (fun b => !blank b && !doencode b) →
          blank b = false := by
      intro b hMem
      have hPlain := List.mem_takeWhile_imp hMem
      simp only [Bool.and_eq_true, Bool.not_eq_true'] at hPlain
      exact hPlain.1
    have hStop : ∀ b tail, (rest.dropWhile blank).dropWhile
        (fun b => !blank b && !doencode b) = b :: tail → blank b = false → doencode b = true := by
      intro b tail hMore hBlank
      have hHead := head_dropWhile hMore
      simpa [hBlank] using hHead
    generalize rest.takeWhile blank = gap at *
    generalize rest.dropWhile blank = plain at *
    generalize plain.takeWhile (fun b => !blank b && !doencode b) = next at *
    generalize plain.dropWhile (fun b => !blank b && !doencode b) = more at *
    subst hSplit
    subst hRest
    cases more with
    | nil => exact hHere hByte
    | cons d tail =>
      simp only [] at hByte
      cases hBlank : blank d with
      | true =>
        rw [hBlank, if_pos rfl] at hByte
        exact hHere hByte
      | false =>
        have hDo := hStop d tail rfl hBlank
        have hLast : ∀ b, b ∈ next ++ [d] → blank b = false := by
          intro b hMem
          rcases List.mem_append.mp hMem with hIn | hIn
          · exact hNext b hIn
          · rw [List.mem_singleton.mp hIn]
            exact hBlank
        have hLastDo : (next ++ [d]).any doencode = true := by
          rw [List.any_append, List.any_cons, hDo, Bool.true_or, Bool.or_true]
        rw [hBlank, if_neg Bool.false_ne_true, List.any_append, List.any_append,
          List.any_append] at hByte
        simp only [Bool.or_eq_true] at hByte
        rcases hByte with hIn | hIn | hIn | hIn
        · exact hHere hIn
        · refine ⟨word, gap, next ++ [d], ⟨[], tail, by simp⟩, hSolid, hGap, hLast,
            hWord, Or.inr hLastDo, ?_⟩
          rw [List.any_append, hIn, Bool.or_true]
        · refine encoded_of_word ⟨word ++ gap, tail, by simp⟩ hLast hLastDo ?_
          rw [List.any_append, hIn, Bool.true_or]
        · have hAgain : ((d :: tail).takeWhile (!blank ·)).any doencode = true := by
            rw [@List.takeWhile_cons_of_pos _ (!blank ·)
              d tail (by rw [hBlank]; rfl), List.any_cons,
              hDo, Bool.true_or]
          have hLess : (d :: tail).length ≤ fuel := by
            simp only [List.length_append] at hFuel
            omega
          exact (ih hLess hAgain hIn).within ⟨word ++ (gap ++ next), [], by simp⟩

/- A text that begins with a blank, or is empty. -/
theorem head_of_prefix {front rest : List Byte}
    (hBegins : ∀ b, rest.head? = some b → blank b = true) (hFront : front <+: rest)
    (hSolid : ∀ b, b ∈ front → blank b = false) : front = [] := by
  cases front with
  | nil => rfl
  | cons b front =>
    rcases hFront with ⟨tail, rfl⟩
    have hBlank := hBegins b rfl
    rw [hSolid b List.mem_cons_self] at hBlank
    cases hBlank

/- No word to be encoded comes next after an encoded one. -/
theorem Calm.no_next {rest gap next : List Byte} (hCalm : Calm rest)
    (hRest : gap ++ next <+: rest) (hGap : ∀ b, b ∈ gap → blank b = true)
    (hNext : ∀ b, b ∈ next → blank b = false) : next.any doencode = false := by
  rw [Bool.eq_false_iff]
  intro hEncode
  rcases hRest with ⟨tail, rfl⟩
  have hAny : (gap ++ next ++ tail).any doencode = true := by
    rw [List.any_append, List.any_append, hEncode, Bool.or_true, Bool.true_or]
  have hQuiet := hCalm.quiet hAny
  have hRaw : rawText (gap ++ next ++ tail) = gap := by
    have hPlain : ∀ b, b ∈ gap → (!doencode b) = true := by
      intro b hMem
      rw [doencode_of_blank (hGap b hMem), Bool.not_false]
    have hTake : (next ++ tail).takeWhile (!doencode ·) = next.takeWhile (!doencode ·) := by
      rw [List.takeWhile_append, if_neg]
      intro hAll
      rw [List.any_eq_true] at hEncode
      rcases hEncode with ⟨d, hMem, hDo⟩
      have hSame := (List.takeWhile_prefix (l := next) (!doencode ·)).eq_of_length hAll
      rw [← hSame] at hMem
      have hNot := List.mem_takeWhile_imp hMem
      rw [hDo] at hNot
      cases hNot
    unfold rawText
    rw [List.append_assoc, List.takeWhile_append_of_pos hPlain, hTake, rdropWhile_append_all]
    · rw [List.rdropWhile_eq_self_iff]
      intro hSome hLast
      rw [hGap _ (List.getLast_mem hSome)] at hLast
      cases hLast
    · intro b hMem
      rw [hNext b ((List.takeWhile_prefix _).subset hMem), Bool.not_false]
  rw [hRaw] at hQuiet
  rw [List.all_eq_true.mpr hGap] at hQuiet
  cases hQuiet

/- The text before the first word to be encoded. -/
theorem rawText_plain {str : List Byte} : (rawText str).any doencode = false ∧
      ∀ b, (rawText str).getLast? = some b → blank b = true := by
  constructor
  · rw [List.any_eq_false]
    intro b hMem
    have hIn := (List.rdropWhile_prefix _ _).subset hMem
    have hPlain := List.mem_takeWhile_imp hIn
    simpa using hPlain
  · intro b hLast
    rcases List.getLast?_eq_some_iff.mp hLast with ⟨front, hRaw⟩
    have hSome : rawText str ≠ [] := by
      rw [hRaw]
      simp
    have hStop := @List.rdropWhile_last_not _ (!blank ·) _ hSome
    have hEnd := List.getLast?_eq_some_getLast hSome
    rw [hLast] at hEnd
    unfold rawText at hEnd
    rw [← Option.some.inj hEnd] at hStop
    simpa using hStop

/- What is encoded comes behind the raw text. -/
theorem encoded_behind_raw {raw str : List Byte} (hRaw : raw.any doencode = false)
    (hLast : ∀ b, raw.getLast? = some b → blank b = true)
    (hEncoded : Encoded p (raw ++ str)) : Encoded p str := by
  rcases hEncoded with ⟨word, gap, next, hStr, hSolid, hGap, hNext, hEncode, hRest⟩
  have hIn : ¬ word <:+: raw := by
    intro hInfix
    rw [List.any_eq_false] at hRaw
    rw [List.any_eq_true] at hEncode
    rcases hEncode with ⟨d, hMem, hDo⟩
    exact hRaw d (hInfix.subset hMem) hDo
  rcases List.infix_append_iff.mp hStr with hLeft | hRight | ⟨l, r, hJoin, hL, hR⟩
  · exact absurd ((List.prefix_append _ _).isInfix.trans hLeft) hIn
  · exact ⟨word, gap, next, hRight, hSolid, hGap, hNext, hEncode, hRest⟩
  · rcases List.append_eq_append_iff.mp hJoin with ⟨more, hMore, _⟩ | ⟨more, hMore, hTail⟩
    · apply absurd _ hIn
      rw [hMore] at hL
      exact (List.prefix_append _ _).isInfix.trans hL.isInfix
    · have hNil : l = [] := by
        rcases List.eq_nil_or_concat l with hNil | ⟨front, b, hB⟩
        · exact hNil
        · rcases hL with ⟨before, hBefore⟩
          rw [List.concat_eq_append] at hB
          have hBlank := hLast b (by
            rw [← hBefore, hB, ← List.append_assoc]
            exact List.getLast?_concat)
          rw [hSolid b (by rw [hMore, hB]; simp)] at hBlank
          cases hBlank
      rw [hNil, List.nil_append] at hJoin
      rw [← hJoin] at hR
      exact ⟨word, gap, next, hR.isInfix, hSolid, hGap, hNext, hEncode, hRest⟩

/- It is in the run that comes first, or in what follows. -/
theorem encoded_split {front last rest : List Byte}
    (hLast : ∀ b, b ∈ last → blank b = false) (hSome : last ≠ []) (hCalm : Calm rest)
    (hEncoded : Encoded p (front ++ last ++ rest)) :
    (front ++ last).any p = true ∨ Encoded p rest := by
  rcases hEncoded with ⟨word, gap, next, hStr, hSolid, hGap, hNext, hEncode, hAnd, hByte⟩
  have hIn : ∀ text : List Byte, word ++ (gap ++ next) <:+: text → text.any p = true := by
    intro text hText
    rw [List.any_eq_true] at hByte ⊢
    rcases hByte with ⟨b, hMem, hP⟩
    refine ⟨b, hText.subset ?_, hP⟩
    rw [← List.append_assoc]
    exact List.mem_append_left _ hMem
  -- the boundary cannot be in a word, nor behind one
  rcases List.infix_append_iff.mp hStr with hLeft | hRight | ⟨l, r, hJoin, hL, hR⟩
  · exact Or.inl (hIn _ hLeft)
  · exact Or.inr ⟨word, gap, next, hRight, hSolid, hGap, hNext, hEncode, hAnd, hByte⟩
  · left
    have hWhole : r = [] → (front ++ last).any p = true := by
      intro hNil
      rw [hNil, List.append_nil] at hJoin
      rw [← hJoin] at hL
      exact hIn _ hL.isInfix
    have hHead : ∀ solid : List Byte, solid <+: r →
        (∀ b, b ∈ solid → blank b = false) → solid = [] := by
      intro solid hPrefix hAll
      exact head_of_prefix hCalm.begins (hPrefix.trans hR) hAll
    have hBoundary : l = word → r = gap ++ next → (front ++ last).any p = true := by
      intro hWord hRest
      rcases hAnd with ⟨hG, hN⟩ | hDo
      · rw [hG, hN] at hRest
        exact hWhole hRest
      · rw [hRest] at hR
        rw [hCalm.no_next hR hGap hNext] at hDo
        cases hDo
    rcases List.append_eq_append_iff.mp hJoin with ⟨more, hMore, hTail⟩ | ⟨more, hMore, hTail⟩
    · -- the run ends behind the word
      rcases List.append_eq_append_iff.mp hTail with ⟨after, hAfter, hEnd⟩ | ⟨after, hAfter, hEnd⟩
      · apply hWhole
        apply hHead r (List.prefix_refl r)
        intro b hB
        apply hNext b
        rw [hEnd]
        exact List.mem_append_right _ hB
      · have hNone : more = [] := by
          rcases List.eq_nil_or_concat more with hNil | ⟨most, b, hB⟩
          · exact hNil
          · rcases hL with ⟨before, hBefore⟩
            rw [List.concat_eq_append] at hB
            have hEndsIn := @getLast_not_blank front last hLast hSome
            rw [← hBefore, hMore, hB, ← List.append_assoc word, ← List.append_assoc,
              List.getLast?_concat, Option.any_some] at hEndsIn
            rw [hGap b (by rw [hAfter, hB]; simp)] at hEndsIn
            cases hEndsIn
        rw [hNone, List.append_nil] at hMore
        rw [hNone, List.nil_append] at hAfter
        rw [hAfter] at hBoundary
        exact hBoundary hMore hEnd
    · have hNone := hHead more ⟨gap ++ next, hTail.symm⟩ fun b hB =>
        hSolid b (by rw [hMore]; exact List.mem_append_right _ hB)
      rw [hNone, List.append_nil] at hMore
      rw [hNone, List.nil_append] at hTail
      exact hBoundary hMore.symm hTail

theorem not_encoded_of_plain {str : List Byte} (hPlain : str.any doencode = false) :
    ¬ Encoded p str := by
  rintro ⟨word, gap, next, hStr, _, _, _, hEncode, _⟩
  rw [List.any_eq_false] at hPlain
  rw [List.any_eq_true] at hEncode
  rcases hEncode with ⟨b, hMem, hDo⟩
  exact hPlain b (hStr.subset (List.mem_append_left _ hMem)) hDo

/- The parts of a header in one round of the encoder. -/
structure EncoderRound (str run rest : List Byte) : Prop where
  run_eq : encodedRun (str.drop (rawText str).length).length (str.drop (rawText str).length) = run
  rest_eq : (str.drop (rawText str).length).drop run.length = rest
  parts : str = rawText str ++ (run ++ rest)
  run_ne : run ≠ []
  calm : Calm rest
  encoded : ∀ p, Encoded p str ↔ run.any p = true ∨ Encoded p rest

theorem encoderRound {str : List Byte} (hEncode : str.any doencode = true) :
    ∃ run rest, EncoderRound str run rest := by
  rcases rawText_split hEncode with ⟨word, hStr, hWord, _⟩
  rcases encodedRun_split (Nat.le_refl word.length) hWord with
    ⟨front, last, rest, hParts, hRun, hLast, hDo, hCalm⟩
  have hSome : last ≠ [] := by
    rintro rfl
    cases hDo
  have hDrop : str.drop (rawText str).length = word := by
    have hLeft : (rawText str ++ word).drop (rawText str).length = word := List.drop_left
    rw [← hStr] at hLeft
    exact hLeft
  refine ⟨front ++ last, rest, ?_⟩
  exact
    { run_eq := by
        rw [hDrop, hRun]
      rest_eq := by
        rw [hDrop, hParts]
        exact List.drop_left
      parts := by
        rw [← hParts]
        exact hStr
      run_ne := by
        simp [hSome]
      calm := hCalm
      encoded := by
        intro p
        constructor
        · intro hEncoded
          rw [hStr] at hEncoded
          have hBehind := encoded_behind_raw rawText_plain.1 rawText_plain.2 hEncoded
          rw [hParts] at hBehind
          exact encoded_split hLast hSome hCalm hBehind
        · rintro (hByte | hRest)
          · rw [← hRun] at hByte
            have hIn := encoded_of_run (Nat.le_refl word.length) hWord hByte
            refine hIn.within ⟨rawText str, [], ?_⟩
            rw [List.append_nil, ← hStr]
          · refine hRest.within ⟨rawText str ++ (front ++ last), [], ?_⟩
            rw [List.append_nil, List.append_assoc, ← hParts, ← hStr] }

end Wmail.Rfc822
