import Wmail.Rfc2045.Rfc2231encode
import Wmail.Rfc822.AddressPieces

/-
  What is left of a text when its tokens are pasted together
  again.

  The tokenizer drops comments, parentheses that close none
  and brackets in the wrong place, and `paste_tokens` does not
  bring them back.  A comment that nothing closes is read as a
  quoted string, with its parenthesis.

  Key theorems include:
    * `pastedText_encodedText`
    * `token_mem_scanText`
-/

namespace Wmail.Rfc2045

open Rfc822 Rfc2231

/- The text behind the comment that is open at a depth. -/
def afterComment : Nat → List Byte → Option (List Byte)
  | _, [] => none
  | level, c :: rest =>
    if c = chr '(' then
      afterComment (level + 1) rest
    else if c = chr ')' then
      if level - 1 = 0 then some rest else afterComment (level - 1) rest
    else
      afterComment level rest

theorem afterComment_suffix {level : Nat} {s later : List Byte}
    (hAfter : afterComment level s = some later) : ∃ front, front ≠ [] ∧ s = front ++ later := by
  induction s generalizing level with
  | nil => cases hAfter
  | cons c rest ih =>
    have hMore : ∀ {level'}, afterComment level' rest = some later →
        ∃ front, front ≠ [] ∧ c :: rest = front ++ later := by
      intro level' hLater
      rcases ih hLater with ⟨front, _hSome, hSplit⟩
      exact ⟨c :: front, List.cons_ne_nil _ _, congrArg (List.cons c) hSplit⟩
    rw [afterComment] at hAfter
    split at hAfter
    · exact hMore hAfter
    · split at hAfter
      · split at hAfter
        · exact ⟨[c], List.cons_ne_nil _ _, congrArg (List.cons c) (Option.some.inj hAfter)⟩
        · exact hMore hAfter
      · exact hMore hAfter

theorem afterComment_length {level : Nat} {s later : List Byte}
    (hAfter : afterComment level s = some later) : later.length < s.length := by
  rcases afterComment_suffix hAfter with ⟨front, hSome, rfl⟩
  have hFront := List.length_pos_iff.mpr hSome
  rw [List.length_append]
  omega

/- Without backslashes, the tokenizer finds the same end. -/
theorem scanComment_eq {s : List Byte} (hBack : chr '\\' ∉ s) (level : Nat) : scanComment level s =
      match afterComment level s with
      | some later => (s.length - later.length, true)
      | none => (s.length, false) := by
  induction s generalizing level with
  | nil => rfl
  | cons c rest ih =>
    rw [List.mem_cons, not_or] at hBack
    have hStep : ∀ level',
        ((scanComment level' rest).1 + 1, (scanComment level' rest).2) =
        match afterComment level' rest with
        | some later => (rest.length + 1 - later.length, true)
        | none => (rest.length + 1, false) := by
      intro level'
      rw [ih hBack.2 level']
      cases hAfter : afterComment level' rest with
      | none => rfl
      | some later =>
        have hLess := afterComment_length hAfter
        show (rest.length - later.length + 1, true) = (rest.length + 1 - later.length, true)
        congr 1
        omega
    rw [scanComment.eq_def, afterComment, List.length_cons]
    dsimp only
    split
    · exact hStep (level + 1)
    · split
      · split
        · show _ = (rest.length + 1 - rest.length, true)
          rw [Nat.add_sub_cancel_left]
        · exact hStep (level - 1)
      · rw [if_neg (fun hEq => hBack.1 hEq.symm)]
        exact hStep level

variable {front : List Byte}

/- Bytes that are no parentheses are passed over. -/
theorem afterComment_append (hOpen : chr '(' ∉ front) (hClose : chr ')' ∉ front)
    (level : Nat) (rest : List Byte) :
    afterComment level (front ++ rest) = afterComment level rest := by
  induction front with
  | nil => rfl
  | cons c front ih =>
    rw [List.mem_cons, not_or] at hOpen hClose
    rw [List.cons_append, afterComment, if_neg (fun hEq => hOpen.1 hEq.symm),
      if_neg (fun hEq => hClose.1 hEq.symm)]
    exact ih hOpen.2 hClose.2

/- The tokens of a text, pasted together. -/
def pastedText (inbracket : Bool) (s : List Byte) : List Byte :=
  pasteTokens (scanText inbracket s)

theorem pasteTokens_cons (t : Token) (ts : List Token) :
    pasteTokens (t :: ts) = pasteTokens [t] ++ pasteTokens ts := by
  unfold pasteTokens
  rw [List.flatMap_singleton, List.flatMap_cons]

@[simp] theorem pastedText_nil (inbracket : Bool) : pastedText inbracket [] = [] :=
  rfl

/- A character that is a token of its own is pasted back. -/
theorem pasteTokens_special {c : Byte} (hSpecial : specials.contains c = true)
    (ptr : List Byte) (len : Nat) : pasteTokens [⟨c, ptr, len⟩] = [c] := by
  have hAll : specials.all (fun c =>
      decide (c ≠ chr '(') && !isAtom c) = true := by
    decide
  have hThis := List.all_eq_true.mp hAll c (List.contains_iff_mem.mp hSpecial)
  rw [Bool.and_eq_true, Bool.not_eq_true', decide_eq_true_iff] at hThis
  unfold pasteTokens
  rw [List.flatMap_singleton, if_neg hThis.1, hThis.2, if_neg Bool.false_ne_true]

/- Atoms and quoted strings are pasted back. -/
theorem pasteTokens_text {token : Byte} (hAtom : token = 0 ∨ token = chr '"')
    (ptr : List Byte) (len : Nat) : pasteTokens [⟨token, ptr, len⟩] = ptr.take len := by
  unfold pasteTokens
  rw [List.flatMap_singleton]
  have hThis : token ≠ chr '(' ∧ isAtom token = true := by
    rcases hAtom with rfl | rfl
    · decide
    · decide
  rw [if_neg hThis.1, if_pos hThis.2]
  rfl

theorem pastedText_special {c : Byte} (hSpecial : inPiece c = true) (inbracket : Bool)
    (rest : List Byte) : pastedText inbracket (c :: rest) = c :: pastedText inbracket rest := by
  unfold pastedText
  rw [scanText_special hSpecial, pasteTokens_cons,
    pasteTokens_special (Bool.and_eq_true_iff.mp hSpecial).1]
  rfl

theorem pastedText_run {atom rest : List Byte} (hAtom : ∀ b, b ∈ atom → isAtomChar b = true)
    (hRest : ∀ b, rest.head? = some b → isAtomChar b = false) (inbracket : Bool) :
    pastedText inbracket (atom ++ rest) = atom ++ pastedText inbracket rest := by
  by_cases hSome : atom = []
  · rw [hSome]
    rfl
  · unfold pastedText
    rw [scanText_atom hAtom hSome hRest, pasteTokens_cons,
      pasteTokens_text (Or.inl rfl), List.take_left]

/- A character of an atom is pasted back before the others. -/
theorem pastedText_atomChar {c : Byte} (hAtom : isAtomChar c = true) (inbracket : Bool)
    (rest : List Byte) : pastedText inbracket (c :: rest) = c :: pastedText inbracket rest := by
  have hMore : ∀ b, b ∈ rest.takeWhile isAtomChar → isAtomChar b = true :=
    forall_takeWhile isAtomChar rest
  have hStop : ∀ b, (rest.dropWhile isAtomChar).head? = some b → isAtomChar b = false :=
    fun b hHead => head_dropWhile_stop b hHead
  have hAll : ∀ b, b ∈ c :: rest.takeWhile isAtomChar → isAtomChar b = true := by
    intro b hMem
    rcases List.mem_cons.mp hMem with rfl | hLater
    · exact hAtom
    · exact hMore b hLater
  have hRest := pastedText_run hMore hStop inbracket
  have hWhole := pastedText_run hAll hStop inbracket
  rw [List.takeWhile_append_dropWhile] at hRest
  rw [List.cons_append, List.takeWhile_append_dropWhile] at hWhole
  rw [hWhole, hRest, List.cons_append]

theorem pastedText_open (rest : List Byte) : pastedText false (chr '<' :: rest) =
      chr '<' :: pastedText true rest := by
  unfold pastedText
  rw [scanText_open, pasteTokens_cons, pasteTokens_special (by decide)]
  split
  · -- the null address of `<>` has no text
    rw [List.singleton_append, List.singleton_append,
      pasteTokens_cons, pasteTokens_text (Or.inl rfl)]
    rfl
  · rfl

theorem pastedText_close (rest : List Byte) : pastedText true (chr '>' :: rest) =
      chr '>' :: pastedText false rest := by
  unfold pastedText
  rw [scanText_close, pasteTokens_cons, pasteTokens_special (by decide)]
  rfl

/- A parenthesis or a bracket that closes nothing is dropped. -/
theorem pastedText_stray (inbracket : Bool) (rest : List Byte) :
    pastedText inbracket (chr ')' :: rest) = pastedText inbracket rest ∧
      pastedText true (chr '<' :: rest) = pastedText true rest ∧
      pastedText false (chr '>' :: rest) = pastedText false rest := by
  unfold pastedText scanText
  refine ⟨?_, ?_, ?_⟩
  · rw [List.length_cons, tokenizeLoop, if_neg (by decide), if_neg (by decide), if_neg (by decide),
      if_pos (Or.inr rfl)]
  all_goals
    rw [List.length_cons, tokenizeLoop, if_neg (by decide), if_neg (by decide), if_neg (by decide),
      if_neg (by decide), if_pos (by decide),
      if_pos (by decide)]

/- A comment is dropped, and kept when it is not closed. -/
theorem pastedText_comment {rest : List Byte} (hBack : chr '\\' ∉ rest) (inbracket : Bool) :
    pastedText inbracket (chr '(' :: rest) =
      match afterComment 1 rest with
      | some later => pastedText inbracket later
      | none => chr '(' :: rest := by
  have hScan : scanComment 0 (chr '(' :: rest) =
      ((scanComment 1 rest).1 + 1, (scanComment 1 rest).2) := by
    rw [scanComment.eq_def]
    exact if_pos rfl
  unfold pastedText scanText
  rw [List.length_cons, tokenizeLoop, if_neg (by decide), if_pos rfl, hScan, scanComment_eq hBack]
  cases hAfter : afterComment 1 rest with
  | none =>
    dsimp only
    rw [if_neg Bool.false_ne_true, pasteTokens_text (Or.inr rfl)]
    exact List.take_of_length_le (Nat.le_refl _)
  | some later =>
    rcases afterComment_suffix hAfter with ⟨front, _hSome, rfl⟩
    have hLen : (front ++ later).length - later.length + 1 = (chr '(' :: front).length := by
      rw [List.length_append, List.length_cons]
      omega
    dsimp only
    rw [if_pos rfl, hLen, ← List.cons_append, List.drop_left, pasteTokens_cons, tokenizeLoop_enough]
    · rfl
    · rw [List.length_append]
      omega

------------
-- Encoded Values
------------

/- A byte that is pasted back wherever it stands. -/
def staysPut (c : Byte) : Bool :=
  isAtomChar c || inPiece c

theorem pastedText_append (hFront : ∀ b, b ∈ front → staysPut b = true) (inbracket : Bool)
    (rest : List Byte) :
    pastedText inbracket (front ++ rest) = front ++ pastedText inbracket rest := by
  induction front with
  | nil => rfl
  | cons c front ih =>
    have hRest := ih fun b hMem => hFront b (List.mem_cons_of_mem c hMem)
    rw [List.cons_append, List.cons_append, ← hRest]
    rcases Bool.or_eq_true_iff.mp (hFront c List.mem_cons_self) with hAtom | hSpecial
    · exact pastedText_atomChar hAtom inbracket _
    · exact pastedText_special hSpecial inbracket _

/-
  A value comes through the tokenizer: no comment in it is
  closed, and up to a comment that is left open there is no
  closing parenthesis and brackets open and close in turn.
-/
def survives (inbracket : Bool) : List Byte → Bool
  | [] => true
  | c :: rest =>
    if c = chr '(' then
      (afterComment 1 rest).isNone
    else if c = chr ')' then
      false
    else if c = chr '<' then
      !inbracket && survives true rest
    else if c = chr '>' then
      inbracket && survives false rest
    else
      survives inbracket rest

/- The four characters that may be lost are not escaped. -/
theorem encodedByte_classes : ∀ c : Byte, (encodedByte c = [c] ∧ (c = chr '(' ∨ c = chr ')' ∨
        c = chr '<' ∨ c = chr '>')) ∨
      ((encodedByte c).all staysPut = true ∧
        c ≠ chr '(' ∧ c ≠ chr ')' ∧ c ≠ chr '<' ∧ c ≠ chr '>') := by
  apply byte_forall
  decide +kernel

theorem staysPut_not_mem (hFront : front.all staysPut = true) :
    chr '(' ∉ front ∧ chr ')' ∉ front ∧ chr '\\' ∉ front ∧ chr '"' ∉ front := by
  have hFixed : ∀ c, staysPut c = false → c ∉ front := by
    intro c hFalse hMem
    rw [List.all_eq_true.mp hFront c hMem] at hFalse
    cases hFalse
  exact ⟨hFixed _ (by decide), hFixed _ (by decide), hFixed _ (by decide), hFixed _ (by decide)⟩

theorem encodedText_not_mem (value : List Byte) :
    chr '\\' ∉ encodedText value ∧ chr '"' ∉ encodedText value := by
  induction value with
  | nil => exact ⟨List.not_mem_nil, List.not_mem_nil⟩
  | cons c value ih =>
    rw [encodedText_cons, List.mem_append, List.mem_append, not_or, not_or]
    rcases encodedByte_classes c with ⟨hByte, hLost⟩ | ⟨hStays, _⟩
    · rw [hByte, List.mem_singleton, List.mem_singleton]
      refine ⟨⟨?_, ih.1⟩, ?_, ih.2⟩
      all_goals
        rcases hLost with rfl | rfl | rfl | rfl
        all_goals decide
    · rcases staysPut_not_mem hStays with ⟨_, _, hBack, hQuote⟩
      exact ⟨⟨hBack, ih.1⟩, hQuote, ih.2⟩

theorem afterComment_encodedText (level : Nat) (value : List Byte) :
    afterComment level (encodedText value) = (afterComment level value).map encodedText := by
  induction value generalizing level with
  | nil => rfl
  | cons c value ih =>
    rw [encodedText_cons]
    rcases encodedByte_classes c with ⟨hByte, _⟩ | ⟨hStays, hOpen, hClose, _⟩
    · rw [hByte, List.singleton_append, afterComment, afterComment, ih, ih, ih]
      split
      · rfl
      · split
        · split
          · rfl
          · rfl
        · rfl
    · have hParens := staysPut_not_mem hStays
      rw [afterComment_append hParens.1 hParens.2.1, ih, afterComment, if_neg hOpen, if_neg hClose]

/-
  What is pasted together of an encoded value is the encoding
  of what is kept of the value.
-/
theorem pastedText_encodedText (value : List Byte) (inbracket : Bool) :
    ∃ kept, pastedText inbracket (encodedText value) = encodedText kept ∧ kept.Sublist value ∧
      (kept = value ↔ survives inbracket value = true) := by
  induction hLength : value.length using Nat.strongRecOn generalizing value inbracket with
  | ind n ih =>
    cases value with
    | nil => exact ⟨[], rfl, List.Sublist.refl _, fun _ => rfl, fun _ => rfl⟩
    | cons c value =>
      rw [List.length_cons] at hLength
      have hBack := (encodedText_not_mem value).1
      -- the byte is kept, and the rest decides
      have hKeep : ∀ b : Bool, pastedText inbracket (encodedText (c :: value)) =
            encodedByte c ++ pastedText b (encodedText value) →
          survives inbracket (c :: value) = survives b value →
          ∃ kept, pastedText inbracket (encodedText (c :: value)) = encodedText kept ∧
            kept.Sublist (c :: value) ∧
            (kept = c :: value ↔ survives inbracket (c :: value) = true) := by
        intro b hText hSame
        rcases ih _ (by omega) value b rfl with ⟨kept, hKept, hSub, hIff⟩
        refine ⟨c :: kept, ?_, hSub.cons_cons c, ?_⟩
        · rw [hText, hKept, encodedText_cons]
        · rw [hSame, ← hIff, List.cons_inj_right]
      -- the byte is lost, with what follows it or not
      have hDrop : ∀ (b : Bool) (later : List Byte), later.Sublist value →
          pastedText inbracket (encodedText (c :: value)) = pastedText b (encodedText later) →
          survives inbracket (c :: value) = false →
          ∃ kept, pastedText inbracket (encodedText (c :: value)) = encodedText kept ∧
            kept.Sublist (c :: value) ∧
            (kept = c :: value ↔ survives inbracket (c :: value) = true) := by
        intro b later hLater hText hFalse
        have hShort := hLater.length_le
        rcases ih _ (by omega) later b rfl with ⟨kept, hKept, hSub, _hIff⟩
        have hLess := hSub.length_le
        refine ⟨kept, hText.trans hKept, (hSub.trans hLater).cons c, ?_⟩
        rw [hFalse]
        constructor
        · intro hEq
          rw [hEq, List.length_cons] at hLess
          omega
        · exact nofun
      rcases encodedByte_classes c with ⟨hByte, hLost⟩ | ⟨hStays, hOpen, hClose, hLt, hGt⟩
      · have hText : encodedText (c :: value) = c :: encodedText value := by
          rw [encodedText_cons, hByte, List.singleton_append]
        rcases hLost with rfl | rfl | rfl | rfl
        · have hComment := pastedText_comment hBack inbracket
          rw [← hText, afterComment_encodedText] at hComment
          cases hAfter : afterComment 1 value with
          | none =>
            rw [hAfter] at hComment
            refine ⟨chr '(' :: value, hComment.trans hText.symm, List.Sublist.refl _, fun _ => ?_,
              fun _ => rfl⟩
            rw [survives, if_pos rfl, hAfter]
            rfl
          | some later =>
            rw [hAfter] at hComment
            rcases afterComment_suffix hAfter with ⟨front, _hSome, hSplit⟩
            refine hDrop inbracket later ?_ hComment ?_
            · rw [hSplit]
              exact List.sublist_append_right front later
            · rw [survives, if_pos rfl, hAfter]
              rfl
        · refine hDrop inbracket value (List.Sublist.refl _) ?_ rfl
          rw [hText]
          exact (pastedText_stray inbracket _).1
        · cases inbracket with
          | true =>
            refine hDrop true value (List.Sublist.refl _) ?_ rfl
            rw [hText]
            exact (pastedText_stray true _).2.1
          | false =>
            refine hKeep true ?_ rfl
            rw [hText, hByte]
            exact pastedText_open _
        · cases inbracket with
          | true =>
            refine hKeep false ?_ rfl
            rw [hText, hByte]
            exact pastedText_close _
          | false =>
            refine hDrop false value (List.Sublist.refl _) ?_ rfl
            rw [hText]
            exact (pastedText_stray true _).2.2
      · refine hKeep inbracket ?_ ?_
        · rw [encodedText_cons]
          exact pastedText_append (fun b => List.all_eq_true.mp hStays b) inbracket _
        · rw [survives, if_neg hOpen, if_neg hClose, if_neg hLt, if_neg hGt]

/- A token that is no text stands in the text itself. -/
theorem token_mem {fuel : Nat} {inbracket : Bool} {s : List Byte} {t : Token}
    (hMem : t ∈ tokenizeLoop fuel inbracket s) : isAtom t.token = true ∨ t.token ∈ s := by
  have hWeaken : ∀ {later s : List Byte}, (∀ b, b ∈ later → b ∈ s) →
      isAtom t.token = true ∨ t.token ∈ later →
      isAtom t.token = true ∨ t.token ∈ s :=
    fun hSub hEither => hEither.imp_right (hSub _)
  fun_induction tokenizeLoop fuel inbracket s with
  | case1 => cases hMem
  | case2 => cases hMem
  | case3 _ _ c rest _ ih | case8 _ _ c rest _ _ _ _ ih
  | case9 _ _ c rest _ _ _ _ _ _ ih => exact hWeaken (fun b => List.mem_cons_of_mem c) (ih hMem)
  | case4 _ _ rest len _ _ ih =>
    rcases List.mem_cons.mp hMem with rfl | hLater
    · exact Or.inl rfl
    · exact hWeaken (fun b => List.mem_of_mem_drop) (ih hLater)
  | case5 | case7 =>
    rw [List.mem_singleton.mp hMem]
    exact Or.inl rfl
  | case6 _ _ rest len _ _ _ ih =>
    rcases List.mem_cons.mp hMem with rfl | hLater
    · exact Or.inl rfl
    · exact hWeaken (fun b hIn => List.mem_cons_of_mem _ (List.mem_of_mem_drop hIn)) (ih hLater)
  | case10 _ _ c rest _ _ _ _ _ _ inside fake ih =>
    rcases List.mem_cons.mp hMem with rfl | hLater
    · exact Or.inr List.mem_cons_self
    · rcases List.mem_append.mp hLater with hFake | hRest
      · rw [List.mem_ite_nil_right] at hFake
        rw [List.mem_singleton.mp hFake.2]
        exact Or.inl rfl
      · exact hWeaken (fun b => List.mem_cons_of_mem c) (ih hRest)
  | case11 _ _ c rest _ _ _ _ _ len ih =>
    rcases List.mem_cons.mp hMem with rfl | hLater
    · exact Or.inl rfl
    · exact hWeaken (fun b => List.mem_of_mem_drop) (ih hLater)

/-
  Where there is no quote in the text, a quoted string is a
  comment that nothing closes, and the last token.
-/
theorem quoted_last {fuel : Nat} {inbracket : Bool} {s : List Byte} (hNone : chr '"' ∉ s)
    {t : Token} {ts : List Token} (hTokens : tokenizeLoop fuel inbracket s = t :: ts)
    (hQuote : t.token = chr '"') : ts = [] := by
  fun_induction tokenizeLoop fuel inbracket s with
  | case1 | case2 => cases hTokens
  | case3 _ _ c rest _ ih | case8 _ _ c rest _ _ _ _ ih
  | case9 _ _ c rest _ _ _ _ _ _ ih => exact ih (List.not_mem_of_not_mem_cons hNone) hTokens
  | case4 =>
    rw [← (List.cons.inj hTokens).1] at hQuote
    have hOther : chr '(' ≠ chr '"' := by decide
    exact absurd hQuote hOther
  | case5 => exact (List.cons.inj hTokens).2.symm
  | case6 | case7 => exact absurd List.mem_cons_self hNone
  | case10 _ _ c rest _ _ hOther =>
    rw [← (List.cons.inj hTokens).1] at hQuote
    exact absurd hQuote hOther
  | case11 =>
    rw [← (List.cons.inj hTokens).1] at hQuote
    have hOther : (0 : Byte) ≠ chr '"' := by decide
    exact absurd hQuote hOther

end Wmail.Rfc2045
