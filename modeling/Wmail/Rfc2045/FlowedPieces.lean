import Wmail.Rfc2045.Rfc2646

/-
  The pieces into which the creator of flowed text wraps a
  line.

  Key theorems include:
    * `wrapLoop_eq`
    * `pieces_wrapped`
-/

namespace Wmail.Rfc2646

/- The words of a line. -/
abbrev words (text : List Byte) : List (List Byte) :=
  wordsOf (chr ' ') text

/- What is left of a line that is wrapped at a blank. -/
def restAfter (text : List Byte) (j : Nat) : List Byte :=
  (text.drop (j + 1)).dropWhile (· = chr ' ')

/- The pieces of a line; the creator may still stuff them. -/
def pieces (linesize : Nat) : Nat → List Byte → List (List Byte)
  | _, [] => [[]]
  | 0, _ :: _ => [[]]
  | fuel + 1, text =>
    if text.length ≤ linesize then
      [text]
    else
      let j := lastBlank text linesize
      if 0 < j then
        text.take j :: (if restAfter text j = [] then
            []
          else
            pieces linesize fuel (restAfter text j))
      else
        text.take (cutWord linesize text) :: pieces linesize fuel
            (text.drop (cutWord linesize text))

/- The pieces as they are sent, each flowing into the next. -/
def joinFlowed : List (List Byte) → List Byte
  | [] => []
  | [piece] => wordwrapLine piece
  | piece :: next :: more => wordwrapLine piece ++ (bytes " \n" ++ joinFlowed (next :: more))

theorem pieces_ne_nil (linesize fuel : Nat) (text : List Byte) :
    pieces linesize fuel text ≠ [] := by
  cases text with
  | nil =>
    rw [pieces]
    exact List.cons_ne_nil _ _
  | cons b rest =>
    cases fuel with
    | zero =>
      rw [pieces]
      exact List.cons_ne_nil _ _
    | succ fuel =>
      rw [pieces]
      · split
        · exact List.cons_ne_nil _ _
        · simp only []
          split <;> exact List.cons_ne_nil _ _
      · exact List.cons_ne_nil b rest

theorem joinFlowed_cons (piece : List Byte) {more : List (List Byte)} (hMore : more ≠ []) :
    joinFlowed (piece :: more) = wordwrapLine piece ++ (bytes " \n" ++ joinFlowed more) := by
  cases more with
  | nil => exact absurd rfl hMore
  | cons next others => rfl

theorem wrapLoop_eq (linesize fuel : Nat) (text : List Byte) :
    wrapLoop linesize fuel text = joinFlowed (pieces linesize fuel text) := by
  induction fuel generalizing text with
  | zero => cases text <;> rfl
  | succ fuel ih =>
    cases text with
    | nil => rfl
    | cons b rest =>
      have hSome := List.cons_ne_nil b rest
      rw [wrapLoop, pieces]
      · split
        · rfl
        · simp only []
          split
          · change wordwrapLine _ ++ (if restAfter (b :: rest)
                (lastBlank (b :: rest) linesize) = [] then
                []
              else
                bytes " \n" ++ wrapLoop linesize fuel (restAfter (b :: rest)
                    (lastBlank (b :: rest) linesize))) = _
            split
            · rw [List.append_nil]
              rfl
            · rw [ih, joinFlowed_cons _ (pieces_ne_nil linesize fuel _)]
          · rw [ih, joinFlowed_cons _ (pieces_ne_nil linesize fuel _)]
      · exact hSome
      · exact hSome

theorem lastBlank_le (text : List Byte) (limit : Nat) : lastBlank text limit ≤ limit := by
  induction limit with
  | zero => exact Nat.le_refl 0
  | succ limit ih =>
    rw [lastBlank]
    split
    · exact Nat.le_refl _
    · exact ih.trans (Nat.le_succ limit)

variable {text : List Byte} {limit : Nat}

theorem getElem_lastBlank (hFound : 0 < lastBlank text limit) :
    text[lastBlank text limit]? = some (chr ' ') := by
  induction limit with
  | zero => cases hFound
  | succ limit ih =>
    rw [lastBlank] at hFound ⊢
    split
    · assumption
    · rename_i hOther
      rw [if_neg hOther] at hFound
      exact ih hFound

theorem not_blank_of_lastBlank (hNone : lastBlank text limit = 0) {k : Nat} (hPos : 0 < k)
    (hLess : k ≤ limit) : text[k]? ≠ some (chr ' ') := by
  induction limit with
  | zero => omega
  | succ limit ih =>
    rw [lastBlank] at hNone
    split at hNone
    · cases hNone
    · rename_i hOther
      rcases Nat.lt_or_eq_of_le hLess with hLt | rfl
      · exact ih hNone (Nat.le_of_lt_succ hLt)
      · exact hOther

/- The text around the blank at which it is wrapped. -/
theorem split_lastBlank (hFound : 0 < lastBlank text limit) :
    text = text.take (lastBlank text limit) ++ chr ' ' :: text.drop (lastBlank text limit + 1) := by
  have hBlank := getElem_lastBlank hFound
  rcases List.getElem?_eq_some_iff.mp hBlank with ⟨hLess, hAt⟩
  rw [← hAt, ← List.drop_eq_getElem_cons hLess, List.take_append_drop]

theorem words_lastBlank (hFound : 0 < lastBlank text limit) :
    words text = words (text.take (lastBlank text limit)) ++
      words (restAfter text (lastBlank text limit)) := by
  nth_rewrite 1 [split_lastBlank hFound]
  unfold words restAfter
  rw [wordsOf_append_sep, wordsOf_dropWhile]

theorem length_restAfter_lt (hFound : 0 < lastBlank text limit) :
    (restAfter text (lastBlank text limit)).length < text.length := by
  have hLess := congrArg List.length (split_lastBlank hFound)
  have hDrop := List.length_dropWhile_le (· = chr ' ') (text.drop (lastBlank text limit + 1))
  rw [List.length_append, List.length_cons] at hLess
  unfold restAfter
  omega

/-
  A line without a blank to wrap it at begins with a blank
  and has a word that fills the whole width.
-/
theorem full_word (hLong : limit < text.length) (hNone : lastBlank text limit = 0)
    (hWords : ∀ word, word ∈ words text → word.length ≤ limit) :
    ∃ word rest, text = chr ' ' :: (word ++ rest) ∧ word.length = limit ∧ chr ' ' ∉ word ∧
        (rest = [] ∨ ∃ more, rest = chr ' ' :: more) := by
  cases text with
  | nil => cases hLong
  | cons b tail =>
    rw [List.length_cons] at hLong
    have hSplit := List.take_append_drop limit tail
    have hSize : (tail.take limit).length = limit := by
      rw [List.length_take]
      omega
    have hClean : chr ' ' ∉ tail.take limit := by
      intro hMem
      rcases List.mem_iff_getElem?.mp hMem with ⟨k, hAt⟩
      rcases List.getElem?_eq_some_iff.mp hAt with ⟨hLess, _⟩
      rw [hSize] at hLess
      rw [List.getElem?_take_of_lt hLess] at hAt
      exact not_blank_of_lastBlank hNone (Nat.succ_pos k) hLess hAt
    have hFirst : b = chr ' ' := by
      by_contra hOther
      have hWord : chr ' ' ∉ b :: tail.take limit := by
        rw [List.mem_cons, not_or]
        exact ⟨fun hEq => hOther hEq.symm, hClean⟩
      have hOut := wordsOf_append_word hWord (List.cons_ne_nil b _) (tail.drop limit)
      rw [List.cons_append, hSplit] at hOut
      have hAll := hWords (b :: (tail.take limit ++ (tail.drop limit).takeWhile (· ≠ chr ' '))) (by
          unfold words
          rw [hOut]
          exact List.mem_cons_self)
      rw [List.length_cons, List.length_append, hSize] at hAll
      omega
    subst hFirst
    refine ⟨tail.take limit, tail.drop limit, ?_, hSize, hClean, ?_⟩
    · rw [hSplit]
    · cases hRest : tail.drop limit with
      | nil => exact Or.inl rfl
      | cons d more =>
        right
        by_cases hBlank : d = chr ' '
        · exact ⟨more, by rw [hBlank]⟩
        · exfalso
          have hWord : chr ' ' ∉ tail.take limit ++ [d] := by
            rw [List.mem_append, List.mem_singleton, not_or]
            exact ⟨hClean, fun hEq => hBlank hEq.symm⟩
          have hOut := wordsOf_append_word hWord (by simp) more
          have hJoin : tail.take limit ++ [d] ++ more = tail := by
            rw [List.append_assoc, List.singleton_append, ← hRest, hSplit]
          rw [hJoin] at hOut
          have hAll := hWords (tail.take limit ++ [d] ++ more.takeWhile (· ≠ chr ' ')) (by
              unfold words
              rw [wordsOf_cons_sep, hOut]
              exact List.mem_cons_self)
          rw [List.length_append, List.length_append, hSize, List.length_singleton] at hAll
          omega

/-
  A line, without the blanks that are not sent, comes through
  wrapping: no piece begins with a quote mark, and no word is
  cut.
-/
def wrapSafe (linesize : Nat) : Nat → List Byte → Bool
  | _, [] => true
  | 0, _ :: _ => true
  | fuel + 1, text =>
    text.head? ≠ some (chr '>') && (if text.length ≤ linesize then
        true
      else if 0 < lastBlank text linesize then
        wrapSafe linesize fuel (restAfter text (lastBlank text linesize))
      else
        -- a full word is kept when its last byte seems to
        -- be half of a character
        cutWord linesize text = linesize + 1 && wrapSafe linesize fuel (text.drop (linesize + 1)))

/- No piece looks like quoted text. -/
def Unquoted (segments : List (List Byte)) : Prop :=
  ∀ piece, piece ∈ segments → piece.head? ≠ some (chr '>')

theorem cutWord_cases (linesize : Nat) (text : List Byte) :
    cutWord linesize text = linesize ∨ cutWord linesize text = linesize + 1 := by
  unfold cutWord
  split
  · exact Or.inr rfl
  · exact Or.inl rfl

theorem unquoted_cons (piece : List Byte) (segments : List (List Byte)) :
    Unquoted (piece :: segments) ↔ piece.head? ≠ some (chr '>') ∧ Unquoted segments :=
  List.forall_mem_cons

theorem unquoted_append (segments more : List (List Byte)) :
    Unquoted (segments ++ more) ↔ Unquoted segments ∧ Unquoted more :=
  List.forall_mem_append

theorem head_take (text : List Byte) {k : Nat} (hPos : 0 < k) :
    (text.take k).head? = text.head? := by
  cases text with
  | nil => rw [List.take_nil]
  | cons b rest =>
    rw [List.take_cons hPos]
    rfl

/-
  What wrapping does to the words of a text, when `safe` says
  whether the text comes through it.
-/
structure Wrapped (segments : List (List Byte)) (target : List (List Byte)) (safe : Bool) :
    Prop where
  counts : target.length ≤ (segments.flatMap words).length
  sound : safe = true → Unquoted segments ∧ segments.flatMap words = target
  complete : Unquoted segments → (segments.flatMap words).length ≤ target.length → safe = true

theorem Wrapped.nil : Wrapped [] [] true where
  counts := Nat.le_refl 0
  sound := by
    intro _
    refine ⟨?_, rfl⟩
    intro piece hMem
    cases hMem
  complete := fun _ _ => rfl

/- One piece with the words of the text. -/
theorem Wrapped.single (piece : List Byte) : Wrapped [piece] (words piece)
      (piece.head? ≠ some (chr '>')) where
  counts := by
    rw [List.flatMap_singleton]
  sound := by
    intro hSafe
    rw [decide_eq_true_iff] at hSafe
    refine ⟨?_, List.flatMap_singleton _ _⟩
    intro other hMem
    rw [List.mem_singleton] at hMem
    rw [hMem]
    exact hSafe
  complete := by
    intro hUnquoted _
    rw [decide_eq_true_iff]
    exact hUnquoted piece List.mem_cons_self

theorem Wrapped.append {segments more target others : List (List Byte)} {safe also : Bool}
    (hFirst : Wrapped segments target safe) (hSecond : Wrapped more others also) :
    Wrapped (segments ++ more) (target ++ others) (safe && also) where
  counts := by
    rw [List.flatMap_append, List.length_append, List.length_append]
    exact Nat.add_le_add hFirst.counts hSecond.counts
  sound := by
    intro hSafe
    rw [Bool.and_eq_true] at hSafe
    rcases hFirst.sound hSafe.1 with ⟨hLeft, hSame⟩
    rcases hSecond.sound hSafe.2 with ⟨hRight, hAlso⟩
    rw [List.flatMap_append, hSame, hAlso]
    exact ⟨(unquoted_append _ _).mpr ⟨hLeft, hRight⟩, rfl⟩
  complete := by
    intro hUnquoted hCount
    have hLeft := hFirst.counts
    have hRight := hSecond.counts
    rw [unquoted_append] at hUnquoted
    rw [List.flatMap_append, List.length_append, List.length_append] at hCount
    rw [Bool.and_eq_true]
    constructor
    · exact hFirst.complete hUnquoted.1 (by omega)
    · exact hSecond.complete hUnquoted.2 (by omega)

/- A piece that ends at the end of a word. -/
theorem Wrapped.cons {piece text rest : List Byte} {segments : List (List Byte)}
    {safe : Bool} (hHead : piece.head? = text.head?)
    (hWords : words text = words piece ++ words rest)
    (hRest : Wrapped segments (words rest) safe) :
    Wrapped (piece :: segments) (words text) (text.head? ≠ some (chr '>') && safe) := by
  have hAll := (Wrapped.single piece).append hRest
  rw [hHead, ← hWords, List.singleton_append] at hAll
  exact hAll

/- A piece that ends inside a word. -/
theorem Wrapped.cut {piece rest : List Byte} {segments target : List (List Byte)} {safe : Bool}
    (hWords : target.length <
      (words piece).length + (words rest).length) (hRest : Wrapped segments (words rest) safe) :
    Wrapped (piece :: segments) target false where
  counts := by
    have hLess := hRest.counts
    rw [List.flatMap_cons, List.length_append]
    omega
  sound := by
    intro hSafe
    cases hSafe
  complete := by
    intro _ hCount
    have hLess := hRest.counts
    rw [List.flatMap_cons, List.length_append] at hCount
    omega

/- A full word that is kept whole. -/
theorem words_full {word rest : List Byte} (hWord : chr ' ' ∉ word) (hSome : word ≠ [])
    (hRest : rest = [] ∨ ∃ more, rest = chr ' ' :: more) :
    words (chr ' ' :: (word ++ rest)) = word :: words rest := by
  unfold words
  rw [wordsOf_cons_sep]
  rcases hRest with rfl | ⟨more, rfl⟩
  · rw [List.append_nil, wordsOf_word hWord hSome, wordsOf_nil]
  · rw [wordsOf_append_sep, wordsOf_word hWord hSome, wordsOf_cons_sep]
    rfl

/- A full word that is cut into two. -/
theorem cut_word {word rest : List Byte} (hWide : 2 ≤ limit) (hWord : chr ' ' ∉ word)
    (hSize : word.length = limit) (hRest : rest = [] ∨ ∃ more, rest = chr ' ' :: more) :
    ∃ left right, words ((chr ' ' :: (word ++ rest)).take limit) = [left] ∧
        words ((chr ' ' :: (word ++ rest)).drop limit) = right :: words rest ∧
        right.length ≤ limit := by
  rcases List.eq_nil_or_concat word with rfl | ⟨left, b, rfl⟩
  · rw [List.length_nil] at hSize
    omega
  · rw [List.concat_eq_append] at hWord hSize ⊢
    rw [List.length_append, List.length_singleton] at hSize
    rw [List.mem_append, not_or] at hWord
    have hSome : left ≠ [] := by
      rintro rfl
      rw [List.length_nil] at hSize
      omega
    have hTake : (chr ' ' :: (left ++ [b] ++ rest)).take limit = chr ' ' :: left := by
      rw [← hSize, List.take_succ_cons, List.append_assoc, List.take_left]
    have hDrop : (chr ' ' :: (left ++ [b] ++ rest)).drop limit = [b] ++ rest := by
      rw [← hSize, List.drop_succ_cons, List.append_assoc, List.drop_left]
    refine ⟨left, [b], ?_, ?_, ?_⟩
    · rw [hTake]
      unfold words
      rw [wordsOf_cons_sep, wordsOf_word hWord.1 hSome]
    · have hOut := words_full hWord.2 (List.cons_ne_nil b []) hRest
      unfold words at hOut ⊢
      rw [wordsOf_cons_sep] at hOut
      rw [hDrop, hOut]
    · rw [List.length_singleton]
      omega

theorem pieces_wrapped {linesize : Nat} (hWide : 2 ≤ linesize) {fuel : Nat}
    (hFuel : text.length ≤ fuel) (hWords : ∀ word, word ∈ words text → word.length ≤ linesize) :
    Wrapped (pieces linesize fuel text) (words text) (wrapSafe linesize fuel text) := by
  induction fuel generalizing text with
  | zero =>
    have hNil := List.length_eq_zero_iff.mp (Nat.le_zero.mp hFuel)
    subst hNil
    exact Wrapped.single []
  | succ fuel ih =>
    by_cases hNil : text = []
    · subst hNil
      exact Wrapped.single []
    rw [pieces, wrapSafe]
    rotate_left
    · exact hNil
    · exact hNil
    by_cases hShort : text.length ≤ linesize
    · rw [if_pos hShort, if_pos hShort, Bool.and_true]
      exact Wrapped.single text
    rw [if_neg hShort, if_neg hShort]
    simp only []
    by_cases hFound : 0 < lastBlank text linesize
    · have hOut := words_lastBlank hFound
      have hLess := length_restAfter_lt hFound
      have hRest := @ih (restAfter text (lastBlank text linesize)) (by omega) (by
          intro word hMem
          apply hWords word
          rw [hOut]
          exact List.mem_append_right _ hMem)
      rw [if_pos hFound, if_pos hFound]
      refine Wrapped.cons (head_take text hFound) hOut ?_
      split
      · rename_i hEmpty
        rw [hEmpty]
        cases fuel <;> exact Wrapped.nil
      · exact hRest
    · rw [if_neg hFound, if_neg hFound]
      have hNone := Nat.eq_zero_of_not_pos hFound
      rcases full_word (Nat.lt_of_not_le hShort) hNone hWords with
        ⟨word, rest, hText, hSize, hClean, hRest⟩
      have hSome : word ≠ [] := by
        rintro rfl
        rw [List.length_nil] at hSize
        omega
      have hOut := words_full hClean hSome hRest
      rw [← hText] at hOut
      have hLength := congrArg List.length hText
      rw [List.length_cons, List.length_append] at hLength
      rcases cutWord_cases linesize text with hCut | hCut
      · have hUneven : ¬ linesize = linesize + 1 := by omega
        rw [hCut, decide_eq_false hUneven, Bool.false_and, Bool.and_false]
        have hLess : text.length - linesize ≤ fuel := by omega
        rcases cut_word hWide hClean hSize hRest with ⟨left, right, hLeft, hRight, hPart⟩
        rw [← hText] at hLeft hRight
        have hMore := @ih (text.drop linesize) (by rw [List.length_drop]; exact hLess) (by
            intro part hMem
            rw [hRight, List.mem_cons] at hMem
            rcases hMem with rfl | hIn
            · exact hPart
            · apply hWords part
              rw [hOut]
              exact List.mem_cons_of_mem word hIn)
        refine Wrapped.cut ?_ hMore
        rw [hOut, hLeft, hRight]
        simp only [List.length_cons, List.length_nil]
        omega
      · rw [hCut, decide_eq_true rfl, Bool.true_and]
        have hTake : text.take (linesize + 1) = chr ' ' :: word := by
          rw [hText, List.take_succ_cons, ← hSize, List.take_left]
        have hDrop : text.drop (linesize + 1) = rest := by
          rw [hText, List.drop_succ_cons, ← hSize, List.drop_left]
        have hPiece : words (chr ' ' :: word) = [word] := by
          unfold words
          rw [wordsOf_cons_sep, wordsOf_word hClean hSome]
        have hLess : rest.length ≤ fuel := by omega
        have hMore := @ih rest hLess (by
          intro part hMem
          apply hWords part
          rw [hOut]
          exact List.mem_cons_of_mem word hMem)
        rw [hDrop]
        refine Wrapped.cons (head_take text (Nat.succ_pos _)) ?_ hMore
        rw [hTake, hPiece, hOut]
        rfl

end Wmail.Rfc2646
