import Wmail.Rfc822.Rfc2047
import Mathlib.Data.List.TakeDrop
import Mathlib.Data.List.TakeWhile

/-
  Encoded words and what the decoder makes of them.

  Key theorems include:
    * `decoded_plain`
    * `decoded_words`
-/

namespace Wmail.Rfc822

/- A character of an encoded word, as it is written. -/
def qEncode (b : Byte) : List Byte :=
  if special b then encodeSpecial b else [b]

set_option maxRecDepth 8000 in
theorem blank_eq (b : Byte) : blank b = isspace b :=
  @byte_forall (fun b => blank b = isspace b) (by decide) b

theorem not_blank_of_doencode {b : Byte} (hEncode : doencode b = true) : blank b = false := by
  have hAll : ∀ b, doencode b = true → blank b = false := by
    apply byte_forall
    decide +kernel
  exact hAll b hEncode

theorem unscore_of_not_special {b : Byte} (hPlain : special b = false) :
    unscore b = b ∧ b ≠ chr '=' := by
  have hAll : ∀ b, special b = false → unscore b = b ∧ b ≠ chr '=' := by
    apply byte_forall
    decide +kernel
  exact hAll b hPlain

/- A special character is a blank, or is written in hex. -/
theorem encodeSpecial_cases (b : Byte) : (b = chr ' ' ∧ encodeSpecial b = [chr '_']) ∨
      ∃ high low, encodeSpecial b = [chr '=', high, low] ∧
        UInt8.ofNat (nyb high * 16 + nyb low) = b := by
  have hAll : ∀ b, UInt8.ofNat (nyb (xdigit.getD (b.toNat / 16) 0) * 16 +
        nyb (xdigit.getD (b.toNat % 16) 0)) = b := by
    apply byte_forall
    decide +kernel
  unfold encodeSpecial
  split
  · rename_i hBlank
    left
    exact ⟨hBlank, rfl⟩
  · right
    exact ⟨_, _, rfl, hAll b⟩

theorem question_not_mem_qEncode (b : Byte) : chr '?' ∉ qEncode b := by
  have hAll : ∀ b, (qEncode b).contains (chr '?') = false := by
    apply byte_forall
    decide +kernel
  intro hMem
  have hIn := List.contains_iff_mem.mpr hMem
  rw [hAll] at hIn
  cases hIn

theorem decodeQ_cons {c : Byte} (hPlain : c ≠ chr '=') (rest : List Byte) :
    decodeQ (c :: rest) = unscore c :: decodeQ rest := by
  match rest with
  | [] => rfl
  | [d] => rfl
  | a :: b :: rest => rw [decodeQ, if_neg hPlain]

theorem decodeQ_escape (high low : Byte) (rest : List Byte) :
    decodeQ (chr '=' :: high :: low :: rest) = UInt8.ofNat (nyb high * 16 + nyb low) ::
        decodeQ rest := by
  rw [decodeQ, if_pos rfl]

/- The decoder reads one character after the other. -/
theorem decodeQ_qEncode (b : Byte) (rest : List Byte) :
    decodeQ (qEncode b ++ rest) = b :: decodeQ rest := by
  unfold qEncode
  split
  · rcases encodeSpecial_cases b with ⟨hBlank, hOut⟩ | ⟨high, low, hOut, hByte⟩
    · rw [hOut, List.singleton_append, decodeQ_cons (by decide), hBlank]
      rfl
    · rw [hOut]
      show decodeQ (chr '=' :: high :: low :: rest) = _
      rw [decodeQ_escape, hByte]
  · rename_i hPlain
    rcases unscore_of_not_special (Bool.eq_false_iff.mpr hPlain) with ⟨hSame, hNe⟩
    rw [List.singleton_append, decodeQ_cons hNe, hSame]

theorem decodeQ_flatMap (text : List Byte) : decodeQ (text.flatMap qEncode) = text := by
  induction text with
  | nil => rfl
  | cons b rest ih => rw [List.flatMap_cons, decodeQ_qEncode, ih]

theorem question_not_mem_flatMap (text : List Byte) : chr '?' ∉ text.flatMap qEncode := by
  intro hMem
  rcases List.mem_flatMap.mp hMem with ⟨b, _, hIn⟩
  exact question_not_mem_qEncode b hIn

------------
-- Writing Words
------------

/-
  The encoded words for a text, one character at a time; `c`
  is the length of the current word, and zero before it.
-/
def wordsOut (charset : List Byte) : Nat → List Byte → List Byte
  | _, [] => []
  | c, b :: rest =>
    (if c = 0 then
      bytes "=?" ++ charset ++ bytes "?Q?"
    else
      []) ++
      (qEncode b ++
        (if rest = [] then
          bytes "?="
        else if 50 ≤ (if c = 0 then charset.length + 5 else c) + (qEncode b).length then
          bytes "?= " ++ wordsOut charset 0 rest
        else
          wordsOut charset ((if c = 0 then charset.length + 5 else c) + (qEncode b).length) rest))

/- How a word goes on behind its beginning. -/
def wordEnd (charset : List Byte) (c : Nat) (rest : List Byte) : List Byte :=
  if rest = [] then
    bytes "?="
  else if 50 ≤ c then
    bytes "?= " ++ wordsOut charset 0 rest
  else
    wordsOut charset c rest

theorem wordsOut_start (charset : List Byte) (b : Byte) (rest : List Byte) :
    wordsOut charset 0 (b :: rest) = bytes "=?" ++ charset ++ bytes "?Q?" ++
        wordsOut charset (charset.length + 5) (b :: rest) := by
  rw [wordsOut, wordsOut, if_pos rfl, if_pos rfl, if_neg (Nat.succ_ne_zero _),
    if_neg (Nat.succ_ne_zero _), List.nil_append]

theorem wordsOut_cons (charset : List Byte) {c : Nat} (hInside : c ≠ 0) (b : Byte)
    (rest : List Byte) :
    wordsOut charset c (b :: rest) = qEncode b ++ wordEnd charset (c + (qEncode b).length)
        rest := by
  rw [wordsOut, if_neg hInside, if_neg hInside, List.nil_append]
  rfl

/- A piece of plain characters is written as it is. -/
theorem wordsOut_plain (charset : List Byte) {c : Nat} (hInside : c ≠ 0) {chunk : List Byte}
    (hChunk : chunk ≠ []) (hPlain : ∀ b, b ∈ chunk → special b = false)
    (hRoom : c + chunk.length ≤ 50) (str : List Byte) :
    wordsOut charset c (chunk ++ str) = chunk ++ wordEnd charset (c + chunk.length) str := by
  induction chunk generalizing c with
  | nil => exact absurd rfl hChunk
  | cons b more ih =>
    have hOut : qEncode b = [b] := by
      unfold qEncode
      rw [hPlain b List.mem_cons_self, if_neg Bool.false_ne_true]
    rw [List.cons_append, wordsOut_cons charset hInside, hOut]
    cases more with
    | nil => rfl
    | cons d others =>
      have hLess : c + 1 + (d :: others).length ≤ 50 := by
        rw [List.length_cons] at hRoom
        omega
      have hNext := ih (Nat.succ_ne_zero c) (List.cons_ne_nil d others)
        (fun e hMem => hPlain e (List.mem_cons_of_mem b hMem))
        hLess
      have hGoOn : ¬ 50 ≤ c + [b].length := by
        rw [List.length_cons, List.length_cons] at hRoom
        rw [List.length_singleton]
        omega
      unfold wordEnd
      rw [if_neg (by simp), if_neg hGoOn, List.length_singleton, hNext]
      have hSize : c + 1 + (d :: others).length = c + (b :: d :: others).length := by
        rw [List.length_cons, List.length_cons, List.length_cons]
        omega
      rw [hSize]
      rfl

theorem nextChunk_ne_nil {c : Nat} (hRoom : c < 50) (b : Byte) (rest : List Byte) :
    nextChunk c b rest ≠ [] := by
  unfold nextChunk
  split
  · exact List.cons_ne_nil _ _
  · rename_i hPlain
    have hSome : 50 - c ≠ 0 := by omega
    rw [List.takeWhile_cons_of_pos (by simpa using hPlain),
      List.take_cons (Nat.pos_of_ne_zero hSome)]
    exact List.cons_ne_nil _ _

theorem nextChunk_append_drop (c : Nat) (b : Byte) (rest : List Byte) :
    nextChunk c b rest ++ (b :: rest).drop (nextChunk c b rest).length = b :: rest := by
  have hPrefix : nextChunk c b rest <+: b :: rest := by
    unfold nextChunk
    split
    · exact ⟨rest, rfl⟩
    · exact (List.take_prefix _ _).trans (List.takeWhile_prefix _)
  exact List.prefix_iff_eq_append.mp hPrefix

/- What one round of the loop writes. -/
theorem wordsOut_chunk (charset : List Byte) {c : Nat} (hInside : c ≠ 0) (hRoom : c < 50)
    (b : Byte) (rest : List Byte) :
    wordsOut charset c (b :: rest) = chunkText c b rest ++
        wordEnd charset (c + (chunkText c b rest).length)
          ((b :: rest).drop (nextChunk c b rest).length) := by
  by_cases hSpecial : special b
  · have hOut : qEncode b = encodeSpecial b := if_pos hSpecial
    have hChunk : nextChunk c b rest = [b] := if_pos hSpecial
    have hText : chunkText c b rest = encodeSpecial b := if_pos hSpecial
    rw [hText, hChunk, wordsOut_cons charset hInside, hOut]
    rfl
  · have hText : chunkText c b rest = nextChunk c b rest := if_neg hSpecial
    have hChunk : nextChunk c b rest = ((b :: rest).takeWhile (!special ·)).take (50 - c) :=
      if_neg hSpecial
    have hPlain : ∀ d, d ∈ nextChunk c b rest → special d = false := by
      intro d hMem
      rw [hChunk] at hMem
      have hIn := List.mem_of_mem_take hMem
      simpa using List.mem_takeWhile_imp hIn
    have hLess : c + (nextChunk c b rest).length ≤ 50 := by
      rw [hChunk, List.length_take]
      omega
    have hOut := wordsOut_plain charset hInside (nextChunk_ne_nil hRoom b rest) hPlain hLess
      ((b :: rest).drop (nextChunk c b rest).length)
    rw [nextChunk_append_drop] at hOut
    rw [hText]
    exact hOut

/- The loop that writes encoded words ends, and writes them. -/
theorem encodeWords_eq {charset : List Byte} (hShort : charset.length < 45) {fuel c : Nat}
    {run : List Byte} (hFuel : run.length ≤ fuel) (hRoom : c < 50) :
    encodeWords charset fuel c run = some (wordsOut charset c run) := by
  induction fuel generalizing c run with
  | zero =>
    have hNil : run = [] := List.length_eq_zero_iff.mp (Nat.le_zero.mp hFuel)
    rw [hNil]
    rfl
  | succ fuel ih =>
    cases run with
    | nil => rfl
    | cons b rest =>
      have hOpen : wordsOut charset c (b :: rest) = (if c = 0 then
              bytes "=?" ++ charset ++ bytes "?Q?"
            else
              []) ++
              wordsOut charset (if c = 0 then charset.length + 5 else c) (b :: rest) := by
        split
        · rename_i hZero
          rw [hZero, wordsOut_start]
        · rfl
      have hInside : (if c = 0 then charset.length + 5 else c) ≠ 0 := by
        split
        · exact Nat.succ_ne_zero _
        · assumption
      have hLess : (if c = 0 then charset.length + 5 else c) < 50 := by
        split <;> omega
      unfold encodeWords
      simp only []
      rw [hOpen]
      generalize (if c = 0 then charset.length + 5 else c) = size at hInside hLess ⊢
      have hStr : ((b :: rest).drop (nextChunk size b rest).length).length ≤ fuel := by
        have hPos := List.length_pos_iff.mpr (nextChunk_ne_nil hLess b rest)
        rw [List.length_cons] at hFuel
        rw [List.length_drop, List.length_cons]
        omega
      rw [wordsOut_chunk charset hInside hLess]
      generalize (b :: rest).drop (nextChunk size b rest).length = str at hStr ⊢
      unfold wordEnd
      by_cases hEnd : str = []
      · rw [if_pos (Or.inl hEnd), if_pos hEnd, if_pos hEnd, ih hStr (Nat.succ_pos 49), hEnd]
        simp [wordsOut]
      · by_cases hFull : 50 ≤ size + (chunkText size b rest).length
        · rw [if_pos (Or.inr hFull), if_neg hEnd, if_neg hEnd, if_pos hFull,
            ih hStr (Nat.succ_pos 49)]
          simp
        · rw [if_neg (by simp [hEnd, hFull]), if_neg hEnd,
            if_neg hFull, ih hStr (Nat.lt_of_not_le hFull)]
          simp

------------
-- Reading Words
------------

theorem length_decodeWord_le (text : List Byte) : (decodeWord text).2.length ≤ text.length := by
  have hSpan : ∀ t : List Byte, (rfc2047SearchQuote t).2.length ≤ t.length := by
    intro t
    unfold rfc2047SearchQuote
    rw [List.span_eq_takeWhile_dropWhile]
    exact List.length_dropWhile_le _ _
  unfold decodeWord
  have hFirst := hSpan text
  generalize rfc2047SearchQuote text = first at hFirst ⊢
  rcases first with ⟨chset, rest⟩
  simp only [] at hFirst ⊢
  have hSecond := hSpan (rest.drop 1)
  generalize rfc2047SearchQuote (rest.drop 1) = second at hSecond ⊢
  rcases second with ⟨encoding, more⟩
  simp only [] at hSecond ⊢
  have hThird := hSpan (more.drop 1)
  generalize rfc2047SearchQuote (more.drop 1) = third at hThird ⊢
  rcases third with ⟨enctext, last⟩
  simp only [List.length_drop] at hSecond hThird ⊢
  split
  · rw [List.length_drop]
    omega
  · omega

/- The text before `=?` is not empty. -/
theorem plainText_pos {c : Byte} {rest : List Byte}
    (hPlain : ¬ (c = chr '=' ∧ rest.head? = some (chr '?'))) :
    0 < (plainText (c :: rest)).length := by
  rw [plainText, if_neg hPlain]
  exact Nat.succ_pos _

/- Any fuel of the length of the text gives the same. -/
theorem decodeLoop_fuel {fuel more : Nat} {text : List Byte} (hFuel : text.length ≤ fuel)
    (hMore : text.length ≤ more) (had : Bool) :
    decodeLoop fuel had text = decodeLoop more had text := by
  induction fuel generalizing more text had with
  | zero =>
    have hNil : text = [] := List.length_eq_zero_iff.mp (Nat.le_zero.mp hFuel)
    rw [hNil]
    cases more <;> rfl
  | succ fuel ih =>
    cases text with
    | nil => cases more <;> rfl
    | cons c rest =>
      cases more with
      | zero => cases hMore
      | succ more =>
        rw [List.length_cons] at hFuel hMore
        unfold decodeLoop
        split
        · have hLess := length_decodeWord_le (rest.drop 1)
          rw [List.length_drop] at hLess
          have hHere : (decodeWord (rest.drop 1)).2.length ≤ fuel := by omega
          have hThere : (decodeWord (rest.drop 1)).2.length ≤ more := by omega
          simp only []
          rw [ih hHere hThere]
        · rename_i hPlain
          have hPos := plainText_pos hPlain
          have hLess : ((c :: rest).drop (plainText (c :: rest)).length).length ≤
                  rest.length := by
            rw [List.length_drop, List.length_cons]
            omega
          have hRest : rest.length ≤ fuel := by omega
          have hOther : rest.length ≤ more := by omega
          simp only []
          rw [ih (hLess.trans hRest) (hLess.trans hOther)]

/- The text that the decoder makes of the rest of a header. -/
def decoded (had : Bool) (text : List Byte) : List Byte :=
  (decodeLoop text.length had text).flatMap Piece.text

/- Text up to the next encoded word. -/
theorem decoded_text {c : Byte} {rest : List Byte}
    (hPlain : ¬ (c = chr '=' ∧ rest.head? = some (chr '?'))) (had : Bool) :
    decoded had (c :: rest) = (if had && (plainText (c :: rest)).all isspace then
        []
      else
        plainText (c :: rest)) ++
        decoded (had && (plainText (c :: rest)).all isspace)
          ((c :: rest).drop (plainText (c :: rest)).length) := by
  have hPos := plainText_pos hPlain
  have hLess : ((c :: rest).drop (plainText (c :: rest)).length).length ≤ rest.length := by
    rw [List.length_drop, List.length_cons]
    omega
  unfold decoded
  rw [List.length_cons, decodeLoop, if_neg hPlain, List.flatMap_append,
    decodeLoop_fuel hLess (Nat.le_refl _)]
  split
  · rfl
  · simp

/- An encoded word. -/
theorem decoded_open (had : Bool) (text : List Byte) :
    decoded had (chr '=' :: chr '?' :: text) = (decodeWord text).1.text ++
        decoded true (decodeWord text).2 := by
  have hLess : (decodeWord text).2.length ≤ text.length + 1 :=
    (length_decodeWord_le text).trans (Nat.le_succ _)
  have hRest : (chr '?' :: text).drop 1 = text := rfl
  unfold decoded
  rw [List.length_cons, List.length_cons, decodeLoop, if_pos ⟨rfl, rfl⟩, hRest]
  simp only []
  rw [List.flatMap_cons, decodeLoop_fuel hLess (Nat.le_refl _)]

/- An encoded word comes next, or nothing at all. -/
def AtWord (text : List Byte) : Prop :=
  text = [] ∨ bytes "=?" <+: text

theorem plainText_append {raw text : List Byte} (hRaw : chr '=' ∉ raw)
    (hText : AtWord text) : plainText (raw ++ text) = raw := by
  induction raw with
  | nil =>
    rcases hText with rfl | ⟨rest, rfl⟩
    · rfl
    · rfl
  | cons c raw ih =>
    rw [List.mem_cons, not_or] at hRaw
    have hHere : ¬ (c = chr '=' ∧ (raw ++ text).head? = some (chr '?')) := by
      rintro ⟨rfl, _⟩
      exact hRaw.1 rfl
    rw [List.cons_append, plainText, if_neg hHere, ih hRaw.2]

/- Blanks behind an encoded word are dropped. -/
theorem decoded_plain {raw text : List Byte} (hRaw : chr '=' ∉ raw) (hSome : raw ≠ [])
    (hText : AtWord text) (had : Bool) :
    decoded had (raw ++ text) = (if had && raw.all isspace then [] else raw) ++
        decoded (had && raw.all isspace) text := by
  cases raw with
  | nil => exact absurd rfl hSome
  | cons c raw =>
    have hHere : ¬ (c = chr '=' ∧ (raw ++ text).head? = some (chr '?')) := by
      rintro ⟨rfl, _⟩
      exact hRaw List.mem_cons_self
    have hPlain : plainText (c :: (raw ++ text)) = c :: raw := plainText_append hRaw hText
    have hDrop : (c :: (raw ++ text)).drop (c :: raw).length = text := List.drop_left' rfl
    rw [List.cons_append, decoded_text hHere, hPlain, hDrop]

theorem searchQuote_append {front : List Byte} (hFront : chr '?' ∉ front) (rest : List Byte) :
    rfc2047SearchQuote (front ++ chr '?' :: rest) = (front, chr '?' :: rest) := by
  have hAll : ∀ b, b ∈ front → (b ≠ chr '?' : Bool) := by
    intro b hMem
    rw [decide_eq_true_iff]
    rintro rfl
    exact hFront hMem
  unfold rfc2047SearchQuote
  rw [List.span_eq_takeWhile_dropWhile, List.takeWhile_append_of_pos hAll,
    List.dropWhile_append_of_pos hAll]
  simp

/- One encoded word. -/
theorem decoded_word {charset q : List Byte} (hCharset : chr '?' ∉ charset)
    (hText : chr '?' ∉ q) (had : Bool) (rest : List Byte) :
    decoded had (bytes "=?" ++ charset ++ bytes "?Q?" ++ (q ++ (bytes "?=" ++ rest))) =
      (decodeQ q).takeWhile (· ≠ 0) ++ decoded true rest := by
  have hWord : decodeWord (charset ++ (bytes "?Q?" ++ (q ++ (bytes "?=" ++ rest)))) =
        (⟨(decodeQ q).takeWhile (· ≠ 0),
          some (splitLang charset).1,
          (splitLang charset).2⟩, rest) := by
    have hFirst := searchQuote_append hCharset (chr 'Q' :: chr '?' :: (q ++ (bytes "?=" ++ rest)))
    have hSecond := @searchQuote_append [chr 'Q'] (by decide) (q ++ (bytes "?=" ++ rest))
    have hThird := searchQuote_append hText (chr '=' :: rest)
    have hJoin : charset ++ (bytes "?Q?" ++ (q ++ (bytes "?=" ++ rest))) =
          charset ++ chr '?' :: (chr 'Q' :: chr '?' :: (q ++ (bytes "?=" ++ rest))) := rfl
    rw [hJoin]
    unfold decodeWord
    rw [hFirst]
    simp only [List.drop_succ_cons, List.drop_zero]
    have hMore : chr 'Q' :: chr '?' :: (q ++ (bytes "?=" ++ rest)) =
          [chr 'Q'] ++ chr '?' :: (q ++ (bytes "?=" ++ rest)) :=
      rfl
    rw [hMore, hSecond]
    simp only [List.drop_succ_cons, List.drop_zero]
    have hLast : q ++ (bytes "?=" ++ rest) = q ++ chr '?' :: (chr '=' :: rest) := rfl
    rw [hLast, hThird]
    rfl
  have hJoin : bytes "=?" ++ charset ++ bytes "?Q?" ++ (q ++ (bytes "?=" ++ rest)) =
        chr '=' :: chr '?' :: (charset ++ (bytes "?Q?" ++ (q ++ (bytes "?=" ++ rest)))) := by
    simp [List.append_assoc, bytes]
  rw [hJoin, decoded_open, hWord]

/- All the encoded words of a text. -/
theorem decoded_words {charset : List Byte} (hCharset : chr '?' ∉ charset) {c : Nat}
    (hInside : c ≠ 0) {front run : List Byte} (hSome : run ≠ [])
    (hText : (0 : Byte) ∉ front ++ run) (had : Bool) (tail : List Byte) :
    decoded had (bytes "=?" ++ charset ++ bytes "?Q?" ++ (front.flatMap qEncode ++
            (wordsOut charset c run ++ tail))) =
      front ++ run ++ decoded true tail := by
  induction run generalizing c front had with
  | nil => exact absurd rfl hSome
  | cons b rest ih =>
    have hMove : front.flatMap qEncode ++ qEncode b = (front ++ [b]).flatMap qEncode := by
      rw [List.flatMap_append, List.flatMap_singleton]
    have hChar : front ++ b :: rest = front ++ [b] ++ rest := List.append_cons front b rest
    rw [wordsOut_cons charset hInside, List.append_assoc (qEncode b),
      ← List.append_assoc (front.flatMap qEncode), hMove, hChar]
    rw [hChar] at hText
    have hKeep : (decodeQ ((front ++ [b]).flatMap qEncode)).takeWhile (· ≠ 0) = front ++ [b] := by
      rw [decodeQ_flatMap, List.takeWhile_eq_self_iff]
      intro d hMem
      rw [decide_eq_true_iff]
      rintro rfl
      exact hText (List.mem_append_left rest hMem)
    have hClean := question_not_mem_flatMap (front ++ [b])
    unfold wordEnd
    by_cases hEnd : rest = []
    · rw [if_pos hEnd, hEnd, decoded_word hCharset hClean, hKeep, List.append_nil]
    · rw [if_neg hEnd]
      by_cases hFull : 50 ≤ c + (qEncode b).length
      · have hNext := @ih (charset.length + 5) (Nat.succ_ne_zero _) [] hEnd
          (fun hMem => hText (List.mem_append_right _ hMem))
          true
        cases rest with
        | nil => exact absurd rfl hEnd
        | cons d more =>
          have hSplit : bytes "?= " ++ wordsOut charset 0 (d :: more) ++ tail =
                bytes "?=" ++ (bytes " " ++ (wordsOut charset 0 (d :: more) ++ tail)) := by
            simp [bytes]
          have hAt : AtWord (wordsOut charset 0 (d :: more) ++ tail) := by
            rw [wordsOut_start, List.append_assoc, List.append_assoc, List.append_assoc]
            exact Or.inr (List.prefix_append _ _)
          have hGap : decoded true (bytes " " ++ (wordsOut charset 0 (d :: more) ++ tail)) =
                decoded true (wordsOut charset 0 (d :: more) ++ tail) := by
            rw [decoded_plain (by decide) (by decide) hAt]
            rfl
          rw [if_pos hFull, hSplit, decoded_word hCharset hClean, hKeep, hGap,
            wordsOut_start, List.append_assoc (bytes "=?" ++ charset ++ bytes "?Q?")]
          rw [List.flatMap_nil, List.nil_append, List.nil_append] at hNext
          rw [hNext, ← List.append_assoc]
      · have hMore : c + (qEncode b).length ≠ 0 := by omega
        rw [if_neg hFull, ih hMore hEnd hText]

end Wmail.Rfc822
