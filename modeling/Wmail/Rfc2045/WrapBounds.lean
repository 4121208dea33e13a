import Wmail.Rfc2045.WrapReads

/-
  The indices that `wordwrap_sent` reads, and the places at
  which it breaks a line: the ends of a line, and all of it.

  Key theorems include:
    * `Indexed.wordwrapSent_overruns`
    * `wraps_in_bounds_iff`
-/

namespace Wmail.Rfc2646

namespace Indexed

theorem trimEnd_concat (text : List Byte) (b : Byte) : trimEnd (text ++ [b]) =
      if b = chr ' ' ∧ text ++ [b] ≠ bytes "-- " then
        trimEnd text
      else
        text ++ [b] := by
  have hSame : b :: text.reverse ≠ (bytes "-- ").reverse ↔
      text ++ [b] ≠ bytes "-- " := by
    rw [not_iff_not, ← List.reverse_inj, List.reverse_reverse,
      List.reverse_cons, List.reverse_reverse]
  unfold trimEnd
  rw [List.reverse_append, List.reverse_singleton, List.singleton_append, trimReversed]
  by_cases hBlank : b = chr ' ' ∧ text ++ [b] ≠ bytes "-- "
  · rw [if_pos hBlank, if_pos ⟨hBlank.1, hSame.mpr hBlank.2⟩]
  · rw [if_neg hBlank, if_neg (fun hBoth =>
      hBlank ⟨hBoth.1, hSame.mp hBoth.2⟩), List.reverse_cons,
      List.reverse_reverse]

/- The end of the line that is kept. -/
structure Trimmed (buf : Buffer Byte) (i cnt stop : Nat) : Prop where
  order : stop ≤ cnt
  part : buf.part i stop = trimEnd (buf.part i cnt)
  blank : ∀ k, stop ≤ k → k < cnt → buf.cells[k]? = some (chr ' ')

variable {buf : Buffer Byte}

theorem Trimmed.whole {i cnt : Nat} (hSame : trimEnd (buf.part i cnt) = buf.part i cnt) :
    Trimmed buf i cnt cnt where
  order := Nat.le_refl cnt
  part := hSame.symm
  blank := fun _ hFrom hTo => absurd (Nat.lt_of_lt_of_le hTo hFrom) (Nat.lt_irrefl _)

theorem trimTo_trimmed {cnt : Nat} (hCnt : cnt ≤ buf.cells.length) (i : Nat) :
    ∃ stop, trimTo buf i cnt = .ok stop ∧ Trimmed buf i cnt stop := by
  induction cnt with
  | zero =>
    refine ⟨0, rfl, Trimmed.whole ?_⟩
    rw [buf.part_nil (Nat.zero_le i)]
    rfl
  | succ cnt ih =>
    rcases Nat.lt_or_ge i (cnt + 1) with hMore | hDone
    · have hLess : cnt < buf.cells.length := hCnt
      have hAt := List.getElem?_eq_getElem hLess
      have hPart := Buffer.part_concat (Nat.le_of_lt_succ hMore) hAt
      have hTrim := trimEnd_concat (buf.part i cnt) buf.cells[cnt]
      rw [← hPart] at hTrim
      have hLength := Buffer.length_part hCnt i
      -- the blank is not sent
      have hDrop (hBlank : buf.cells[cnt] = chr ' ')
          (hOther : buf.part i (cnt + 1) ≠ bytes "-- ") :
          ∃ stop, trimTo buf i cnt = .ok stop ∧ Trimmed buf i (cnt + 1) stop := by
        rcases ih (Nat.le_of_lt hLess) with ⟨stop, hRun, hStop⟩
        refine ⟨stop, hRun, Nat.le_succ_of_le hStop.order, ?_, ?_⟩
        · rw [hTrim, if_pos ⟨hBlank, hOther⟩]
          exact hStop.part
        · intro k hFrom hTo
          rcases Nat.lt_succ_iff_lt_or_eq.mp hTo with hBefore | rfl
          · exact hStop.blank k hFrom hBefore
          · rw [hAt, hBlank]
      rw [trimTo, if_pos hMore, Buffer.read_eq hAt, Buffer.readPart_eq hCnt]
      change ∃ stop, (if buf.cells[cnt] = chr ' ' then
        if cnt + 1 - i = 3 then
          (if buf.part i (cnt + 1) = bytes "-- " then
            Except.ok (cnt + 1)
          else
            trimTo buf i cnt)
        else
          trimTo buf i cnt
      else
        Except.ok (cnt + 1)) = _ ∧ _
      by_cases hBlank : buf.cells[cnt] = chr ' '
      · rw [if_pos hBlank]
        by_cases hMark : buf.part i (cnt + 1) = bytes "-- "
        · have hThree : cnt + 1 - i = 3 := by
            rw [← hLength, hMark]
            rfl
          rw [if_pos hThree, if_pos hMark]
          refine ⟨cnt + 1, rfl, Trimmed.whole ?_⟩
          rw [hTrim, if_neg fun hBoth => hBoth.2 hMark]
        · rw [if_neg hMark, ite_self]
          exact hDrop hBlank hMark
      · rw [if_neg hBlank]
        refine ⟨cnt + 1, rfl, Trimmed.whole ?_⟩
        rw [hTrim, if_neg fun hBoth => hBlank hBoth.1]
    · refine ⟨cnt + 1, ?_, Trimmed.whole ?_⟩
      · rw [trimTo, if_neg (Nat.not_lt.mpr hDone)]
        rfl
      · rw [buf.part_nil hDone]
        rfl

theorem part_all (buf : Buffer Byte) (i : Nat) :
    buf.part i buf.cells.length = buf.cells.drop i := by
  rw [Buffer.part, List.take_length]

/- Where the text of a line starts. -/
structure Starts (buf : Buffer Byte) (q i : Nat) : Prop where
  order : i ≤ buf.cells.length
  part : buf.part i buf.cells.length = dropBlank (buf.cells.drop q)
  place : i = q ∨ i = q + 1 ∧ buf.cells[q]? = some (chr ' ')

theorem skipBlank_starts {q : Nat} (hIn : q ≤ buf.cells.length) :
    ∃ i, skipBlank buf buf.cells.length q = .ok i ∧ Starts buf q i := by
  have hHead : (buf.cells.drop q).head? = buf.cells[q]? := List.head?_drop
  rcases Nat.lt_or_eq_of_le hIn with hMore | hEnd
  · have hAt := List.getElem?_eq_getElem hMore
    rw [skipBlank, if_pos hMore, Buffer.read_eq hAt]
    change ∃ i, (if buf.cells[q] = chr ' ' then _ else _) = _ ∧ _
    by_cases hBlank : buf.cells[q] = chr ' '
    · rw [if_pos hBlank]
      refine ⟨q + 1, rfl, hMore, ?_, Or.inr ⟨rfl, ?_⟩⟩
      · rw [part_all, dropBlank, hHead, hAt, hBlank, if_pos rfl, List.drop_drop]
      · rw [hAt, hBlank]
    · rw [if_neg hBlank]
      refine ⟨q, rfl, hIn, ?_, Or.inl rfl⟩
      rw [part_all, dropBlank, hHead, hAt, if_neg fun hEq => hBlank (Option.some.inj hEq)]
  · rw [skipBlank, if_neg (by omega)]
    refine ⟨q, rfl, hIn, ?_, Or.inl rfl⟩
    rw [part_all, dropBlank, hHead, hEnd, List.getElem?_eq_none (Nat.le_refl _)]
    rfl

/- The sender on lists, with the start of the line apart. -/
theorem wordwrapSent_eq (rfc : Create) (line : List Byte) {q : Nat}
    (hQuote : (line.takeWhile (· = chr '>')).length = q) :
    Rfc2646.wordwrapSent rfc line =
      if q ≠ 0 then
        (startLine rfc q (dropBlank (line.drop q) = [])).handler line
      else
        (startLine rfc q
          (dropBlank (line.drop q) = [])).handler
          (Rfc2646.wrapLoop (startLine rfc q (dropBlank (line.drop q) = [])).linesize
            (trimEnd (dropBlank (line.drop q))).length
            (trimEnd (dropBlank (line.drop q)))) := by
  subst hQuote
  rfl

theorem startLine_congr {atEnd done : Prop} [Decidable atEnd] [Decidable done]
    (hSame : atEnd ↔ done) (rfc : Create) (q : Nat) :
    startLine rfc q atEnd = startLine rfc q done := by
  unfold startLine
  simp only [hSame]

@[simp]
theorem startLine_linesize (rfc : Create) (q : Nat) (atEnd : Prop) [Decidable atEnd] :
    (startLine rfc q atEnd).linesize = rfc.linesize := by
  unfold startLine
  split <;> rfl

/- The sender by indices, up to its loop. -/
theorem wordwrapSent_run {q i : Nat} (rfc : Create)
    (hQuote : (buf.cells.takeWhile (· = chr '>')).length = q)
    (hSkip : skipBlank buf buf.cells.length q = .ok i) (hStarts : Starts buf q i) :
    wordwrapSent buf rfc =
      if q ≠ 0 then
        .ok ((startLine rfc q (dropBlank (buf.cells.drop q) = [])).handler buf.cells, [])
      else
        (trimTo buf i buf.cells.length).bind fun cnt =>
          wrapLoop buf cnt (cnt - i) i (startLine rfc q (dropBlank (buf.cells.drop q) = [])) := by
  have hEnds : buf.cells.length ≤ i ↔ dropBlank (buf.cells.drop q) = [] := by
    rw [← hStarts.part, part_all, List.drop_eq_nil_iff]
  have hAll : buf.cells.length ≤ buf.cells.length := Nat.le_refl _
  have hFirst := Buffer.skip_eq hAll (chr '>') 0
  rw [part_all, List.drop_zero, hQuote, Nat.zero_add] at hFirst
  rw [wordwrapSent, hFirst]
  change (skipBlank buf buf.cells.length q).bind _ = _
  rw [hSkip]
  change (if q ≠ 0 then
    (buf.readPart 0 buf.cells.length).bind _
  else
    (trimTo buf i buf.cells.length).bind _) = _
  rw [startLine_congr hEnds, Buffer.readPart_eq (Nat.le_refl _), part_all, List.drop_zero]
  rfl

/-
  A line that does not overrun its width: nothing is read
  outside of it, what is sent is what the lists of bytes say,
  and no break is in a character.
-/
theorem wordwrapSent_sends (rfc : Create) (buf : Buffer Byte) (hPos : 0 < rfc.linesize)
    (hSafe : ¬ Overruns rfc.linesize buf.cells) :
    ∃ cuts, wordwrapSent buf rfc = .ok (Rfc2646.wordwrapSent rfc buf.cells, cuts) ∧
      ∀ cut, cut ∈ cuts → cut.Keeps buf.cells := by
  generalize hQuote : (buf.cells.takeWhile (· = chr '>')).length = q
  have hIn : q ≤ buf.cells.length := hQuote ▸ List.IsPrefix.length_le (List.takeWhile_prefix _)
  rcases skipBlank_starts hIn with ⟨i, hSkip, hStarts⟩
  rw [wordwrapSent_run rfc hQuote hSkip hStarts, wordwrapSent_eq rfc buf.cells hQuote]
  by_cases hQuoted : q ≠ 0
  · rw [if_pos hQuoted, if_pos hQuoted]
    exact ⟨[], rfl, fun cut hMem => nomatch hMem⟩
  · rw [if_neg hQuoted, if_neg hQuoted]
    rcases trimTo_trimmed (Nat.le_refl buf.cells.length) i with ⟨stop, hTrim, hStop⟩
    have hPart := hStop.part
    rw [hStarts.part] at hPart
    rw [hTrim, ← hPart, Buffer.length_part hStop.order]
    refine wrapLoop_reads hStop.order (stop - i) (Nat.le_refl _) ?_ ?_ ?_
    · rw [startLine_linesize]
      exact hPos
    · rcases hStarts.place with hSame | ⟨hNext, hBlank⟩
      · have hZero : i = 0 := by omega
        rw [hZero]
        exact whole_zero _
      · rw [hNext]
        exact whole_of_not_high (not_high_of_blank hBlank)
    · rw [startLine_linesize]
      by_cases hAll : ∀ k, k < rfc.linesize → High buf.cells k
      · right
        cases hNext : buf.cells[rfc.linesize]? with
        | none =>
          left
          have hOrder := hStop.order
          have hShort := List.getElem?_eq_none_iff.mp hNext
          omega
        | some b =>
          right
          left
          by_contra hOther
          exact hSafe ⟨hAll, b, hNext, fun hEq => hOther (congrArg some hEq)⟩
      · exact Or.inr (Or.inr (Or.inr hAll))

/- A line that overruns its width: the read before it. -/
theorem wordwrapSent_overruns (rfc : Create) (buf : Buffer Byte) (hPos : 0 < rfc.linesize)
    (hOver : Overruns rfc.linesize buf.cells) :
    wordwrapSent buf rfc = .error (.outside (2 ^ 64 - 1)) := by
  rcases hOver.1 0 hPos with ⟨b, hFirst, hHigh⟩
  have hHead : buf.cells.head? = some b := by rw [List.head?_eq_getElem?, hFirst]
  have hQuote : (buf.cells.takeWhile (· = chr '>')).length = 0 := by
    cases hCells : buf.cells with
    | nil => rfl
    | cons d rest =>
      rw [hCells] at hHead
      cases hHead
      rw [List.takeWhile_cons_of_neg]
      · rfl
      · intro hMark
        rw [of_decide_eq_true hMark] at hHigh
        exact absurd hHigh (by decide)
  rcases skipBlank_starts (Nat.zero_le buf.cells.length) with ⟨i, hSkip, hStarts⟩
  have hZero : i = 0 := by
    rcases hStarts.place with hSame | ⟨_, hBlank⟩
    · exact hSame
    · exact absurd (hOver.1 0 hPos) (not_high_of_blank hBlank)
  subst hZero
  rcases trimTo_trimmed (Nat.le_refl buf.cells.length) 0 with ⟨stop, hTrim, hStop⟩
  have hLess : rfc.linesize < stop := by
    by_contra hShort
    rcases hOver.2 with ⟨d, hNext, hOther⟩
    rcases List.getElem?_eq_some_iff.mp hNext with ⟨hMore, _⟩
    have hBlank := hStop.blank rfc.linesize (Nat.not_lt.mp hShort) hMore
    rw [hNext] at hBlank
    exact hOther (Option.some.inj hBlank)
  rw [wordwrapSent_run rfc hQuote hSkip hStarts, if_neg (not_not_intro rfl), hTrim]
  change wrapLoop buf stop (stop - 0) 0 _ = _
  obtain ⟨fuel, hFuel⟩ : ∃ fuel, stop - 0 = fuel + 1 := Nat.exists_eq_succ_of_ne_zero (by omega)
  rw [hFuel]
  refine wrapLoop_overruns hStop.order ?_ ?_ ?_
  · rw [startLine_linesize]
    exact hLess
  · rw [startLine_linesize]
    exact hPos
  · rw [startLine_linesize]
    exact hOver

end Indexed

/-
  Every index that is read is in the line, and no break is
  between the two bytes of a character.
-/
def WrapsInBounds (rfc : Create) (buf : Buffer Byte) : Prop :=
  ∃ rfc' cuts, Indexed.wordwrapSent buf rfc = .ok (rfc', cuts) ∧
    ∀ cut, cut ∈ cuts → cut.Keeps buf.cells

theorem wraps_in_bounds_iff (rfc : Create) (buf : Buffer Byte) (hPos : 0 < rfc.linesize) :
    WrapsInBounds rfc buf ↔ ¬ Overruns rfc.linesize buf.cells := by
  constructor
  · rintro ⟨rfc', cuts, hRun, _⟩ hOver
    rw [Indexed.wordwrapSent_overruns rfc buf hPos hOver] at hRun
    cases hRun
  · intro hSafe
    rcases Indexed.wordwrapSent_sends rfc buf hPos hSafe with ⟨cuts, hRun, hAll⟩
    exact ⟨_, cuts, hRun, hAll⟩

theorem wraps_in_bounds_hello : 0 < rfc2646createAlloc.linesize ∧
      WrapsInBounds rfc2646createAlloc ⟨bytes "hello", by decide⟩ := by
  have hPos : 0 < rfc2646createAlloc.linesize := by decide
  refine ⟨hPos, (wraps_in_bounds_iff rfc2646createAlloc ⟨bytes "hello", by decide⟩ hPos).mpr ?_⟩
  rintro ⟨hHigh, _⟩
  rcases hHigh 0 hPos with ⟨b, hAt, hBig⟩
  cases hAt
  exact absurd hBig (by decide)

/- The read before a line of 77 bytes with the high bit. -/
theorem not_wraps_in_bounds : ¬ WrapsInBounds rfc2646createAlloc ⟨List.replicate 77 0xE9, by
        rw [List.length_replicate]
        decide⟩ := by
  rintro ⟨rfc, cuts, hRun, _⟩
  rw [Indexed.wordwrapSent_overruns _ _ (by decide)] at hRun
  · cases hRun
  · constructor
    · intro k hLess
      have hIn : k < 77 := Nat.lt_succ_of_lt hLess
      refine ⟨0xE9, ?_, by decide⟩
      rw [List.getElem?_replicate, if_pos hIn]
    · exact ⟨0xE9, rfl, by decide⟩

end Wmail.Rfc2646
