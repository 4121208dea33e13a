import Wmail.Core.CheckedReads
import Wmail.Rfc2045.FlowedPieces

/-
  The indices that `wordwrap_sent` reads, and the places at
  which it breaks a line: its loop.

  Key theorems include:
    * `Indexed.wrapLoop_reads`
    * `Indexed.wrapLoop_overruns`
-/

namespace Wmail.Rfc2646

namespace Indexed

/- A break behind `stop` bytes; the next piece is at `next`. -/
structure Cut where
  stop : Nat
  next : Nat
deriving DecidableEq, Repr

/- `wordwrap_line`. -/
def wordwrapLine (buf : Buffer Byte) (cnt i : Nat) (rfc : Create) : Except Fault Create := do
  let text ← buf.readPart i cnt
  pure (rfc.handler (Rfc2646.wordwrapLine text))

/- The loop that leaves out the blanks at the end. -/
def trimTo (buf : Buffer Byte) (i : Nat) : Nat → Except Fault Nat
  | 0 => pure 0
  | cnt + 1 =>
    if i < cnt + 1 then do
      if (← buf.read cnt) = chr ' ' then
        if cnt + 1 - i = 3 then
          if (← buf.readPart i (cnt + 1)) = bytes "-- " then
            pure (cnt + 1)
          else
            trimTo buf i cnt
        else
          trimTo buf i cnt
      else
        pure (cnt + 1)
    else
      pure (cnt + 1)

/-
  The loop of `wordwrap_sent`, with the breaks it places.  A
  line of no width would never end.
-/
def wrapLoop (buf : Buffer Byte) (cnt : Nat) : Nat → Nat → Create → Except Fault (Create × List Cut)
  | 0, i, rfc => if i < cnt then .error .endless else pure (rfc, [])
  | fuel + 1, i, rfc =>
    if i < cnt then
      if cnt - i ≤ rfc.linesize then do
        let rfc ← wordwrapLine buf cnt i rfc
        pure (rfc, [])
      else do
        -- at the blank; the source goes one byte further
        let j ← buf.seekBack (· = chr ' ') (i + 1) (i + rfc.linesize)
        if i < j then
          let rfc ← wordwrapLine buf j i rfc
          let next ← buf.skip (chr ' ') cnt (j + 1)
          if next = cnt then
            pure (rfc, [])
          else
            let (rfc, cuts) ← wrapLoop buf cnt fuel next (rfc.handler (bytes " \n"))
            pure (rfc, ⟨j, next⟩ :: cuts)
        else
          let j := i + rfc.linesize
          let k ← buf.seekBack (· < 128) i (predSize j)
          let j := if (j - 1 - k) % 2 = 1 then j + 1 else j
          let rfc ← wordwrapLine buf j i rfc
          let (rfc, cuts) ← wrapLoop buf cnt fuel j (rfc.handler (bytes " \n"))
          pure (rfc, ⟨j, j⟩ :: cuts)
    else
      pure (rfc, [])

/- One blank at the front is gone over. -/
def skipBlank (buf : Buffer Byte) (cnt i : Nat) : Except Fault Nat :=
  if i < cnt then do
    if (← buf.read i) = chr ' ' then pure (i + 1) else pure i
  else
    pure i

/- What is sent before a line, and what is kept for the next. -/
def startLine (rfc : Create) (quoteDepth : Nat) (atEnd : Prop) [Decidable atEnd] : Create :=
  let rfc :=
    if rfc.hasSentParagraph ∧ atEnd ∧ rfc.lastSentQuotelevel = quoteDepth then
      { rfc.handler (bytes " \n") with hasSentParagraph := false }
    else
      { rfc.handler
          (if rfc.sentFirsttime then [] else bytes "\n") with
        hasSentParagraph := true }
  { rfc with
    sentFirsttime := false
    lastSentQuotelevel := quoteDepth }

/- `wordwrap_sent`. -/
def wordwrapSent (buf : Buffer Byte) (rfc : Create) : Except Fault (Create × List Cut) := do
  let cnt := buf.cells.length
  let quoteDepth ← buf.skip (chr '>') cnt 0
  let i ← skipBlank buf cnt quoteDepth
  let rfc := startLine rfc quoteDepth (cnt ≤ i)
  if quoteDepth ≠ 0 then
    let line ← buf.readPart 0 cnt
    pure (rfc.handler line, [])
  else
    let cnt ← trimTo buf i cnt
    wrapLoop buf cnt (cnt - i) i rfc

end Indexed

/- A byte with the high bit. -/
def High (text : List Byte) (k : Nat) : Prop :=
  ∃ b, text[k]? = some b ∧ 128 ≤ b

/-
  The bytes at `p` and `p + 1` are a character, when the
  bytes of the run that starts at `r` are taken in pairs.
-/
structure DoubleByte (text : List Byte) (r p : Nat) : Prop where
  starts : ∀ k, r = k + 1 → ¬ High text k
  order : r ≤ p
  high : ∀ k, r ≤ k → k ≤ p + 1 → High text k
  even : (p - r) % 2 = 0

/- A break with every character on one side of it. -/
def Indexed.Cut.Keeps (cut : Indexed.Cut) (text : List Byte) : Prop :=
  ∀ r p, DoubleByte text r p → p + 1 < cut.stop ∨ cut.next ≤ p

/- No character is under way at a place. -/
def Whole (text : List Byte) (i : Nat) : Prop :=
  ∀ r p, DoubleByte text r p → p + 1 ≠ i

/-
  A line that fills its width with high bytes, and goes on
  without a blank.
-/
def Overruns (linesize : Nat) (text : List Byte) : Prop :=
  (∀ k, k < linesize → High text k) ∧ ∃ b, text[linesize]? = some b ∧ b ≠ chr ' '

variable {text : List Byte}

theorem not_high_of_blank {k : Nat} (hBlank : text[k]? = some (chr ' ')) : ¬ High text k := by
  rintro ⟨b, hAt, hHigh⟩
  rw [hBlank] at hAt
  cases hAt
  exact absurd hHigh (by decide)

theorem whole_of_not_high {i : Nat} (hLow : ¬ High text i) : Whole text (i + 1) := by
  intro r p hPair hEnd
  have hSame : p = i := Nat.succ.inj hEnd
  subst hSame
  exact hLow (hPair.high p hPair.order (Nat.le_succ p))

theorem whole_zero (text : List Byte) : Whole text 0 :=
  fun _ p _ hEnd => Nat.succ_ne_zero p hEnd

/- A break at the blanks from `stop` to `next`. -/
theorem keeps_blanks {stop next : Nat} (hLess : stop < next)
    (hBlank : ∀ k, stop ≤ k → k < next →
      text[k]? = some (chr ' ')) : (Indexed.Cut.mk stop next).Keeps text := by
  intro r p hPair
  have hFirst := hPair.high p hPair.order (Nat.le_succ p)
  have hSecond := hPair.high (p + 1) (Nat.le_succ_of_le hPair.order) (Nat.le_refl _)
  by_contra hSplit
  rw [not_or, Nat.not_lt, Nat.not_le] at hSplit
  rcases Nat.lt_or_ge p stop with hBefore | hBehind
  · exact not_high_of_blank (hBlank (p + 1) hSplit.1 (by omega)) hSecond
  · exact not_high_of_blank (hBlank p hBehind hSplit.2) hFirst

/- A break at a place where no character is under way. -/
theorem keeps_whole {i : Nat} (hWhole : Whole text i) : (Indexed.Cut.mk i i).Keeps text := by
  intro r p hPair
  have hEnd := hWhole r p hPair
  change p + 1 < i ∨ i ≤ p
  omega

/-
  After a whole number of characters of the run of `n` high
  bytes before `j`, where the run starts at a whole place.
-/
theorem whole_of_run {start n : Nat} (hStart : Whole text start)
    (hRun : ∀ k, start ≤ k → k < start + n → High text k) {j : Nat}
    (hEven : (j - start) % 2 = 0) (hFrom : start ≤ j) (hTo : j ≤ start + n + 1) :
    Whole text j := by
  intro r p hPair hEnd
  subst hEnd
  rcases Nat.lt_or_ge r start with hEarly | hLate
  · -- the run goes on from before, and `start` is in between
    have hInner : (start - r) % 2 = 0 := by
      by_contra hOdd
      refine hStart r (start - 1) ⟨hPair.starts, by omega, ?_, by omega⟩ (by omega)
      intro k hGe hLe
      exact hPair.high k hGe (by omega)
    have hParity := hPair.even
    omega
  · have hSame : r = start := by
      by_contra hOther
      rcases Nat.exists_eq_succ_of_ne_zero (Nat.ne_of_gt (show 0 < r by omega)) with ⟨k, rfl⟩
      have hOrder := hPair.order
      exact hPair.starts k rfl (hRun k (by omega) (by omega))
    subst hSame
    have hOrder := hPair.order
    have hParity := hPair.even
    omega

@[simp]
theorem Create.handler_linesize (rfc : Create) (text : List Byte) :
    (rfc.handler text).linesize = rfc.linesize :=
  rfl

theorem Create.handler_handler (rfc : Create) (text more : List Byte) :
    (rfc.handler text).handler more = rfc.handler (text ++ more) := by
  unfold Create.handler
  rw [List.append_assoc]

theorem Create.handler_nil (rfc : Create) : rfc.handler [] = rfc := by
  unfold Create.handler
  rw [List.append_nil]

namespace Indexed

variable {buf : Buffer Byte}

theorem wordwrapLine_eq {cnt : Nat} (hCnt : cnt ≤ buf.cells.length) (i : Nat) (rfc : Create) :
    wordwrapLine buf cnt i rfc = .ok (rfc.handler (Rfc2646.wordwrapLine (buf.part i cnt))) := by
  unfold wordwrapLine
  rw [Buffer.readPart_eq hCnt]
  rfl

/- The last blank, from the bytes behind it. -/
theorem lastBlank_part {i cnt m : Nat} (hCnt : cnt ≤ buf.cells.length) (hLess : i + m < cnt) :
    lastBlank (buf.part i cnt) m = m - buf.tailRun (· = chr ' ') (i + 1) (i + 1 + m) := by
  induction m with
  | zero =>
    rw [Nat.zero_sub]
    rfl
  | succ m ih =>
    have hIn : i + 1 + m < buf.cells.length := by omega
    have hAt := List.getElem?_eq_getElem hIn
    have hPart : (buf.part i cnt)[m + 1]? = some buf.cells[i + 1 + m] := by
      rw [buf.getElem?_part hLess, ← hAt]
      congr 1
      omega
    rw [lastBlank, hPart, ← Nat.add_assoc, Buffer.tailRun_concat (Nat.le_add_right _ m) hAt]
    by_cases hBlank : buf.cells[i + 1 + m] = chr ' '
    · rw [if_pos (congrArg some hBlank), if_pos (decide_eq_true hBlank)]
      rfl
    · rw [if_neg (fun hEq => hBlank (Option.some.inj hEq)),
        if_neg (fun hEq => hBlank (of_decide_eq_true hEq)),
        ih (by omega), Nat.add_sub_add_right]

variable {i cnt linesize : Nat}

/- The search for a blank never gets below its first index. -/
theorem seekBlank_eq (hCnt : cnt ≤ buf.cells.length) (hLess : i + linesize < cnt) :
    buf.seekBack (· = chr ' ') (i + 1) (i + linesize) =
      .ok (i + lastBlank (buf.part i cnt) linesize) := by
  have hIn : i + 1 + linesize ≤ buf.cells.length := by omega
  have hRun := Buffer.tailRun_le hIn (· = chr ' ') (i + 1)
  have hFound := Buffer.seekBack_eq (p := (· = chr ' ')) hIn (Or.inl (Nat.succ_pos i))
  have hFrom : i + 1 + linesize - 1 = i + linesize := by omega
  rw [hFrom] at hFound
  rw [hFound, lastBlank_part hCnt hLess]
  congr 1
  omega

/- The high bytes at the end of a full width. -/
theorem cutWord_part (hLess : i + linesize < cnt) : cutWord linesize (buf.part i cnt) =
      if buf.tailRun (· < 128) i (i + linesize) % 2 = 1 then linesize + 1 else linesize := by
  have hSame : (fun b : Byte => decide (128 ≤ b)) = fun b => !decide (b < 128) := by
    funext b
    rw [← decide_not]
    congr 1
    exact propext UInt8.not_lt.symm
  rw [cutWord, buf.take_part (Nat.le_of_lt hLess), hSame]

/- A full width ends at a whole place, also at its odd end. -/
theorem whole_cutWord (hCnt : cnt ≤ buf.cells.length) (hLess : i + linesize < cnt)
    (hStart : Whole buf.cells i) : Whole buf.cells (i + cutWord linesize (buf.part i cnt)) := by
  have hIn : i + linesize ≤ buf.cells.length := by omega
  have hRun := Buffer.tailRun_le hIn (· < 128) i
  have hHigh : ∀ k, i + linesize ≤ k + buf.tailRun (· < 128) i (i + linesize) →
      k < i + linesize → High buf.cells k := by
    intro k hFrom hTo
    rcases Buffer.tailRun_other hIn hFrom hTo with ⟨b, hAt, hOther⟩
    exact ⟨b, hAt, UInt8.not_lt.mp (of_decide_eq_false hOther)⟩
  have hFrom : Whole buf.cells (i + linesize - buf.tailRun (· < 128) i (i + linesize)) := by
    rcases Nat.lt_or_ge (buf.tailRun (· < 128) i (i + linesize)) linesize with hShort | hFull
    · rcases Buffer.tailRun_stops hIn hShort with ⟨b, hAt, hFound⟩
      have hNext : i + linesize - buf.tailRun (· < 128) i (i + linesize) =
          i + linesize - 1 - buf.tailRun (· < 128) i (i + linesize) + 1 := by
        omega
      rw [hNext]
      apply whole_of_not_high
      rintro ⟨d, hSame, hBig⟩
      rw [hAt] at hSame
      cases hSame
      exact UInt8.not_lt.mpr hBig (of_decide_eq_true hFound)
    · have hAll : i + linesize - buf.tailRun (· < 128) i (i + linesize) = i := by omega
      rw [hAll]
      exact hStart
  rw [cutWord_part hLess]
  refine whole_of_run (n := buf.tailRun (· < 128) i (i + linesize)) hFrom ?_ ?_ ?_ ?_
  · intro k hGe hLt
    exact hHigh k (by omega) (by omega)
  · split <;> omega
  · split <;> omega
  · split <;> omega

/- The search for a byte without the high bit, and the cut. -/
theorem seekAscii_eq (hCnt : cnt ≤ buf.cells.length) (hLess : i + linesize < cnt)
    (hPos : 0 < linesize) (hSafe : 0 < i ∨ ¬ ∀ k, k < linesize → High buf.cells k) :
    ∃ k, buf.seekBack (· < 128) i (predSize (i + linesize)) = .ok k ∧
      (if (i + linesize - 1 - k) % 2 = 1 then
        i + linesize + 1
      else
        i + linesize) =
        i + cutWord linesize (buf.part i cnt) := by
  have hIn : i + linesize ≤ buf.cells.length := by omega
  have hRun := Buffer.tailRun_le hIn (· < 128) i
  have hEnds : 0 < i ∨ buf.tailRun (· < 128) i (i + linesize) < linesize := by
    rcases hSafe with hLater | hLow
    · exact Or.inl hLater
    · rcases Nat.eq_zero_or_pos i with rfl | hLater
      · right
        by_contra hFull
        apply hLow
        intro k hTo
        rcases Buffer.tailRun_other (p := (· < 128)) (k := k) hIn (by omega) (by omega) with
          ⟨b, hAt, hOther⟩
        exact ⟨b, hAt, UInt8.not_lt.mp (of_decide_eq_false hOther)⟩
      · exact Or.inl hLater
  have hPred : predSize (i + linesize) = i + linesize - 1 := if_neg (by omega)
  refine ⟨_, (congrArg _ hPred).trans (Buffer.seekBack_eq hIn hEnds), ?_⟩
  have hLength : i + linesize - 1 - (i + linesize - 1 - buf.tailRun (· < 128) i (i + linesize)) =
      buf.tailRun (· < 128) i (i + linesize) ∨
      (i = 0 ∧ buf.tailRun (· < 128) i (i + linesize) = linesize) := by
    omega
  rcases hLength with hSame | ⟨rfl, hFull⟩
  · rw [hSame, cutWord_part hLess]
    split <;> rfl
  · rcases hEnds with hLater | hShort
    · cases hLater
    · omega

------------
-- The Whole Loop
------------

/- A round that breaks the line at a blank. -/
theorem wrapLoop_blank {buf : Buffer Byte} {cnt fuel i : Nat} {rfc : Create}
    (hCnt : cnt ≤ buf.cells.length) (hLess : i + rfc.linesize < cnt)
    (hFound : 0 < lastBlank (buf.part i cnt) rfc.linesize) {j next : Nat}
    (hJ : j = i + lastBlank (buf.part i cnt) rfc.linesize)
    (hNext : next = j + 1 + ((buf.part (j + 1) cnt).takeWhile (· = chr ' ')).length) :
    wrapLoop buf cnt (fuel + 1) i rfc =
      if next = cnt then
        .ok (rfc.handler (Rfc2646.wordwrapLine (buf.part i j)), [])
      else
        (fun out => (out.1, ⟨j, next⟩ :: out.2)) <$>
          wrapLoop buf cnt fuel next ((rfc.handler (Rfc2646.wordwrapLine
              (buf.part i j))).handler (bytes " \n")) := by
  have hLimit := lastBlank_le (buf.part i cnt) rfc.linesize
  rw [wrapLoop, if_pos (by omega), if_neg (by omega), seekBlank_eq hCnt hLess, ← hJ]
  change (if i < j then _ else _) = _
  rw [if_pos (by omega), wordwrapLine_eq (by omega)]
  change (buf.skip (chr ' ') cnt (j + 1)).bind _ = _
  rw [Buffer.skip_eq hCnt, ← hNext]
  change (if next = cnt then _ else _) = _
  split
  · rfl
  · cases wrapLoop buf cnt fuel next ((rfc.handler (Rfc2646.wordwrapLine
        (buf.part i j))).handler (bytes " \n")) <;> rfl

/- The rest of a round that cuts a word, from the cut on. -/
def cutAt (buf : Buffer Byte) (cnt fuel i : Nat) (rfc : Create) (j : Nat) :
    Except Fault (Create × List Cut) :=
  (wordwrapLine buf j i rfc).bind fun rfc =>
    (fun out => (out.1, ⟨j, j⟩ :: out.2)) <$>
      wrapLoop buf cnt fuel j (rfc.handler (bytes " \n"))

variable {rfc : Create}

theorem wrapLoop_word {cnt fuel i : Nat} (hCnt : cnt ≤ buf.cells.length)
    (hLess : i + rfc.linesize < cnt) (hNone : lastBlank (buf.part i cnt) rfc.linesize = 0) :
    wrapLoop buf cnt (fuel + 1) i rfc = (buf.seekBack (· < 128) i
        (predSize (i + rfc.linesize))).bind fun k =>
          cutAt buf cnt fuel i rfc (if (i + rfc.linesize - 1 - k) % 2 = 1 then
              i + rfc.linesize + 1
            else
              i + rfc.linesize) := by
  rw [wrapLoop, if_pos (by omega), if_neg (by omega), seekBlank_eq hCnt hLess, hNone]
  change (if i < i + 0 then _ else _) = _
  rw [if_neg (by omega)]
  rfl

/- A round that cuts a word. -/
theorem wrapLoop_cut {buf : Buffer Byte} {cnt fuel i : Nat} {rfc : Create}
    (hCnt : cnt ≤ buf.cells.length) (hLess : i + rfc.linesize < cnt)
    (hNone : lastBlank (buf.part i cnt) rfc.linesize = 0) (hPos : 0 < rfc.linesize)
    (hSafe : 0 < i ∨ ¬ ∀ k, k < rfc.linesize → High buf.cells k) {j : Nat}
    (hJ : j = i + cutWord rfc.linesize (buf.part i cnt)) :
    wrapLoop buf cnt (fuel + 1) i rfc = (fun out => (out.1, ⟨j, j⟩ :: out.2)) <$>
        wrapLoop buf cnt fuel j ((rfc.handler (Rfc2646.wordwrapLine
            (buf.part i j))).handler (bytes " \n")) := by
  have hEnds := cutWord_cases rfc.linesize (buf.part i cnt)
  rcases seekAscii_eq hCnt hLess hPos hSafe with ⟨k, hSeek, hCut⟩
  rw [wrapLoop_word hCnt hLess hNone, hSeek]
  change cutAt buf cnt fuel i rfc _ = _
  rw [hCut, ← hJ, cutAt, wordwrapLine_eq (by omega)]
  rfl

/- The blanks that are gone over behind a place. -/
theorem blank_skipped {j cnt k : Nat} (hFrom : j ≤ k)
    (hTo : k < j + ((buf.part j cnt).takeWhile
      (· = chr ' ')).length) : buf.cells[k]? = some (chr ' ') := by
  have hPrefix := List.takeWhile_prefix
    (p := fun b : Byte => decide (b = chr ' '))
    (l := buf.part j cnt)
  have hIn : k - j < ((buf.part j cnt).takeWhile (· = chr ' ')).length := by omega
  have hBlank := List.mem_takeWhile_imp (List.getElem_mem hIn)
  have hCell := List.getElem?_eq_getElem (Nat.lt_of_lt_of_le hIn hPrefix.length_le)
  rw [← hPrefix.getElem hIn] at hCell
  have hShort : k < cnt := by
    have hLength := hPrefix.length_le
    rw [List.length_drop, List.length_take] at hLength
    omega
  rw [buf.getElem?_part (by omega)] at hCell
  have hSame : j + (k - j) = k := by omega
  rw [hSame] at hCell
  rw [hCell, of_decide_eq_true hBlank]

/- What is left behind the blanks that are gone over. -/
theorem part_skipped (buf : Buffer Byte) (j cnt : Nat) : (buf.part j cnt).dropWhile (· = chr ' ') =
      buf.part (j + ((buf.part j cnt).takeWhile (· = chr ' ')).length) cnt := by
  have hBoth := List.takeWhile_append_dropWhile
    (p := fun b : Byte => decide (b = chr ' '))
    (l := buf.part j cnt)
  have hDrop := congrArg (List.drop ((buf.part j cnt).takeWhile (· = chr ' ')).length) hBoth
  rw [List.drop_left, buf.drop_part] at hDrop
  exact hDrop

/- One round of the loop on lists. -/
theorem round_eq (linesize fuel : Nat) {text : List Byte} (hSome : text ≠ []) :
    Rfc2646.wrapLoop linesize (fuel + 1) text =
      if text.length ≤ linesize then
        Rfc2646.wordwrapLine text
      else if 0 < lastBlank text linesize then
        Rfc2646.wordwrapLine (text.take (lastBlank text linesize)) ++
          (if restAfter text (lastBlank text linesize) = [] then
            []
          else
            bytes " \n" ++ Rfc2646.wrapLoop linesize fuel
              (restAfter text (lastBlank text linesize)))
      else
        Rfc2646.wordwrapLine (text.take (cutWord linesize text)) ++
          (bytes " \n" ++ Rfc2646.wrapLoop linesize fuel (text.drop (cutWord linesize text))) := by
  cases text with
  | nil => exact absurd rfl hSome
  | cons b rest =>
    rw [Rfc2646.wrapLoop]
    · rfl
    · exact hSome

/-
  What the loop does from a place on: it reads nothing
  outside of the line, sends what the loop on lists sends,
  and keeps the characters.
-/
def LoopReads (buf : Buffer Byte) (cnt fuel i : Nat) (rfc : Create) (text : List Byte) : Prop :=
  ∃ cuts, wrapLoop buf cnt fuel i rfc = .ok (rfc.handler text, cuts) ∧
    ∀ cut, cut ∈ cuts → cut.Keeps buf.cells

/- A round before the rounds that follow it. -/
theorem LoopReads.round {cnt fuel i next : Nat} {cut : Cut} {piece text : List Byte}
    (hRound : wrapLoop buf cnt (fuel + 1) i rfc =
      (fun out => (out.1, cut :: out.2)) <$>
        wrapLoop buf cnt fuel next ((rfc.handler piece).handler (bytes " \n")))
    (hKeeps : cut.Keeps buf.cells)
    (hRest : LoopReads buf cnt fuel next ((rfc.handler piece).handler (bytes " \n")) text) :
    LoopReads buf cnt (fuel + 1) i rfc (piece ++ (bytes " \n" ++ text)) := by
  rcases hRest with ⟨cuts, hRun, hAll⟩
  refine ⟨cut :: cuts, ?_, List.forall_mem_cons.mpr ⟨hKeeps, hAll⟩⟩
  rw [hRound, hRun, Create.handler_handler, Create.handler_handler]
  rfl

/- A break at a blank. -/
theorem blank_reads {cnt fuel i : Nat} (hCnt : cnt ≤ buf.cells.length)
    (hLess : i + rfc.linesize < cnt) (hFound : 0 < lastBlank (buf.part i cnt) rfc.linesize)
    (hRest : ∀ next (rfc' : Create),
      i < next → rfc'.linesize = rfc.linesize →
      Whole buf.cells next →
      LoopReads buf cnt fuel next rfc' (Rfc2646.wrapLoop rfc.linesize fuel (buf.part next cnt))) :
    LoopReads buf cnt (fuel + 1) i rfc (Rfc2646.wordwrapLine ((buf.part i cnt).take
          (lastBlank (buf.part i cnt) rfc.linesize)) ++
        (if restAfter (buf.part i cnt) (lastBlank (buf.part i cnt) rfc.linesize) = [] then
          []
        else
          bytes " \n" ++ Rfc2646.wrapLoop rfc.linesize fuel (restAfter (buf.part i cnt)
              (lastBlank (buf.part i cnt) rfc.linesize)))) := by
  have hLimit := lastBlank_le (buf.part i cnt) rfc.linesize
  have hAt := getElem_lastBlank hFound
  rw [buf.getElem?_part (by omega)] at hAt
  generalize hJ : i + lastBlank (buf.part i cnt) rfc.linesize = j at hAt
  generalize hNext : j + 1 + ((buf.part (j + 1) cnt).takeWhile (· = chr ' ')).length = next
  have hTake : (buf.part i cnt).take (lastBlank (buf.part i cnt) rfc.linesize) =
      buf.part i j := by
    rw [buf.take_part (by omega), hJ]
  have hRestEq : restAfter (buf.part i cnt) (lastBlank (buf.part i cnt) rfc.linesize) =
      buf.part next cnt := by
    rw [restAfter, buf.drop_part, ← Nat.add_assoc, hJ, part_skipped, hNext]
  have hRound := @wrapLoop_blank buf cnt fuel i rfc hCnt hLess hFound j next hJ.symm hNext.symm
  have hLe : next ≤ cnt := by
    have hShort := List.IsPrefix.length_le (List.takeWhile_prefix (p := fun b : Byte =>
        decide (b = chr ' ')) (l := buf.part (j + 1) cnt))
    rw [Buffer.length_part hCnt] at hShort
    omega
  have hBlanks : ∀ k, j ≤ k → k < next → buf.cells[k]? = some (chr ' ') := by
    intro k hFrom hTo
    rcases Nat.eq_or_lt_of_le hFrom with rfl | hLater
    · exact hAt
    · exact blank_skipped hLater (hNext ▸ hTo)
  rw [hTake, hRestEq]
  by_cases hEnd : next = cnt
  · rw [if_pos hEnd] at hRound
    rw [if_pos (buf.part_nil (Nat.le_of_eq hEnd.symm)), List.append_nil]
    exact ⟨[], hRound, fun cut hMem => nomatch hMem⟩
  · rw [if_neg hEnd] at hRound
    have hMore : buf.part next cnt ≠ [] := by
      intro hNil
      have hNone := Buffer.length_part hCnt next
      rw [hNil, List.length_nil] at hNone
      omega
    rw [if_neg hMore]
    refine LoopReads.round hRound (keeps_blanks (by omega) hBlanks) (hRest next _ (by omega) rfl ?_)
    have hBefore : next - 1 + 1 = next := by omega
    rw [← hBefore]
    exact whole_of_not_high (not_high_of_blank (hBlanks (next - 1) (by omega) (by omega)))

/- A break in a word. -/
theorem cut_reads {cnt fuel i : Nat} (hCnt : cnt ≤ buf.cells.length)
    (hLess : i + rfc.linesize < cnt) (hNone : lastBlank (buf.part i cnt) rfc.linesize = 0)
    (hPos : 0 < rfc.linesize) (hStart : Whole buf.cells i)
    (hSafe : 0 < i ∨ ¬ ∀ k, k < rfc.linesize → High buf.cells k)
    (hRest : ∀ next (rfc' : Create),
      i < next → rfc'.linesize = rfc.linesize →
      Whole buf.cells next →
      LoopReads buf cnt fuel next rfc' (Rfc2646.wrapLoop rfc.linesize fuel (buf.part next cnt))) :
    LoopReads buf cnt (fuel + 1) i rfc (Rfc2646.wordwrapLine ((buf.part i cnt).take
          (cutWord rfc.linesize (buf.part i cnt))) ++
        (bytes " \n" ++ Rfc2646.wrapLoop rfc.linesize fuel
          ((buf.part i cnt).drop (cutWord rfc.linesize (buf.part i cnt))))) := by
  have hEnds := cutWord_cases rfc.linesize (buf.part i cnt)
  have hWhole := whole_cutWord hCnt hLess hStart
  have hRound := @wrapLoop_cut buf cnt fuel i rfc hCnt hLess hNone hPos hSafe _ rfl
  rw [buf.take_part (by omega), buf.drop_part]
  exact LoopReads.round hRound (keeps_whole hWhole) (hRest _ _ (by omega) rfl hWhole)

/- At zero, a blank in reach is found. -/
theorem safe_of_none {cnt i linesize : Nat} (hLess : i + linesize < cnt)
    (hNone : lastBlank (buf.part i cnt) linesize = 0) (hPos : 0 < linesize)
    (hSafe : 0 < i ∨ cnt ≤ linesize ∨
      buf.cells[linesize]? = some (chr ' ') ∨
      ¬ ∀ k, k < linesize → High buf.cells k) :
    0 < i ∨ ¬ ∀ k, k < linesize → High buf.cells k := by
  rcases hSafe with hLater | hShort | hBlank | hLow
  · exact Or.inl hLater
  · omega
  · left
    by_contra hZero
    have hFirst : i = 0 := by omega
    subst hFirst
    have hOther := not_blank_of_lastBlank hNone hPos (Nat.le_refl linesize)
    rw [buf.getElem?_part hLess, Nat.zero_add] at hOther
    exact hOther hBlank
  · exact Or.inr hLow

/-
  The loop from a whole place on.  At the very first place a
  full width of high bytes may not be cut.
-/
theorem wrapLoop_reads {cnt : Nat} (hCnt : cnt ≤ buf.cells.length) (fuel : Nat) {i : Nat}
    (hFuel : cnt - i ≤ fuel) (hPos : 0 < rfc.linesize) (hStart : Whole buf.cells i)
    (hSafe : 0 < i ∨ cnt ≤ rfc.linesize ∨
      buf.cells[rfc.linesize]? = some (chr ' ') ∨
      ¬ ∀ k, k < rfc.linesize → High buf.cells k) :
    LoopReads buf cnt fuel i rfc (Rfc2646.wrapLoop rfc.linesize fuel (buf.part i cnt)) := by
  induction fuel generalizing i rfc with
  | zero =>
    refine ⟨[], ?_, fun cut hMem => nomatch hMem⟩
    rw [wrapLoop, if_neg (by omega), buf.part_nil (by omega), Rfc2646.wrapLoop, Create.handler_nil]
    rfl
  | succ fuel ih =>
    rcases Nat.lt_or_ge i cnt with hMore | hDone
    · have hRest : ∀ next (rfc' : Create), i < next → rfc'.linesize = rfc.linesize →
          Whole buf.cells next →
          LoopReads buf cnt fuel next rfc' (Rfc2646.wrapLoop rfc.linesize fuel
              (buf.part next cnt)) := by
        intro next rfc' hLater hSame hWhole
        rw [← hSame]
        exact ih (by omega) (by rw [hSame]; exact hPos) hWhole (Or.inl (by omega))
      have hLength := Buffer.length_part hCnt i
      have hSome : buf.part i cnt ≠ [] := by
        intro hNil
        rw [hNil, List.length_nil] at hLength
        omega
      by_cases hShort : cnt - i ≤ rfc.linesize
      · refine ⟨[], ?_, fun cut hMem => nomatch hMem⟩
        rw [wrapLoop, if_pos hMore, if_pos hShort, wordwrapLine_eq hCnt, round_eq _ _ hSome,
          if_pos (hLength.le.trans hShort)]
        rfl
      · have hLess : i + rfc.linesize < cnt := by omega
        rw [round_eq _ _ hSome, if_neg (by rw [hLength]; exact hShort)]
        rcases Nat.eq_zero_or_pos (lastBlank (buf.part i cnt) rfc.linesize) with hNone | hFound
        · rw [if_neg (Nat.not_lt.mpr (Nat.le_of_eq hNone))]
          exact cut_reads hCnt hLess hNone hPos hStart (safe_of_none hLess hNone hPos hSafe) hRest
        · rw [if_pos hFound]
          exact blank_reads hCnt hLess hFound hRest
    · refine ⟨[], ?_, fun cut hMem => nomatch hMem⟩
      rw [wrapLoop, if_neg (Nat.not_lt.mpr hDone), buf.part_nil hDone, Rfc2646.wrapLoop,
        Create.handler_nil]
      rfl

/- A first word that overruns the width: the read before. -/
theorem wrapLoop_overruns {cnt fuel : Nat} (hCnt : cnt ≤ buf.cells.length)
    (hLess : rfc.linesize < cnt) (hPos : 0 < rfc.linesize)
    (hOver : Overruns rfc.linesize buf.cells) :
    wrapLoop buf cnt (fuel + 1) 0 rfc = .error (.outside (2 ^ 64 - 1)) := by
  have hFrom : 0 + rfc.linesize < cnt := by omega
  rcases hOver with ⟨hHigh, b, hNext, hOther⟩
  have hNone : lastBlank (buf.part 0 cnt) rfc.linesize = 0 := by
    by_contra hSome
    have hLimit := lastBlank_le (buf.part 0 cnt) rfc.linesize
    have hAt := getElem_lastBlank (Nat.pos_of_ne_zero hSome)
    rw [buf.getElem?_part (by omega), Nat.zero_add] at hAt
    rcases Nat.lt_or_eq_of_le hLimit with hInside | hEnd
    · exact not_high_of_blank hAt (hHigh _ hInside)
    · rw [hEnd, hNext] at hAt
      exact hOther (Option.some.inj hAt)
  have hAll : ∀ a, a ∈ buf.cells.take (rfc.linesize - 1 + 1) → decide (a < 128) = false := by
    intro a hMem
    rcases List.mem_iff_getElem?.mp hMem with ⟨k, hAt⟩
    rcases List.getElem?_eq_some_iff.mp hAt with ⟨hIn, _⟩
    rw [List.length_take] at hIn
    rcases hHigh k (by omega) with ⟨d, hSame, hBig⟩
    rw [List.getElem?_take_of_lt (by omega), hSame] at hAt
    cases hAt
    exact decide_eq_false (UInt8.not_lt.mpr hBig)
  rw [wrapLoop_word hCnt hFrom hNone, predSize, if_neg (by omega), Nat.zero_add,
    Buffer.seekBack_wraps (by omega) hAll]
  rfl

end Indexed

end Wmail.Rfc2646
