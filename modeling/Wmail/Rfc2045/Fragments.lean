import Wmail.Rfc2045.Alike
import Wmail.Rfc2045.LineStart

/-
  A run that processes long lines in fragments, next to the
  run that processes them whole.

  Key theorems include:
    * `Behind.newline`
    * `Behind.finish`
-/

namespace Wmail.Rfc2045

open Links

/-
  The first `f` bytes of the line may have been processed in
  part: all of the line so far, or all but a final `\r`.
-/
def Flushed (w : List Byte) (f : Nat) : Prop :=
  1024 < w.length ∧ f ≤ w.length ∧ ((1024 < f ∧ (w.take f).getLast? ≠ some cr) ∨
      (1024 ≤ f ∧ w[f]? = some cr))

variable {w : List Byte} {f : Nat}

theorem Flushed.pos (hCut : Flushed w f) : f ≠ 0 := by
  rcases hCut with ⟨_, _, ⟨hLong, _⟩ | ⟨hLong, _⟩⟩
  · exact Nat.ne_of_gt (Nat.lt_trans (by decide) hLong)
  · exact Nat.ne_of_gt (Nat.lt_of_lt_of_le (by decide) hLong)

theorem Flushed.append (hCut : Flushed w f) (b : Byte) : Flushed (w ++ [b]) f := by
  rcases hCut with ⟨hLong, hLess, hEnd⟩
  refine ⟨?_, ?_, ?_⟩
  · rw [List.length_append]
    exact Nat.lt_add_right _ hLong
  · rw [List.length_append]
    exact Nat.le_add_right_of_le hLess
  · rcases hEnd with ⟨hFar, hLast⟩ | ⟨hFar, hHere⟩
    · left
      rw [List.take_append_of_le_length hLess]
      exact ⟨hFar, hLast⟩
    · right
      have hIn := (List.getElem?_eq_some_iff.mp hHere).1
      rw [List.getElem?_append_left hIn]
      exact ⟨hFar, hHere⟩

/- A fragment that is the whole line does not end in `\r`. -/
theorem Flushed.getLast?_ne (hCut : Flushed w f) (hAll : f = w.length) : w.getLast? ≠ some cr := by
  rcases hCut with ⟨_, _, ⟨_, hLast⟩ | ⟨_, hHere⟩⟩
  · rw [hAll, List.take_length] at hLast
    exact hLast
  · rw [hAll, List.getElem?_eq_none (Nat.le_refl _)] at hHere
    cases hHere

theorem length_cleanLine (line : List Byte) : (cleanLine line).length = line.length :=
  List.length_map _

theorem lineLength_concat (w : List Byte) (b : Byte) : lineLength (w ++ [b]) =
      if w.getLast? = some cr then w.length - 1 else w.length := by
  unfold lineLength
  simp only [List.length_append, List.length_singleton, Nat.add_sub_cancel]
  by_cases hEmpty : w = []
  · rw [hEmpty]
    rfl
  · have hPos : w.length ≠ 0 := fun hZero => hEmpty (List.length_eq_zero_iff.mp hZero)
    have hLess : w.length - 1 < w.length := by omega
    rw [List.getElem?_append_left hLess, ← List.getLast?_eq_getElem?]
    simp only [hPos, ne_eq, not_false_eq_true, true_and]

theorem getLast?_cleanLine (w : List Byte) :
    (cleanLine w).getLast? = some cr ↔ w.getLast? = some cr := by
  unfold cleanLine
  rw [List.getLast?_map]
  cases w.getLast? with
  | none => exact Iff.rfl
  | some b =>
    rw [Option.map_some, Option.some_inj, Option.some_inj]
    by_cases hZero : b = 0
    · rw [if_pos hZero, hZero]
      decide
    · rw [if_neg hZero]

theorem lineLength_cleanLine (w : List Byte) (b : Byte) :
    lineLength (cleanLine (w ++ [b])) = lineLength (w ++ [b]) := by
  have hConcat : cleanLine (w ++ [b]) = cleanLine w ++ [if b = 0 then chr ' ' else b] :=
    List.map_append
  rw [hConcat, lineLength_concat, lineLength_concat, length_cleanLine]
  simp only [getLast?_cleanLine]

/- What is left of a line ends where the line does. -/
theorem lineLength_fragment (hCut : Flushed w f) (b : Byte) :
    f + lineLength (w.drop f ++ [b]) = lineLength (w ++ [b]) := by
  have hLess := hCut.2.1
  rw [lineLength_concat, lineLength_concat, List.length_drop]
  by_cases hAll : f = w.length
  · rw [if_neg (hCut.getLast?_ne hAll), hAll, List.drop_length, List.getLast?_nil, if_neg (by simp)]
    omega
  · have hSome : ¬ w.length ≤ f := by omega
    rw [List.getLast?_drop, if_neg hSome]
    split <;> omega

------------
-- Counting In Fragments
------------

/- The innermost open part. -/
def St.inner (s : St) : Nat :=
  s.openPath.getLastD 0

/- The state after `f` bytes have been counted in part. -/
def St.flushed (s : St) (f : Nat) : St :=
  updateCounts s s.inner ((s.part s.inner).endpos + f) ((s.part s.inner).endpos + f) 0

variable {s : St}

theorem Tree.openPath_inner (hTree : Tree s) : ∃ front, s.openPath = front ++ [s.inner] :=
  hTree.getLastD_openPath

theorem inner_of_openPath {front : List Nat} {p : Nat} (hPath : s.openPath = front ++ [p]) :
    s.inner = p := by
  unfold St.inner
  rw [hPath, List.getLastD_concat]

theorem inReformime_updateCounts (s : St) (i newcnt newendcnt nlines : Nat) :
    (updateCounts s i newcnt newendcnt nlines).inReformime = s.inReformime :=
  inReformime_setUpward s i _

/- Counting again, after counting no line. -/
theorem updateCounts_twice (hTree : Tree s) {front : List Nat} {p : Nat}
    (hPath : s.openPath = front ++ [p]) (a b c d nlines : Nat) :
    Alike (updateCounts s p c d nlines) (updateCounts (updateCounts s p a b 0) p c d nlines) := by
  have hLinks : SameLinks s (updateCounts s p a b 0) := Keeps.updateCounts s p a b 0 fun _ _ => rfl
  have hFirst := hTree.part_setUpward hPath (Part.count a b 0)
  have hSecond := (hTree.of_sameLinks hLinks).part_setUpward
    (hLinks.openPath.trans hPath) (Part.count c d nlines)
  have hOnce := hTree.part_setUpward hPath (Part.count c d nlines)
  refine ⟨⟨?_, ?_⟩, ?_, ?_⟩
  · unfold updateCounts
    rw [St.length_setUpward, St.length_setUpward, St.length_setUpward]
  · intro k
    show (((updateCounts s p a b 0).setUpward p (Part.count c d nlines)).part k).bare =
      ((s.setUpward p (Part.count c d nlines)).part k).bare
    rw [hSecond, hOnce]
    show (if k ∈ front ++ [p] then
        Part.count c d nlines ((s.setUpward p (Part.count a b 0)).part k)
      else
        (s.setUpward p (Part.count a b 0)).part k).bare = _
    rw [hFirst]
    split
    · unfold Part.count
      simp only [Nat.add_zero, ite_self]
    · rfl
  · rw [numparts_updateCounts, numparts_updateCounts, numparts_updateCounts]
  · rw [inReformime_updateCounts, inReformime_updateCounts, inReformime_updateCounts]

theorem endpos_updateCounts (hTree : Tree s) {front : List Nat} {p : Nat}
    (hPath : s.openPath = front ++ [p]) (a b nlines : Nat) :
    ((updateCounts s p a b nlines).part p).endpos = a := by
  have hPart := hTree.part_setUpward hPath (Part.count a b nlines) p
  rw [if_pos (List.mem_append_right _ List.mem_cons_self)] at hPart
  exact congrArg (fun q => q.endpos) hPart

theorem Keeps.flushed {α : Type} {v : Part → α} (s : St) (f : Nat)
    (hCounts : ∀ p counts, v { p with toPartCounts := counts } = v p) : Keeps v s (s.flushed f) :=
  Keeps.updateCounts s _ _ _ 0 hCounts

theorem sameLinks_flushed (s : St) (f : Nat) : SameLinks s (s.flushed f) :=
  Keeps.flushed s f fun _ _ => rfl

theorem inner_flushed (s : St) (f : Nat) : (s.flushed f).inner = s.inner := by
  unfold St.inner
  rw [(sameLinks_flushed s f).openPath]

theorem endpos_flushed (hTree : Tree s) (f : Nat) : ((s.flushed f).part s.inner).endpos =
      (s.part s.inner).endpos + f := by
  rcases hTree.openPath_inner with ⟨front, hPath⟩
  exact endpos_updateCounts hTree hPath _ _ 0

/- Two fragments count like one. -/
theorem flushed_flushed (hTree : Tree s) (f l : Nat) :
    Alike (s.flushed (f + l)) ((s.flushed f).flushed l) := by
  rcases hTree.openPath_inner with ⟨front, hPath⟩
  have hTwice := updateCounts_twice hTree hPath
    ((s.part s.inner).endpos + f) ((s.part s.inner).endpos + f)
    ((s.part s.inner).endpos + (f + l))
    ((s.part s.inner).endpos + (f + l)) 0
  rw [← Nat.add_assoc] at hTwice
  have hSecond : (s.flushed f).flushed l =
      updateCounts (s.flushed f) s.inner ((s.part s.inner).endpos + f + l)
        ((s.part s.inner).endpos + f + l) 0 := by
    rw [St.flushed, inner_flushed, endpos_flushed hTree]
  rw [hSecond]
  unfold St.flushed
  rw [← Nat.add_assoc]
  exact hTwice

theorem Alike.flushed {s t : St} (hAlike : Alike s t) (f : Nat) :
    Alike (s.flushed f) (t.flushed f) := by
  have hInner : t.inner = s.inner := by
    unfold St.inner
    rw [hAlike.openPath]
  unfold St.flushed
  rw [hInner, hAlike.endpos]
  exact hAlike.updateCounts s.inner _ _ 0

/- Processing in part only counts. -/
theorem parsePartial_flushed (hWork : s.workbuf ≠ []) :
    Alike (s.flushed (partialLength s)) (parsePartial s) := by
  have hScan := Alike.scanPartial s (s.openPath.getLastD 0) (partialLength s)
  have hCounted := hScan.updateCounts (s.openPath.getLastD 0)
    ((s.part (s.openPath.getLastD 0)).endpos + partialLength s)
    ((s.part (s.openPath.getLastD 0)).endpos + partialLength s) 0
  have hMarked := hCounted.setPart_right (s.openPath.getLastD 0)
    (f := fun q => { q with informdata := true }) fun _ => rfl
  unfold parsePartial
  rw [if_neg hWork]
  exact hMarked.trans (Alike.of_parts_eq rfl rfl rfl)

/- The line is taken for a boundary line of an open part. -/
def FindsBoundary (t : St) (line : List Byte) : Prop :=
  ∃ p last final, locate t (cleanLine line) t.openPath = .boundary p last final

/- The line in `workbuf` belongs to a header. -/
def HeaderLine (t : St) : Prop :=
  ∃ p, locate t (cleanLine t.workbuf) t.openPath = .section p ∧ (t.part p).workinheader = true

/- Where a line may be cut, for its rest to begin anyhow. -/
def CutAt (line : List Byte) (f : Nat) : Prop :=
  1024 < f ∧ f < line.length ∧ (line.take f).getLast? ≠ some cr

/- The line in `workbuf` may as well come in fragments. -/
structure LineSafe (t : St) : Prop where
  few : t.numparts ≤ maxParts
  whole : ¬ FindsBoundary t t.workbuf
  rest : Shielded t ∨ ∀ f, CutAt t.workbuf f → ¬ FindsBoundary t (t.workbuf.drop f)

/- The place of a line that is no boundary line. -/
def endPlace (s : St) (p : Nat) : Place :=
  if (s.part p).lastpart.isSome then .leftover p else .section p

theorem locate_end {s : St} {c : List Byte} {front : List Nat} {p : Nat}
    (hNone : ∀ q last final, locate s c (front ++ [p]) ≠ .boundary q last final) :
    locate s c (front ++ [p]) = endPlace s p := by
  have hFound := @locate_found s c (front ++ [p]) (by simp)
  unfold endPlace
  cases hPlace : locate s c (front ++ [p]) with
  | leftover q =>
    rw [hPlace] at hFound
    rcases hFound with ⟨⟨before, hPath⟩, hLast⟩
    cases (List.append_inj' hPath rfl).2
    rw [if_pos (Option.isSome_iff_ne_none.mpr hLast)]
  | boundary q last final => exact absurd hPlace (hNone q last final)
  | «section» q =>
    rw [hPlace] at hFound
    rcases hFound with ⟨⟨before, hPath⟩, hLast⟩
    cases (List.append_inj' hPath rfl).2
    rw [hLast, if_neg (by simp)]

theorem start_eq (hAhead : lookAhead s s.openPath = none) : s.start = (s, s.openPath) := by
  unfold St.start
  rw [hAhead]

/- The look-ahead finds nothing in front of a shielded part. -/
theorem lookAhead_unshielded (hTree : Tree s) (hCalm : Calm s)
    (hOpen : ¬ Shielded s ∨ ∀ i, i ∈ s.openPath → Quiet s i) : lookAhead s s.openPath = none := by
  rcases path_cases hTree.openPath_isChain.ne_nil with ⟨p, hPath⟩ | ⟨front, q, inner, hPath⟩
  · rw [hPath]
    rfl
  · have hDescent := hTree.openPath_isDescent
    have hQuiet : ∀ i, i ∈ front ++ [q] → Quiet s i := by
      intro i hMem
      apply hCalm
      rw [hPath, List.append_cons, List.dropLast_concat]
      exact hMem
    rw [hPath] at hDescent ⊢
    rw [lookAhead_calm hDescent hQuiet]
    split
    · rfl
    · rename_i hBoth
      rw [not_or] at hBoth
      rcases hOpen with hNot | hAll
      · exact absurd ⟨front, q, inner, hPath, hBoth.1, Bool.eq_false_iff.mpr hBoth.2⟩ hNot
      · have hInner := hAll inner (by rw [hPath]; simp) q hDescent.concat
        rcases hInner with hNone | hHeader | hFlag
        · exact absurd hNone hBoth.1
        · exact absurd hHeader hBoth.2
        · rw [hFlag, if_neg Bool.false_ne_true]

/- A line that begins with `\r` is no boundary line. -/
theorem not_findsBoundary_of_cr (s : St) {rest : List Byte} (hFirst : rest[0]? = some cr) :
    ¬ FindsBoundary s rest := by
  rintro ⟨p, last, final, hPlace⟩
  have hPathNe : s.openPath ≠ [] := by
    intro hNil
    rw [hNil] at hPlace
    cases hPlace
  have hFound := locate_found s (cleanLine rest) hPathNe
  rw [hPlace] at hFound
  rcases hFound with ⟨_, ⟨cb, _, hMatch, _⟩, _⟩
  cases rest with
  | nil => cases hFirst
  | cons b more =>
    cases hFirst
    unfold isBoundary at hMatch
    rw [Bool.and_eq_true] at hMatch
    have hDash : bytes "--" = [chr '-', chr '-'] := by
      decide
    have hHead := hMatch.1
    rw [hDash] at hHead
    unfold cleanLine at hHead
    rw [List.map_cons, if_neg (by decide), List.isPrefixOf, Bool.and_eq_true] at hHead
    exact absurd hHead.1 (by decide)

section Lines

variable {r t : St} {f : Nat} {w : List Byte}

/- The same line on both sides. -/
theorem doline_whole (hAlike : Alike r t) (hWork : t.workbuf = r.workbuf)
    (hLeft : r.numparts ≤ maxParts → r.start = (r, r.openPath))
    (hRight : t.numparts ≤ maxParts → t.start = (t, t.openPath)) :
    Alike (doline r) (doline t) := by
  unfold doline
  rw [hAlike.numparts]
  split
  · exact hAlike.setPart 0 fun _ => rfl
  · rename_i hParts
    have hFew := Nat.le_of_not_lt hParts
    rw [hLeft hFew, hRight (hAlike.numparts ▸ hFew), hWork]
    simp only []
    rw [hAlike.openPath, hAlike.locate]
    exact hAlike.dolineAt _ _ _

/-
  The rest of a line, at the same place, comes to what the
  whole line does.
-/
theorem dolineAt_fragment (hTree : Tree r) {front : List Nat} {p : Nat}
    (hPath : r.openPath = front ++ [p]) (hAlike : Alike (r.flushed f) t) (hCut : Flushed w f)
    (hBody : (r.part p).lastpart = none → (r.part p).workinheader = false) (bit8 rest8 : Bool) :
    Alike (dolineAt r (cleanLine (w ++ [nl])) bit8 (endPlace r p))
      (dolineAt t (cleanLine (w.drop f ++ [nl])) rest8 (endPlace r p)) := by
  have hInner := inner_of_openPath hPath
  have hEnd : ((r.flushed f).part p).endpos = (r.part p).endpos + f := by
    have hInnerEnd := endpos_flushed hTree f
    rw [hInner] at hInnerEnd
    exact hInnerEnd
  have hSize : f + (cleanLine (w.drop f ++ [nl])).length = (cleanLine (w ++ [nl])).length := by
    rw [length_cleanLine, length_cleanLine,
      List.length_append, List.length_append, List.length_drop]
    have hLess := hCut.2.1
    omega
  have hLine : f + lineLength (cleanLine (w.drop f ++ [nl])) =
        lineLength (cleanLine (w ++ [nl])) := by
    rw [lineLength_cleanLine, lineLength_cleanLine]
    exact lineLength_fragment hCut nl
  have hCounted : ∀ c d, Alike (updateCounts r p c d 1) (updateCounts (r.flushed f) p c d 1) := by
    intro c d
    unfold St.flushed
    rw [hInner]
    exact updateCounts_twice hTree hPath _ _ c d 1
  unfold endPlace
  split
  · refine Alike.trans ?_ (hAlike.dolineLeftover _ p)
    show Alike (dolineLeftover r _ p) _
    unfold dolineLeftover
    simp only []
    rw [hEnd, Nat.add_assoc, hSize, Nat.add_assoc, hLine]
    exact hCounted _ _
  · rename_i hLast
    have hNone : (r.part p).lastpart = none := by simpa using hLast
    have hHeader := hBody hNone
    have hFlushed : ((r.flushed f).part p).workinheader = false :=
      ((Keeps.flushed (v := Part.workinheader) r f fun _ _ => rfl).same p).trans hHeader
    have hOther : (t.part p).workinheader = false := (hAlike.workinheader p).trans hFlushed
    show Alike (dolineSection r _ bit8 p) (dolineSection t _ rest8 p)
    unfold dolineSection
    rw [hHeader, hOther, if_neg Bool.false_ne_true, if_neg Bool.false_ne_true]
    have hLong := (Alike.refl r).dolineBody (cleanLine (w ++ [nl])) bit8 p
    have hShort := hAlike.dolineBody (cleanLine (w.drop f ++ [nl])) rest8 p
    have hType : (r.flushed f).parentType p = r.parentType p := by
      have hInfo : Keeps Part.toMimeInfo r (r.flushed f) := Keeps.flushed r f fun _ _ => rfl
      unfold St.parentType
      rw [(sameLinks_flushed r f).parent]
      cases (r.part p).parent with
      | none => rfl
      | some q => exact congrArg MimeInfo.contentType (hInfo.same q)
    have hBodyEnd : f + bodyLength (r.flushed f) (cleanLine (w.drop f ++ [nl])) p =
          bodyLength r (cleanLine (w ++ [nl])) p := by
      unfold bodyLength
      rw [hType]
      split
      · exact hLine
      · exact hSize
    rw [hEnd, Nat.add_assoc, hSize, Nat.add_assoc, hBodyEnd] at hShort
    exact hLong.symm.trans ((hCounted _ _).trans hShort)

/- The place of the rest of a safe line. -/
theorem start_fragment (hTree : Tree t) (hCalm : Calm t) {front : List Nat} {p : Nat}
    (hPath : t.openPath = front ++ [p]) (hMarked : (t.part p).informdata = true)
    {line : List Byte} (hRest : Shielded t ∨ ¬ FindsBoundary t line) :
    locate t.start.1 (cleanLine line) t.start.2 = endPlace t p := by
  have hSame : Alike t t.start.1 := Alike.start t
  have hFlag : ∀ before inner, t.openPath = before ++ [inner] →
        (t.part inner).informdata = true := by
    intro before inner hOther
    rw [hPath] at hOther
    cases (List.append_inj' hOther rfl).2
    exact hMarked
  rw [hSame.locate]
  by_cases hShield : Shielded t
  · rcases start_shielded hTree hCalm hShield hFlag with ⟨inner, hStart⟩
    have hSuffix := (start_path t hTree.openPath_isChain.ne_nil).1
    rw [hStart, hPath] at hSuffix
    rcases hSuffix with ⟨before, hEq⟩
    cases (List.append_inj' hEq rfl).2
    rw [hStart]
    rfl
  · rcases hRest with hShielded | hNone
    · exact absurd hShielded hShield
    · rw [start_eq (lookAhead_unshielded hTree hCalm (Or.inl hShield)), hPath]
      apply locate_end
      intro q last final hPlace
      rw [← hPath] at hPlace
      exact hNone ⟨q, last, final, hPlace⟩

end Lines

------------
-- Runs Next To Each Other
------------

/- The look-ahead passes over all open parts. -/
def Still (s : St) : Prop :=
  s.numparts ≤ maxParts → ∀ i, i ∈ s.openPath → Quiet s i

/-
  `t` has processed the first `f` bytes of the line so far in
  part, and `r` none of them.
-/
structure Behind (r : St) (f : Nat) (t : St) : Prop where
  workbuf : t.workbuf = r.workbuf.drop f
  cut : f = 0 ∨ Flushed r.workbuf f
  level : f = 0 → Alike r t ∧ Still t
  ahead : f ≠ 0 → Alike (r.flushed f) t ∧ (t.part t.inner).informdata = true

theorem alike_workbuf (s : St) (workbuf : List Byte) : Alike s { s with workbuf := workbuf } :=
  Alike.of_parts_eq rfl rfl rfl

namespace Behind

variable {r t : St} {f : Nat}

theorem sameLinks (hBehind : Behind r f t) : SameLinks r t := by
  by_cases hZero : f = 0
  · exact (hBehind.level hZero).1.links
  · exact (sameLinks_flushed r f).trans (hBehind.ahead hZero).1.links

theorem info (hBehind : Behind r f t) (k : Nat) :
    (t.part k).toMimeInfo = (r.part k).toMimeInfo := by
  by_cases hZero : f = 0
  · exact (hBehind.level hZero).1.info k
  · have hFlushed : Keeps Part.toMimeInfo r (r.flushed f) := Keeps.flushed r f fun _ _ => rfl
    exact ((hBehind.ahead hZero).1.info k).trans (hFlushed.same k)

theorem workinheader (hBehind : Behind r f t) (k : Nat) :
    (t.part k).workinheader = (r.part k).workinheader := by
  by_cases hZero : f = 0
  · exact (hBehind.level hZero).1.workinheader k
  · have hFlushed : Keeps Part.workinheader r (r.flushed f) := Keeps.flushed r f fun _ _ => rfl
    exact ((hBehind.ahead hZero).1.workinheader k).trans (hFlushed.same k)

theorem numparts (hBehind : Behind r f t) : t.numparts = r.numparts := by
  by_cases hZero : f = 0
  · exact (hBehind.level hZero).1.numparts
  · exact (hBehind.ahead hZero).1.numparts.trans (numparts_updateCounts _ _ _ _ _)

theorem endPlace (hBehind : Behind r f t) (p : Nat) : endPlace t p = endPlace r p := by
  unfold Rfc2045.endPlace
  rw [hBehind.sameLinks.lastpart]

theorem boundary (hBehind : Behind r f t) (k : Nat) : (t.part k).boundary = (r.part k).boundary :=
  congrArg MimeInfo.boundary (hBehind.info k)

theorem locate (hBehind : Behind r f t) (c : List Byte) (path : List Nat) :
    locate t c path = locate r c path :=
  locate_congr hBehind.sameLinks.lastpart hBehind.boundary hBehind.workinheader c path

theorem findsBoundary (hBehind : Behind r f t) (line : List Byte) :
    FindsBoundary t line ↔ FindsBoundary r line := by
  unfold FindsBoundary
  rw [hBehind.sameLinks.openPath]
  simp only [hBehind.locate]

theorem shielded (hBehind : Behind r f t) : Shielded t ↔ Shielded r := by
  unfold Shielded
  simp only [hBehind.sameLinks.openPath, hBehind.boundary, hBehind.workinheader]

/- One more byte of the line. -/
theorem byte (hBehind : Behind r f t) {b : Byte} (hByte : b ≠ nl) :
    Behind (parseByte r b) f (parseByte t b) := by
  have hLeft : parseByte r b = { r with workbuf := r.workbuf ++ [b] } := if_neg hByte
  have hRight : parseByte t b = { t with workbuf := t.workbuf ++ [b] } := if_neg hByte
  have hSame := alike_workbuf r (r.workbuf ++ [b])
  have hOther := alike_workbuf t (t.workbuf ++ [b])
  have hLess : f ≤ r.workbuf.length := by
    rcases hBehind.cut with hZero | hCut
    · rw [hZero]
      exact Nat.zero_le _
    · exact hCut.2.1
  rw [hLeft, hRight]
  constructor
  · show t.workbuf ++ [b] = (r.workbuf ++ [b]).drop f
    rw [List.drop_append_of_le_length hLess, hBehind.workbuf]
  · exact hBehind.cut.imp_right fun hCut => hCut.append b
  · intro hZero
    rcases hBehind.level hZero with ⟨hAlike, hStill⟩
    exact ⟨hSame.symm.trans (hAlike.trans hOther), hStill⟩
  · intro hSome
    rcases hBehind.ahead hSome with ⟨hAlike, hMarked⟩
    exact ⟨(hSame.symm.flushed f).trans (hAlike.trans hOther), hMarked⟩

/- The beginning of a long line is processed in part. -/
theorem parsePartial (hBehind : Behind r f t) (hTree : Tree r) (hOther : Tree t)
    (hLong : 1024 < t.workbuf.length) : Behind r (f + partialLength t) (parsePartial t) := by
  have hWork : t.workbuf ≠ [] := by
    intro hNil
    rw [hNil] at hLong
    cases hLong
  have hDrop : t.workbuf.length = r.workbuf.length - f := by
    rw [hBehind.workbuf, List.length_drop]
  have hLast : t.workbuf.getLast? = r.workbuf.getLast? := by
    rw [hBehind.workbuf, List.getLast?_drop, if_neg]
    omega
  have hFlush := parsePartial_flushed hWork
  constructor
  · unfold Rfc2045.parsePartial
    rw [if_neg hWork]
    show t.workbuf.drop (partialLength t) = _
    rw [hBehind.workbuf, List.drop_drop]
  · right
    unfold partialLength
    refine ⟨by omega, ?_⟩
    by_cases hCr : t.workbuf.getLast? = some cr
    · rw [if_pos hCr]
      refine ⟨by omega, Or.inr ⟨by omega, ?_⟩⟩
      rw [hLast, List.getLast?_eq_getElem?] at hCr
      rw [← hCr]
      congr 1
      omega
    · rw [if_neg hCr]
      have hAll : f + t.workbuf.length = r.workbuf.length := by omega
      rw [hAll, List.take_length, ← hLast]
      exact ⟨Nat.le_refl _, Or.inl ⟨by omega, hCr⟩⟩
  · intro hZero
    have hSome : partialLength t = 0 := by omega
    unfold partialLength at hSome
    split at hSome <;> omega
  · intro _
    constructor
    · by_cases hZero : f = 0
      · rcases hBehind.level hZero with ⟨hAlike, _⟩
        rw [hZero, Nat.zero_add]
        exact (hAlike.flushed _).trans hFlush
      · rcases hBehind.ahead hZero with ⟨hAlike, _⟩
        exact (flushed_flushed hTree f _).trans ((hAlike.flushed _).trans hFlush)
    · rcases hOther.openPath_inner with ⟨front, hPath⟩
      have hInner : (Rfc2045.parsePartial t).inner = t.inner := by
        unfold St.inner
        rw [openPath_parsePartial]
      rw [hInner, informdata_parsePartial hOther hWork hPath, if_pos rfl]

end Behind

/- After a line, the look-ahead passes over all open parts. -/
theorem still_newline (hTree : Tree s) (hCalm : s.numparts ≤ maxParts → Calm s) :
    Still (parseByte s nl) := by
  have hLine : Tree (lineState s) := hTree.of_sameLinks (Keeps.of_parts_eq rfl)
  intro hFew i hMem
  have hParts : s.numparts ≤ maxParts := by
    by_contra hMany
    have hKept := @numparts_doline (lineState s) (Nat.lt_of_not_le hMany)
    exact hMany (hKept ▸ hFew)
  exact doline_quiet hLine (hCalm hParts) hParts hMem

theorem locate_lineState (s : St) (c : List Byte) (path : List Nat) :
    locate (lineState s) c path = locate s c path :=
  @locate_congr s (lineState s) (fun _ => rfl) (fun _ => rfl) (fun _ => rfl) c path

theorem findsBoundary_lineState (s : St) (line : List Byte) :
    FindsBoundary (lineState s) line ↔ FindsBoundary s line := by
  unfold FindsBoundary
  simp only [locate_lineState]
  exact Iff.rfl

/- How the rest of a safe line may begin. -/
theorem LineSafe.fragment (hLine : LineSafe (lineState s)) (hCut : Flushed s.workbuf f) :
    Shielded s ∨ ¬ FindsBoundary s (s.workbuf.drop f ++ [nl]) := by
  rcases hLine.rest with hShield | hRest
  · exact Or.inl hShield
  · right
    rcases hCut with ⟨_, hLess, ⟨hFar, hLast⟩ | ⟨_, hCr⟩⟩
    · have hDrop : (lineState s).workbuf.drop f = s.workbuf.drop f ++ [nl] :=
        List.drop_append_of_le_length hLess
      have hNone := hRest f ⟨hFar, ?_, ?_⟩
      · rw [hDrop, findsBoundary_lineState] at hNone
        exact hNone
      · show f < (s.workbuf ++ [nl]).length
        rw [List.length_append]
        exact Nat.lt_succ_of_le hLess
      · show ((s.workbuf ++ [nl]).take f).getLast? ≠ some cr
        rw [List.take_append_of_le_length hLess]
        exact hLast
    · apply not_findsBoundary_of_cr
      have hIn := (List.getElem?_eq_some_iff.mp hCr).1
      rw [List.getElem?_append_left (by
        rw [List.length_drop]
        omega), List.getElem?_drop, Nat.add_zero]
      exact hCr

section Newline

variable {r t : St} {f : Nat}

/- Without a flag, the drill down starts at the root. -/
theorem Still.start {s : St} (hStill : Still s) (hTree : Tree s)
    (hFew : s.numparts ≤ maxParts) : (lineState s).start = (lineState s, s.openPath) := by
  have hQuiet := hStill hFew
  refine start_eq (lookAhead_unshielded (hTree.of_sameLinks (Keeps.of_parts_eq rfl)) ?_
    (Or.inr hQuiet))
  intro i hMem
  exact hQuiet i (List.dropLast_subset _ hMem)

/- A safe line belongs to the innermost part. -/
theorem locate_safe (hTree : Tree r) (hLine : LineSafe (lineState r)) :
    locate (lineState r) (cleanLine (lineState r).workbuf)
      (lineState r).openPath = endPlace r r.inner := by
  rcases hTree.openPath_inner with ⟨front, hPath⟩
  have hSame : (lineState r).openPath = r.openPath := rfl
  rw [locate_lineState, hSame, hPath]
  apply locate_end
  intro q last final hFound
  rw [← hPath] at hFound
  exact hLine.whole ((findsBoundary_lineState r _).mpr ⟨q, last, final, hFound⟩)

/- And so does the rest of it. -/
theorem locate_fragment (hBehind : Behind r f t) (hCut : Flushed r.workbuf f)
    (hOther : Tree t) (hCalm : Calm t) (hLine : LineSafe (lineState r)) :
    locate (lineState t).start.1 (cleanLine (lineState t).workbuf)
      (lineState t).start.2 = endPlace r r.inner := by
  have hMarked := (hBehind.ahead hCut.pos).2
  have hInner : t.inner = r.inner := by
    unfold St.inner
    rw [hBehind.sameLinks.openPath]
  rcases hOther.openPath_inner with ⟨front, hPath⟩
  have hRest : (lineState t).workbuf = r.workbuf.drop f ++ [nl] :=
    congrArg (· ++ [nl]) hBehind.workbuf
  rw [← hInner, ← hBehind.endPlace]
  have hLineTree : Tree (lineState t) := hOther.of_sameLinks (Keeps.of_parts_eq rfl)
  apply start_fragment hLineTree hCalm hPath hMarked
  rw [hRest]
  refine (hLine.fragment hCut).imp ?_ ?_
  · exact hBehind.shielded.mpr
  · intro hNone hFound
    rw [findsBoundary_lineState] at hFound
    exact hNone ((hBehind.findsBoundary _).mp hFound)

/- The end of a line that has been processed in part. -/
theorem doline_fragment (hBehind : Behind r f t) (hCut : Flushed r.workbuf f) (hTree : Tree r)
    (hStart :
      (lineState r).start =
        (lineState r, (lineState r).openPath)) (hOther : Tree t) (hCalm : Calm t)
    (hHeader : ¬ HeaderLine (lineState r)) (hLine : LineSafe (lineState r)) :
    Alike (doline (lineState r)) (doline (lineState t)) := by
  have hAlike := (hBehind.ahead hCut.pos).1
  rcases hTree.openPath_inner with ⟨front, hPath⟩
  have hRest : (lineState t).workbuf = r.workbuf.drop f ++ [nl] :=
    congrArg (· ++ [nl]) hBehind.workbuf
  have hPlace := locate_safe hTree hLine
  have hFragment := locate_fragment hBehind hCut hOther hCalm hLine
  have hFew : ¬ maxParts < (lineState r).numparts := Nat.not_lt.mpr hLine.few
  have hOtherFew : ¬ maxParts < (lineState t).numparts := by
    show ¬ maxParts < t.numparts
    rw [hBehind.numparts]
    exact hFew
  have hBody : ((lineState r).part r.inner).lastpart = none →
        ((lineState r).part r.inner).workinheader = false := by
    intro hLast
    rw [← Bool.not_eq_true]
    intro hIn
    refine hHeader ⟨r.inner, ?_, hIn⟩
    have hOld : (r.part r.inner).lastpart = none := hLast
    rw [hPlace]
    unfold endPlace
    rw [hOld]
    rfl
  have hAhead : Alike ((lineState r).flushed f) (lineState t).start.1 :=
    ((alike_workbuf r _).symm.flushed f).trans
      (hAlike.trans ((alike_workbuf t _).trans (Alike.start (lineState t))))
  have hLineTree : Tree (lineState r) := hTree.of_sameLinks (Keeps.of_parts_eq rfl)
  unfold doline
  rw [if_neg hFew, if_neg hOtherFew]
  simp only []
  rw [hFragment, hStart]
  simp only []
  rw [hPlace, hRest]
  exact dolineAt_fragment hLineTree hPath hAhead hCut hBody _ _

/- Both runs find the same place for a safe line. -/
theorem behind_place (hBehind : Behind r f t) (hTree : Tree r) (hOther : Tree t)
    (hCalm : t.numparts ≤ maxParts → Calm t) (hFew : r.numparts ≤ maxParts)
    (hSafe : 1025 < (lineState r).workbuf.length → LineSafe (lineState r)) :
    locate (lineState t).start.1 (cleanLine (lineState t).workbuf) (lineState t).start.2 =
      locate (lineState r) (cleanLine (lineState r).workbuf)
        r.openPath := by
  have hOtherFew : t.numparts ≤ maxParts := by
    rw [hBehind.numparts]
    exact hFew
  rcases hBehind.cut with hZero | hCut
  · have hQuiet := (hBehind.level hZero).2
    have hWork : (lineState t).workbuf = (lineState r).workbuf := by
      show t.workbuf ++ [nl] = r.workbuf ++ [nl]
      rw [hBehind.workbuf, hZero, List.drop_zero]
    rw [hQuiet.start hOther hOtherFew, locate_lineState, locate_lineState, hBehind.locate,
      hBehind.sameLinks.openPath, hWork]
  · have hLong : 1025 < (lineState r).workbuf.length := by
      show 1025 < (r.workbuf ++ [nl]).length
      rw [List.length_append]
      exact Nat.succ_lt_succ hCut.1
    have hPlace := locate_safe hTree (hSafe hLong)
    have hSame : (lineState r).openPath = r.openPath := rfl
    rw [hSame] at hPlace
    rw [hPlace]
    exact locate_fragment hBehind hCut hOther (hCalm hOtherFew) (hSafe hLong)

/-
  At the end of a line, both runs come to the same, when the
  line is safe.
-/
theorem behind_newline (hBehind : Behind r f t) (hTree : Tree r) (hStill : Still r)
    (hOther : Tree t) (hCalm : t.numparts ≤ maxParts → Calm t)
    (hHeader : HeaderLine (lineState r) → (lineState r).workbuf.length ≤ 1024)
    (hSafe : 1025 < (lineState r).workbuf.length → LineSafe (lineState r)) :
    Behind (parseByte r nl) 0 (parseByte t nl) := by
  refine ⟨rfl, Or.inl rfl, ?_, fun hSome => absurd rfl hSome⟩
  intro _
  refine ⟨?_, still_newline hOther hCalm⟩
  refine (alike_workbuf (doline (lineState r)) []).symm.trans
    (Alike.trans ?_ (alike_workbuf (doline (lineState t)) []))
  rcases hBehind.cut with hZero | hCut
  · rcases hBehind.level hZero with ⟨hAlike, hQuiet⟩
    refine doline_whole ?_ ?_ (hStill.start hTree) (hQuiet.start hOther)
    · exact (alike_workbuf r _).symm.trans (hAlike.trans (alike_workbuf t _))
    · show t.workbuf ++ [nl] = r.workbuf ++ [nl]
      rw [hBehind.workbuf, hZero, List.drop_zero]
  · have hLong : 1025 < (lineState r).workbuf.length := by
      show 1025 < (r.workbuf ++ [nl]).length
      rw [List.length_append]
      exact Nat.succ_lt_succ hCut.1
    have hLine := hSafe hLong
    refine doline_fragment hBehind hCut hTree
      (hStill.start hTree hLine.few) hOther (hCalm ?_) ?_ hLine
    · rw [hBehind.numparts]
      exact hLine.few
    · intro hIn
      have hShort := hHeader hIn
      omega

end Newline

/- At the end of the message, both runs come to the same. -/
theorem behind_finish {r t : St} (hBehind : Behind r f t) (hTree : Tree r) :
    Alike (parsePartial r) (parsePartial t) := by
  by_cases hNone : r.workbuf = []
  · have hZero : f = 0 := by
      rcases hBehind.cut with hZero | hCut
      · exact hZero
      · have hLong := hCut.1
        rw [hNone] at hLong
        cases hLong
    have hOther : t.workbuf = [] := by rw [hBehind.workbuf, hNone, List.drop_nil]
    unfold parsePartial
    rw [if_pos hNone, if_pos hOther]
    exact (hBehind.level hZero).1
  · refine (parsePartial_flushed hNone).symm.trans ?_
    rcases hBehind.cut with hZero | hCut
    · have hWork : t.workbuf = r.workbuf := by rw [hBehind.workbuf, hZero, List.drop_zero]
      have hSame : partialLength t = partialLength r := by
        unfold partialLength
        rw [hWork]
      have hFlush := parsePartial_flushed (s := t) (hWork ▸ hNone)
      rw [hSame] at hFlush
      exact ((hBehind.level hZero).1.flushed _).trans hFlush
    · have hAhead := (hBehind.ahead hCut.pos).1
      by_cases hAll : f = r.workbuf.length
      · have hOther : t.workbuf = [] := by rw [hBehind.workbuf, hAll, List.drop_length]
        have hWhole : partialLength r = f := by
          unfold partialLength
          rw [if_neg (hCut.getLast?_ne hAll), hAll]
        unfold parsePartial
        rw [if_pos hOther, hWhole]
        exact hAhead
      · have hLess := Nat.lt_of_le_of_ne hCut.2.1 hAll
        have hSize : t.workbuf.length = r.workbuf.length - f := by
          rw [hBehind.workbuf, List.length_drop]
        have hWork : t.workbuf ≠ [] := by
          intro hNil
          rw [hNil, List.length_nil] at hSize
          omega
        have hLast : t.workbuf.getLast? = r.workbuf.getLast? := by
          rw [hBehind.workbuf, List.getLast?_drop, if_neg (Nat.not_le.mpr hLess)]
        have hSum : partialLength r = f + partialLength t := by
          unfold partialLength
          rw [hLast]
          split <;> omega
        rw [hSum]
        exact (flushed_flushed hTree f _).trans
          ((hAhead.flushed _).trans (parsePartial_flushed hWork))

end Wmail.Rfc2045
