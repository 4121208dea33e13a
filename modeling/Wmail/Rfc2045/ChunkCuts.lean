import Wmail.Rfc2045.EndPositions
import Wmail.Rfc2045.ParseChunking

/-
  Cuts that show in the tree.

  When a long line is not safe, there are two ways to cut the
  message into pieces that give different trees.

  Key theorems include:
    * `parse_chunking`
    * `parse_eightBitLine`
-/

namespace Wmail.Rfc2045

open Links

/- Parts with the same number are reported alike. -/
theorem report_congr {s t : St} (hSame : s.report = t.report) {k : Nat}
    (hLess : k < s.parts.length) : (s.part k).report = (t.part k).report := by
  have hAt := congrArg (fun parts => parts[k]?) hSame
  simp only [report_getElem?] at hAt
  rw [if_pos hLess] at hAt
  split at hAt
  · exact Option.some.inj hAt
  · cases hAt

variable {s : St}

/- The beginning of the current line is in `workbuf`. -/
theorem parseBytes_line (hWork : s.workbuf = []) (front : List Byte) :
    ∃ done, front = done ++ (front.foldl parseByte s).workbuf ∧
        nl ∉ (front.foldl parseByte s).workbuf ∧ (done.foldl parseByte s).workbuf = [] ∧
            front.foldl parseByte s =
              { done.foldl parseByte s with
                  workbuf :=
                    (front.foldl parseByte s).workbuf } := by
  induction front using List.reverseRecOn with
  | nil =>
    rw [List.foldl_nil, hWork]
    refine ⟨[], rfl, List.not_mem_nil, hWork, ?_⟩
    rw [List.foldl_nil, ← hWork]
  | append_singleton front b ih =>
    rw [List.foldl_concat]
    by_cases hByte : b = nl
    · subst hByte
      have hEmpty : (parseByte (front.foldl parseByte s) nl).workbuf = [] := rfl
      rw [hEmpty]
      refine ⟨front ++ [nl], (List.append_nil _).symm, List.not_mem_nil, ?_, ?_⟩
      all_goals
        rw [List.foldl_concat]
        rfl
    · rcases ih with ⟨done, hFront, hLine, hDone, hState⟩
      have hNext : parseByte (front.foldl parseByte s) b =
            { front.foldl parseByte s with
                workbuf :=
                  (front.foldl parseByte s).workbuf ++ [b] } := if_neg hByte
      rw [hNext]
      refine ⟨done, ?_, ?_, hDone, ?_⟩
      · show front ++ [b] = done ++ ((front.foldl parseByte s).workbuf ++ [b])
        rw [← List.append_assoc, ← hFront]
      · intro hMem
        rcases List.mem_append.mp hMem with hIn | hLast
        · exact hLine hIn
        · exact hByte (List.mem_singleton.mp hLast).symm
      · rw [hState]

/- A call that goes on from a line to the end. -/
theorem parse_line (s : St) (front after : List Byte) :
    parse s (front ++ nl :: after) = parse (parseByte (front.foldl parseByte s) nl) after := by
  unfold parse
  rw [List.foldl_append]
  rfl

/- Whatever comes later, a closed part keeps its end. -/
theorem Later.finish {fed : Nat} (hTracked : Tracked s fed) (buf : List Byte) :
    Later s (parsePartial (parse s buf)) :=
  (later_parse hTracked buf).trans
    (later_parsePartial ((tracked_kept fed).parse [] hTracked buf))

/- Two states that lead to different trees, whatever follows. -/
theorem report_ne_of_closed {s t : St} {fed other k : Nat} (hTracked : Tracked s fed)
    (hOther : Tracked t other) (hLess : k < s.parts.length) (hAlso : k < t.parts.length)
    (hClosed : k ∉ s.openPath) (hEnd : (s.part k).endpos < (t.part k).endpos) (buf : List Byte) :
    (parsePartial (parse s buf)).report ≠ (parsePartial (parse t buf)).report := by
  intro hSame
  have hLater := Later.finish hTracked buf
  have hBehind := Later.finish hOther buf
  have hReport := report_congr hSame (Nat.lt_of_lt_of_le hLess hLater.length)
  have hEnds := congrArg (fun r => r.endpos) hReport
  have hFixed := (hLater.closed k hLess hClosed).2
  have hGrown := hBehind.endpos k hAlso
  have hEqual : ((parsePartial (parse s buf)).part k).endpos =
        ((parsePartial (parse t buf)).part k).endpos := hEnds
  omega

------------
-- Boundary Lines
------------

variable {t : St}

/- A boundary line closes the innermost part. -/
theorem inner_closed (hTree : Tree t) (hFew : t.numparts ≤ maxParts)
    (hStart : t.start = (t, t.openPath)) (hFinds : FindsBoundary t t.workbuf) :
    t.inner ∉ (doline t).openPath := by
  rcases hFinds with ⟨p, last, final, hPlace⟩
  have hFound := hTree.found (cleanLine t.workbuf)
  rw [hStart] at hFound
  simp only [] at hFound
  rw [hPlace] at hFound
  rcases hFound with ⟨⟨front, back, hPath⟩, _⟩
  have hNodup := hTree.openPath_nodup
  rcases hTree.openPath_inner with ⟨before, hInner⟩
  have hLess : t.inner < t.parts.length := by
    apply hTree.openPath_lt
    rw [hInner]
    exact List.mem_append_right _ List.mem_cons_self
  have hIn : t.inner ∈ last :: back := by
    rcases List.eq_nil_or_concat (last :: back) with hNil | ⟨others, q, hLast⟩
    · cases hNil
    · rw [hPath, hLast, List.concat_eq_append, ← List.cons_append, ← List.append_assoc] at hInner
      rw [hLast, List.concat_eq_append]
      exact List.mem_append_right _ (List.mem_singleton.mpr (List.singleton_inj.mp
            (List.append_inj' hInner rfl).2).symm)
  have hNot : t.inner ∉ front ++ [p] := by
    intro hMem
    rw [hPath, List.append_cons] at hNodup
    have hApart := (List.nodup_append.mp hNodup).2.2
    exact hApart _ hMem _ hIn rfl
  unfold doline
  rw [if_neg (Nat.not_lt.mpr hFew), hStart]
  simp only []
  rw [hPlace]
  intro hMem
  have hMore := openPath_dolineBoundary hTree hPath (cleanLine t.workbuf) final
  have hBoundary : t.inner ∈ (dolineBoundary t (cleanLine t.workbuf) p last final).openPath := hMem
  rw [hMore] at hBoundary
  split at hBoundary
  · exact hNot hBoundary
  · rw [List.append_cons] at hBoundary
    rcases List.mem_append.mp hBoundary with hOld | hNew
    · exact hNot hOld
    · exact Nat.ne_of_lt hLess (List.mem_singleton.mp hNew)

/- Any other line leaves the innermost part open. -/
theorem inner_open (hTree : Tree t) (hFew : t.numparts ≤ maxParts)
    (hStart : t.start = (t, t.openPath)) (hFinds : ¬ FindsBoundary t t.workbuf) :
    t.inner ∈ (doline t).openPath := by
  rcases hTree.openPath_inner with ⟨front, hPath⟩
  have hMem : t.inner ∈ t.openPath := by
    rw [hPath]
    exact List.mem_append_right _ List.mem_cons_self
  have hPlace : locate t (cleanLine t.workbuf) t.openPath = endPlace t t.inner := by
    have hEnd := @locate_end t (cleanLine t.workbuf) front t.inner
    rw [← hPath] at hEnd
    apply hEnd
    intro q last final hFound
    exact hFinds ⟨q, last, final, hFound⟩
  unfold doline
  rw [if_neg (Nat.not_lt.mpr hFew), hStart]
  simp only []
  rw [hPlace]
  unfold endPlace
  split
  · have hSame := (links_dolineLeftover t (cleanLine t.workbuf) t.inner).openPath
    exact hSame ▸ hMem
  · rcases dolineSection_openPath hTree hPath (cleanLine t.workbuf)
        (t.workbuf.any fun b => 128 ≤ b) with hSame | hMore
    · exact hSame ▸ hMem
    · exact hMore ▸ List.mem_append_left _ hMem

theorem inner_lt_length (hTree : Tree s) : s.inner < s.parts.length := by
  rcases hTree.openPath_inner with ⟨front, hPath⟩
  apply hTree.openPath_lt
  rw [hPath]
  exact List.mem_append_right _ List.mem_cons_self

theorem partialLength_pos (hLong : 1024 < s.workbuf.length) : 0 < partialLength s := by
  unfold partialLength
  split <;> omega

theorem endpos_parsePartial (hTree : Tree s) (hWork : s.workbuf ≠ []) :
    ((parsePartial s).part s.inner).endpos = (s.part s.inner).endpos + partialLength s :=
  ((parsePartial_flushed hWork).endpos s.inner).trans (endpos_flushed hTree (partialLength s))

/- The end of a line that closes the innermost part. -/
theorem endpos_closing (hTree : Tree s) (hClosed : s.inner ∉ (parseByte s nl).openPath) :
    ((parseByte s nl).part s.inner).endpos = (s.part s.inner).endpos :=
  @endpos_doline (lineState s) (lineState_tree hTree) s.inner (inner_lt_length hTree) hClosed

section Cuts

variable {r : St} {fed : List Byte}

/-
  A long boundary line closes the innermost part, before or
  after it has been lengthened by a beginning of the line.
-/
theorem cut_boundary (hWatched : Watched r fed) (hStill : Still r)
    (hLong : 1024 < r.workbuf.length) (hFew : r.numparts ≤ maxParts)
    (hFinds : FindsBoundary (lineState r) (lineState r).workbuf) (after : List Byte) :
    (parsePartial (parse (parseByte r nl) after)).report ≠
      (parsePartial (parse (parseByte (parsePartial r) nl) after)).report := by
  have hTree := hWatched.tree
  have hWork : r.workbuf ≠ [] := by
    intro hNil
    rw [hNil] at hLong
    cases hLong
  have hTracked := parsePartial_tracked hWatched.tracked
  have hDone := parseByte_tracked hWatched.tracked nl
  have hOther := parseByte_tracked hTracked nl
  have hClosed : r.inner ∉ (parseByte r nl).openPath :=
    inner_closed (lineState_tree hTree) hFew (hStill.start hTree hFew) hFinds
  have hHere := endpos_closing hTree hClosed
  have hLess := inner_lt_length hTree
  have hPart := later_parsePartial hWatched.tracked
  have hNext := later_parseByte hTracked nl
  have hIn := Nat.lt_of_lt_of_le hLess hPart.length
  have hGrown := hNext.endpos r.inner hIn
  have hMore := partialLength_pos hLong
  rw [endpos_parsePartial hTree hWork] at hGrown
  apply report_ne_of_closed hDone hOther (Nat.lt_of_lt_of_le hLess
      (later_parseByte hWatched.tracked nl).length)
    (Nat.lt_of_lt_of_le hIn hNext.length) hClosed
  rw [hHere]
  omega

/- The rest of a line, after a beginning has been cut off. -/
theorem behind_bytes {s t : St} {f : Nat} (hBehind : Behind s f t) {buf : List Byte}
    (hLine : nl ∉ buf) :
    Behind { s with workbuf := s.workbuf ++ buf } f (buf.foldl parseByte t) := by
  induction buf generalizing s t with
  | nil =>
    rw [List.append_nil]
    exact hBehind
  | cons b rest ih =>
    have hByte : b ≠ nl := by
      rintro rfl
      exact hLine List.mem_cons_self
    have hRest : nl ∉ rest := fun hMem => hLine (List.mem_cons_of_mem b hMem)
    have hNext := ih (hBehind.byte hByte) hRest
    have hState : parseByte s b = { s with workbuf := s.workbuf ++ [b] } := if_neg hByte
    rw [hState] at hNext
    simp only [List.append_assoc, List.singleton_append] at hNext
    exact hNext

/- A cut behind the first `f` bytes of the line. -/
theorem behind_cut (hTree : Tree r) (hStill : Still r) (hLine : nl ∉ r.workbuf) {f : Nat}
    (hCut : CutAt (lineState r).workbuf f) :
    Behind r f ((r.workbuf.drop f).foldl parseByte (parsePartial
          { r with workbuf := r.workbuf.take f })) := by
  rcases hCut with ⟨hFar, hIn, hLast⟩
  have hLess : f ≤ r.workbuf.length := by
    have hSize : (lineState r).workbuf.length = r.workbuf.length + 1 := List.length_append
    omega
  have hTake : (lineState r).workbuf.take f = r.workbuf.take f :=
    List.take_append_of_le_length hLess
  rw [hTake] at hLast
  have hSize : (r.workbuf.take f).length = f := by
    rw [List.length_take]
    exact Nat.min_eq_left hLess
  have hBegin : Behind { r with workbuf := r.workbuf.take f } 0
        { r with workbuf := r.workbuf.take f } :=
    ⟨rfl, Or.inl rfl, fun _ => ⟨Alike.refl _, hStill⟩, fun hSome => absurd rfl hSome⟩
  have hBeginTree : Tree { r with workbuf := r.workbuf.take f } :=
    hTree.of_sameLinks (Keeps.of_parts_eq rfl)
  have hPart := hBegin.parsePartial hBeginTree hBeginTree
    (show 1024 < (r.workbuf.take f).length by omega)
  have hAll : partialLength { r with workbuf := r.workbuf.take f } = f := by
    unfold partialLength
    simp only []
    rw [if_neg hLast, hSize]
  rw [hAll, Nat.zero_add] at hPart
  have hDrop : nl ∉ r.workbuf.drop f := fun hMem => hLine (List.mem_of_mem_drop hMem)
  have hRest := behind_bytes hPart hDrop
  simp only [List.take_append_drop] at hRest
  exact hRest

/-
  A rest that is a boundary line closes the innermost part,
  which the whole line lengthens.
-/
theorem cut_rest (hWatched : Watched r fed) (hStill : Still r) (hFew : r.numparts ≤ maxParts)
    (hWhole : ¬ FindsBoundary (lineState r) (lineState r).workbuf) (hOpen : ¬ Shielded r) {f : Nat}
    (hCut : CutAt (lineState r).workbuf f)
    (hFinds : FindsBoundary r ((lineState r).workbuf.drop f)) {t : St} (hBehind : Behind r f t)
    {other : List Byte} (hOther : Watched t other) (after : List Byte) :
    (parsePartial (parse (parseByte t nl) after)).report ≠
      (parsePartial (parse (parseByte r nl) after)).report := by
  have hTree := hWatched.tree
  have hOtherTree := hOther.tree
  have hLineTree := lineState_tree hOtherTree
  have hInner : t.inner = r.inner := by
    unfold St.inner
    rw [hBehind.sameLinks.openPath]
  have hOtherFew : t.numparts ≤ maxParts := by
    rw [hBehind.numparts]
    exact hFew
  have hSize : (lineState r).workbuf.length = r.workbuf.length + 1 := List.length_append
  have hLess : f ≤ r.workbuf.length := by
    have hIn := hCut.2.1
    omega
  have hWork : (lineState t).workbuf = (lineState r).workbuf.drop f := by
    show t.workbuf ++ [nl] = (r.workbuf ++ [nl]).drop f
    rw [hBehind.workbuf, List.drop_append_of_le_length hLess]
  have hStart : (lineState t).start = (lineState t, (lineState t).openPath) :=
    start_eq (lookAhead_unshielded hLineTree (hOther.calm hOtherFew)
      (Or.inl fun hShield => hOpen (hBehind.shielded.mp hShield)))
  have hRest : FindsBoundary (lineState t) (lineState t).workbuf := by
    rw [findsBoundary_lineState, hWork]
    exact (hBehind.findsBoundary _).mpr hFinds
  have hClosed : t.inner ∉ (parseByte t nl).openPath :=
    inner_closed hLineTree hOtherFew hStart hRest
  have hEnd : (t.part r.inner).endpos = (r.part r.inner).endpos + f := by
    have hSome : f ≠ 0 := by
      have hFar := hCut.1
      omega
    exact ((hBehind.ahead hSome).1.endpos r.inner).trans (endpos_flushed hTree f)
  have hCutEnd := endpos_closing hOtherTree hClosed
  rw [hInner] at hClosed hCutEnd
  have hGrown : ((parseByte r nl).part r.inner).endpos =
      (r.part r.inner).endpos + (lineState r).workbuf.length := by
    rcases hWatched.tracked with ⟨here, hPlaced, _⟩
    rcases hTree.openPath_inner with ⟨front, hPath⟩
    have hBefore : Placed (lineState r) here := hPlaced.with_workbuf _
    have hMem : r.inner ∈ (doline (lineState r)).openPath :=
      inner_open (lineState_tree hTree) hFew (hStill.start hTree hFew) hWhole
    have hDone := (doline_placed hBefore hFew).endpos hMem
    rw [hPlaced.endpos (Placed.mem_innermost hPath)]
    exact hDone
  have hIn := inner_lt_length hTree
  have hAlso : r.inner < t.parts.length := by
    rw [hBehind.sameLinks.length]
    exact hIn
  apply report_ne_of_closed (parseByte_tracked hOther.tracked nl)
    (parseByte_tracked hWatched.tracked nl)
    (Nat.lt_of_lt_of_le hAlso (later_parseByte hOther.tracked nl).length)
    (Nat.lt_of_lt_of_le hIn (later_parseByte hWatched.tracked nl).length) hClosed
  rw [hCutEnd, hEnd, hGrown]
  omega

end Cuts

------------
-- Too Many Parts
------------

/-
  Beyond the limit of parts, a line moves no end any more, and
  `t` stays `d` bytes ahead.
-/
structure Shifted (s : St) (d : Nat) (t : St) : Prop where
  tree : Tree s
  links : SameLinks s t
  workbuf : t.workbuf = s.workbuf
  many : maxParts < s.numparts
  also : maxParts < t.numparts
  shift : (t.part s.inner).endpos = (s.part s.inner).endpos + d

theorem newline_samePlaces (hMany : maxParts < s.numparts) : SamePlaces s (parseByte s nl) :=
  Keeps.trans (Keeps.of_parts_eq (t := lineState s) rfl)
    (Keeps.trans (@doline_samePlaces (lineState s) hMany) (Keeps.of_parts_eq rfl))

theorem numparts_newline (hMany : maxParts < s.numparts) : (parseByte s nl).numparts = s.numparts :=
  @numparts_doline (lineState s) hMany

namespace Shifted

variable {s t : St} {d : Nat}

theorem of_samePlaces (hShifted : Shifted s d t) {u v : St} (hLeft : SamePlaces s u)
    (hRight : SamePlaces t v) (hWork : v.workbuf = u.workbuf)
    (hMany : u.numparts = s.numparts) (hAlso : v.numparts = t.numparts) : Shifted u d v := by
  have hInner : u.inner = s.inner := by
    unfold St.inner
    rw [hLeft.toSameLinks.openPath]
  have hEnds : ∀ k, (u.part k).endpos = (s.part k).endpos :=
    fun k => congrArg PartCounts.endpos (hLeft.counts k)
  have hOthers : ∀ k, (v.part k).endpos = (t.part k).endpos :=
    fun k => congrArg PartCounts.endpos (hRight.counts k)
  refine ⟨hShifted.tree.of_sameLinks hLeft.toSameLinks,
    hLeft.toSameLinks.symm.trans (hShifted.links.trans hRight.toSameLinks),
    hWork, hMany ▸ hShifted.many, hAlso ▸ hShifted.also, ?_⟩
  rw [hInner, hEnds, hOthers]
  exact hShifted.shift

theorem byte (hShifted : Shifted s d t) (b : Byte) : Shifted (parseByte s b) d (parseByte t b) := by
  by_cases hByte : b = nl
  · subst hByte
    exact hShifted.of_samePlaces (newline_samePlaces hShifted.many)
      (newline_samePlaces hShifted.also) rfl
      (numparts_newline hShifted.many)
      (numparts_newline hShifted.also)
  · unfold parseByte
    rw [if_neg hByte, if_neg hByte]
    refine hShifted.of_samePlaces (Keeps.of_parts_eq rfl) (Keeps.of_parts_eq rfl) ?_ rfl rfl
    show t.workbuf ++ [b] = s.workbuf ++ [b]
    rw [hShifted.workbuf]

theorem parsePartial (hShifted : Shifted s d t) : Shifted (parsePartial s) d (parsePartial t) := by
  by_cases hWork : s.workbuf = []
  · have hOther : t.workbuf = [] := hShifted.workbuf.trans hWork
    unfold Rfc2045.parsePartial
    rw [if_pos hWork, if_pos hOther]
    exact hShifted
  · have hOther : t.workbuf ≠ [] := by
      rw [hShifted.workbuf]
      exact hWork
    have hSame : partialLength t = partialLength s := by
      unfold partialLength
      rw [hShifted.workbuf]
    have hInner : t.inner = s.inner := by
      unfold St.inner
      rw [hShifted.links.openPath]
    have hStays : (Rfc2045.parsePartial s).inner = s.inner := by
      unfold St.inner
      rw [openPath_parsePartial]
    have hTree := hShifted.tree
    have hOtherTree := hTree.of_sameLinks hShifted.links
    have hLinks : ∀ u, SameLinks u (Rfc2045.parsePartial u) :=
      fun u => Keeps.parsePartial u (fun _ _ => rfl) (fun _ _ => rfl) fun _ _ => rfl
    refine ⟨hTree.of_sameLinks (hLinks s), (hLinks s).symm.trans (hShifted.links.trans (hLinks t)),
      ?_, ?_, ?_, ?_⟩
    · unfold Rfc2045.parsePartial
      rw [if_neg hWork, if_neg hOther]
      show t.workbuf.drop (partialLength t) = _
      rw [hSame, hShifted.workbuf]
    · rw [numparts_parsePartial]
      exact hShifted.many
    · rw [numparts_parsePartial]
      exact hShifted.also
    · have hGrown := endpos_parsePartial hOtherTree hOther
      rw [hInner, hShifted.shift, hSame] at hGrown
      rw [hStays, hGrown, endpos_parsePartial hTree hWork]
      omega

theorem parse (hShifted : Shifted s d t) (buf : List Byte) :
    Shifted (parse s buf) d (parse t buf) := by
  have hBytes : Shifted (buf.foldl parseByte s) d (buf.foldl parseByte t) := by
    induction buf generalizing s t with
    | nil => exact hShifted
    | cons b rest ih => exact ih (hShifted.byte b)
  unfold Rfc2045.parse
  simp only []
  rw [hBytes.workbuf]
  split
  · exact hBytes.parsePartial
  · exact hBytes

theorem report_ne (hShifted : Shifted s d t) (hAhead : d ≠ 0) : s.report ≠ t.report := by
  intro hSame
  have hReport := report_congr hSame (inner_lt_length hShifted.tree)
  have hEnds : (s.part s.inner).endpos = (t.part s.inner).endpos :=
    congrArg (fun r => r.endpos) hReport
  have hShift := hShifted.shift
  omega

end Shifted

/- A long line that comes when there are too many parts. -/
theorem cut_many {r : St} (hTree : Tree r) (hLong : 1024 < r.workbuf.length)
    (hMany : maxParts < r.numparts) (after : List Byte) :
    (parsePartial (parse (parseByte r nl) after)).report ≠
      (parsePartial (parse (parseByte (parsePartial r) nl) after)).report := by
  have hWork : r.workbuf ≠ [] := by
    intro hNil
    rw [hNil] at hLong
    cases hLong
  have hAlso : maxParts < (parsePartial r).numparts := by
    rw [numparts_parsePartial]
    exact hMany
  have hLinks : SameLinks r (parsePartial r) :=
    Keeps.parsePartial r (fun _ _ => rfl) (fun _ _ => rfl) fun _ _ => rfl
  have hLeft := newline_samePlaces hMany
  have hRight := newline_samePlaces hAlso
  have hInner : (parseByte r nl).inner = r.inner := by
    unfold St.inner
    rw [hLeft.toSameLinks.openPath]
  have hShifted : Shifted (parseByte r nl) (partialLength r) (parseByte (parsePartial r) nl) := by
    refine ⟨hTree.of_sameLinks hLeft.toSameLinks,
      hLeft.toSameLinks.symm.trans (hLinks.trans hRight.toSameLinks), rfl,
      (numparts_newline hMany).symm ▸ hMany,
      (numparts_newline hAlso).symm ▸ hAlso, ?_⟩
    have hBefore : ((parseByte r nl).part r.inner).endpos = (r.part r.inner).endpos :=
      congrArg PartCounts.endpos (hLeft.counts _)
    have hAfter : ((parseByte (parsePartial r) nl).part r.inner).endpos =
          ((parsePartial r).part r.inner).endpos :=
      congrArg PartCounts.endpos (hRight.counts _)
    rw [hInner, hBefore, hAfter]
    exact endpos_parsePartial hTree hWork
  exact (hShifted.parse after).parsePartial.report_ne (Nat.ne_of_gt (partialLength_pos hLong))

theorem newParser_workbuf (rewriting inReformime : Bool) :
    (newParser rewriting inReformime).workbuf = [] := by
  cases rewriting <;> rfl

/- The message in one piece. -/
theorem run_whole (rewriting inReformime : Bool) (front after : List Byte) :
    (mimeParser rewriting inReformime).run [front ++ nl :: after] =
      (parsePartial
        (parse
          (parseByte
            (front.foldl parseByte (newParser rewriting inReformime)) nl)
          after)).report := by
  rw [← parse_line]
  rfl

/- The message with a cut inside or behind a line. -/
theorem run_cut (rewriting inReformime : Bool) (front rest after : List Byte) :
    (mimeParser rewriting inReformime).run [front, rest ++ nl :: after] =
      (parsePartial
        (parse
          (parseByte
            (rest.foldl parseByte (parse (newParser rewriting inReformime) front))
            nl)
          after)).report := by
  rw [← parse_line]
  rfl

theorem parse_partial {buf : List Byte} (hLong : 1024 < (buf.foldl parseByte s).workbuf.length) :
    parse s buf = parsePartial (buf.foldl parseByte s) := by
  unfold parse
  exact if_pos hLong

variable {msg : List Byte}

/- A long line that is not safe makes the pieces matter. -/
theorem cut_unsafe (rewriting inReformime : Bool) (hSame :
      ∀ pieces others, pieces.flatten = msg → others.flatten = msg →
          (mimeParser rewriting inReformime).run pieces =
            (mimeParser rewriting inReformime).run others) :
    SafeLines (newParser rewriting inReformime) msg := by
  rintro t ⟨front, after, rfl, rfl⟩ hLong
  have hRef := reference rewriting inReformime front
  rcases parseBytes_line (newParser_workbuf rewriting inReformime) front with
    ⟨done, hFront, hLine, hDone, hState⟩
  have hWhole := run_whole rewriting inReformime front after
  generalize hNow : front.foldl parseByte (newParser rewriting inReformime) = r at *
  have hWatched := hNow ▸ hRef.watched
  have hStill := hNow ▸ hRef.still
  have hTree := hWatched.tree
  have hFar : 1024 < r.workbuf.length := by
    have hSize : (lineState r).workbuf.length = r.workbuf.length + 1 := List.length_append
    omega
  have hEnd : (mimeParser rewriting inReformime).run [front, nl :: after] =
        (parsePartial
          (parse (parseByte (parsePartial r) nl) after)).report := by
    have hFirst : parse (newParser rewriting inReformime) front = parsePartial r := by
      rw [← hNow] at hFar ⊢
      exact parse_partial hFar
    have hCut := run_cut rewriting inReformime front [] after
    rw [hFirst] at hCut
    exact hCut
  have hBehind := hSame [front ++ nl :: after] [front, nl :: after] (by simp) (by simp)
  rw [hWhole, hEnd] at hBehind
  have hFew : r.numparts ≤ maxParts := by
    by_contra hMany
    exact cut_many hTree hFar (Nat.lt_of_not_le hMany) after hBehind
  have hNone : ¬ FindsBoundary (lineState r) (lineState r).workbuf := by
    intro hFinds
    exact cut_boundary hWatched hStill hFar hFew hFinds after hBehind
  refine ⟨hFew, hNone, ?_⟩
  by_cases hShield : Shielded r
  · exact Or.inl hShield
  · right
    intro f hCut hFinds
    have hBegin : parse (newParser rewriting inReformime) (done ++ r.workbuf.take f) =
          parsePartial { r with workbuf := r.workbuf.take f } := by
      have hSize : f ≤ r.workbuf.length := by
        have hIn := hCut.2.1
        have hMore : (lineState r).workbuf.length = r.workbuf.length + 1 := List.length_append
        omega
      have hTake : 1024 < (r.workbuf.take f).length := by
        rw [List.length_take, Nat.min_eq_left hSize]
        exact hCut.1
      rw [parse_long hDone (fun hMem => hLine (List.mem_of_mem_take hMem)) hTake, hState]
    have hCall := watched_kept.call [] (newParser_watched rewriting inReformime)
      (.parse (done ++ r.workbuf.take f))
    have hOther := watched_kept.bytes _ hCall (r.workbuf.drop f)
    have hFlat :
        [done ++ r.workbuf.take f, r.workbuf.drop f ++ nl :: after].flatten =
          front ++ nl :: after := by
      rw [hFront]
      simp only [List.flatten_cons, List.flatten_nil, List.append_nil, List.append_assoc]
      rw [← List.append_assoc (r.workbuf.take f), List.take_append_drop]
    have hRest := run_cut rewriting inReformime (done ++ r.workbuf.take f) (r.workbuf.drop f) after
    rw [hBegin] at hRest
    have hPieces := hSame _ [front ++ nl :: after] hFlat (by simp)
    rw [hRest, hWhole] at hPieces
    have hWatch : ∃ other, Watched ((r.workbuf.drop f).foldl parseByte (parsePartial
            { r with workbuf := r.workbuf.take f })) other := by
      rw [← hBegin]
      exact ⟨_, hOther⟩
    rcases hWatch with ⟨other, hOtherCut⟩
    exact cut_rest hWatched hStill hFew hNone hShield hCut ((findsBoundary_lineState r _).mp hFinds)
      (behind_cut hTree hStill hLine hCut) hOtherCut after
      hPieces

------------
-- Cuts In Front Of Every Newline
------------

/-
  A run that is at the place of the reference run, and in
  which only short lines have raised the flag.
-/
structure Lined (s : St) (fed : List Byte) (t : St) : Prop where
  behind : Behind (fed.foldl parseByte s) 0 t
  watched : Watched t fed
  closed : Closed t
  raised : ∀ k, Flagged t k → ∃ u, LineCall s fed u ∧ u.workbuf.length ≤ 1025 ∧
        Raises u ∧ k ∈ u.openPath

/- What a long line leaves for its newline is no text. -/
theorem not_raises_rest (hLong : 1024 < t.workbuf.length) :
    ¬ Raises (lineState (parsePartial t)) := by
  rintro ⟨_, h8bit, _⟩
  have hWork : t.workbuf ≠ [] := by
    intro hNil
    rw [hNil] at hLong
    cases hLong
  have hRest : (lineState (parsePartial t)).workbuf = t.workbuf.drop (partialLength t) ++ [nl] := by
    unfold parsePartial
    rw [if_neg hWork]
    rfl
  rw [hRest] at h8bit
  unfold partialLength at h8bit
  by_cases hCr : t.workbuf.getLast? = some cr
  · rw [if_pos hCr] at h8bit
    rcases List.getLast?_eq_some_iff.mp hCr with ⟨ys, hLine⟩
    rw [hLine, List.length_append, List.length_singleton,
      Nat.add_sub_cancel, List.drop_left] at h8bit
    exact absurd h8bit (by decide)
  · rw [if_neg hCr, List.drop_length] at h8bit
    exact absurd h8bit (by decide)

namespace Lined

variable {s t : St} {fed : List Byte}

theorem byte (hLined : Lined s fed t) {b : Byte} (hByte : b ≠ nl) :
    Lined s (fed ++ [b]) (parseByte t b) := by
  refine ⟨?_, parseByte_watched hLined.watched b,
    parseByte_closed hLined.watched.tree hLined.closed b, ?_⟩
  · rw [List.foldl_concat]
    exact hLined.behind.byte hByte
  · intro k hFlag
    rw [flagged_byte t hByte] at hFlag
    rcases hLined.raised k hFlag with ⟨u, hLine, hRest⟩
    exact ⟨u, hLine.append [b], hRest⟩

/- A cut, and the newline after it. -/
theorem newline (hLined : Lined s fed t) (hRef : Reference s fed)
    (hHeaders : ShortHeaders s (fed ++ [nl])) (hLines : SafeLines s (fed ++ [nl])) :
    Lined s (fed ++ [nl]) (parseByte (if 1024 < t.workbuf.length then
          parsePartial t
        else
          t) nl) := by
  have hTree := hRef.watched.tree
  have hHere := LineCall.newline s fed []
  have hWork : t.workbuf = (fed.foldl parseByte s).workbuf := by
    rw [hLined.behind.workbuf, List.drop_zero]
  split
  · rename_i hLong
    have hBehind := hLined.behind.parsePartial hTree hLined.watched.tree hLong
    have hWatched := parsePartial_watched hLined.watched
    have hClosed := closed_parsePartial hLined.closed
    refine ⟨?_, parseByte_watched hWatched nl, parseByte_closed hWatched.tree hClosed nl, ?_⟩
    · rw [List.foldl_concat]
      exact behind_newline hBehind hTree hRef.still hWatched.tree hWatched.calm (hHeaders _ hHere)
        (hLines _ hHere)
    · intro k hFlag
      rw [flagged_newline hWatched.tree hClosed, flagged_parsePartial] at hFlag
      rcases hFlag with hOld | ⟨hRaises, _⟩
      · rcases hLined.raised k hOld with ⟨u, hLine, hRest⟩
        exact ⟨u, hLine.append [nl], hRest⟩
      · exact absurd hRaises (not_raises_rest hLong)
  · rename_i hShort
    refine ⟨?_, parseByte_watched hLined.watched nl,
      parseByte_closed hLined.watched.tree hLined.closed nl,
      ?_⟩
    · rw [List.foldl_concat]
      exact behind_newline hLined.behind hTree hRef.still hLined.watched.tree hLined.watched.calm
        (hHeaders _ hHere) (hLines _ hHere)
    · intro k hFlag
      rw [flagged_newline hLined.watched.tree hLined.closed] at hFlag
      rcases hFlag with hOld | ⟨hRaises, hMem⟩
      · rcases hLined.raised k hOld with ⟨u, hLine, hRest⟩
        exact ⟨u, hLine.append [nl], hRest⟩
      · rw [hLined.behind.sameLinks.openPath] at hMem
        have hSize : (lineState (fed.foldl parseByte s)).workbuf.length =
              (fed.foldl parseByte s).workbuf.length + 1 :=
          List.length_append
        refine ⟨_, hHere, ?_, raises_of_behind hLined.behind hTree hRef.still hLined.watched.tree
          hLined.watched.calm (hLines _ hHere) hRaises, hMem⟩
        rw [hWork] at hShort
        omega

end Lined

/- There is such a run for every message. -/
theorem exists_lined (rewriting inReformime : Bool)
    (hReadable : Readable (newParser rewriting inReformime) msg) :
    ∃ pieces last, pieces.flatten ++ last = msg ∧
      Lined (newParser rewriting inReformime) msg (last.foldl parseByte
          ((mimeParser rewriting inReformime).feedAll pieces)) := by
  induction msg using List.reverseRecOn with
  | nil =>
    have hRef := newParser_reference rewriting inReformime
    refine ⟨[], [], rfl, ?_, hRef.watched, hRef.closed, ?_⟩
    · exact ⟨rfl, Or.inl rfl, fun _ => ⟨Alike.refl _, hRef.still⟩, fun hSome => absurd rfl hSome⟩
    · intro k hFlag
      exact absurd hFlag (newParser_not_flagged rewriting inReformime k)
  | append_singleton fed b ih =>
    rcases ih hReadable.beginning with ⟨pieces, last, hFlat, hLined⟩
    by_cases hByte : b = nl
    · subst hByte
      refine ⟨pieces ++ [last], [nl], ?_, ?_⟩
      · rw [List.flatten_append, List.flatten_singleton, hFlat]
      · have hNext := hLined.newline (reference rewriting inReformime fed) hReadable.1 hReadable.2
        rw [Transducer.feedAll_append_singleton]
        exact hNext
    · refine ⟨pieces, last ++ [b], ?_, ?_⟩
      · rw [← List.append_assoc, hFlat]
      · rw [List.foldl_concat]
        exact hLined.byte hByte

/- A flag that a line has raised stays. -/
theorem LineCall.flagged {rewriting inReformime : Bool} (hLine :
      LineCall (newParser rewriting inReformime) msg t) (hRaises : Raises t) {k : Nat}
    (hMem : k ∈ t.openPath) :
    Flagged (msg.foldl parseByte (newParser rewriting inReformime))
      k := by
  rcases hLine with ⟨front, after, rfl, rfl⟩
  induction after using List.reverseRecOn with
  | nil =>
    have hRef := reference rewriting inReformime front
    rw [List.foldl_concat, flagged_newline hRef.watched.tree hRef.closed]
    exact Or.inr ⟨hRaises, hMem⟩
  | append_singleton after b ih =>
    have hRef := reference rewriting inReformime (front ++ nl :: after)
    rw [← List.cons_append, ← List.append_assoc, List.foldl_concat]
    by_cases hByte : b = nl
    · subst hByte
      rw [flagged_newline hRef.watched.tree hRef.closed]
      exact Or.inl ih
    · rw [flagged_byte _ hByte]
      exact ih

theorem flagged_parse (s : St) (buf : List Byte) (k : Nat) :
    Flagged (parse s buf) k ↔ Flagged (buf.foldl parseByte s) k := by
  unfold parse
  simp only []
  split
  · exact flagged_parsePartial _ k
  · exact Iff.rfl

/-
  The tree of a message with short header lines is the same
  for all ways of cutting it into pieces, if and only if its
  long lines are safe and raise no flag of their own.
-/
theorem parse_chunking (rewriting inReformime : Bool) (msg : List Byte)
    (hHeaders : ShortHeaders (newParser rewriting inReformime) msg) :
    (∀ pieces others,
        pieces.flatten = msg → others.flatten = msg →
          (mimeParser rewriting inReformime).run pieces =
            (mimeParser rewriting inReformime).run others) ↔
      ChunkSafe (newParser rewriting inReformime) msg := by
  constructor
  · intro hSame
    have hLines := cut_unsafe rewriting inReformime hSame
    refine ⟨hLines, ?_⟩
    intro t hLine _hLong hRaises
    rcases exists_lined rewriting inReformime ⟨hHeaders, hLines⟩ with ⟨pieces, last, hFlat, hLined⟩
    have hMem : t.inner ∈ t.openPath := by
      have hTree := (reference rewriting inReformime msg).lines t hLine
      rcases hTree.openPath_inner with ⟨front, hPath⟩
      rw [hPath]
      exact List.mem_append_right _ List.mem_cons_self
    have hFlag := hLine.flagged hRaises hMem
    have hPieces := hSame [msg] (pieces ++ [last]) (by simp) (by
      rw [List.flatten_append, List.flatten_singleton]
      exact hFlat)
    have hWhole : Flagged (parsePartial (parse (newParser rewriting inReformime) msg))
          t.inner :=
      (flagged_parsePartial _ _).mpr
        ((flagged_parse _ _ _).mpr hFlag)
    have hReport := report_congr (s := parsePartial (parse (newParser rewriting inReformime) msg))
      (t := parsePartial
        (parse ((mimeParser rewriting inReformime).feedAll
          pieces) last)) (by
      unfold Transducer.run at hPieces
      rw [Transducer.feedAll_append_singleton] at hPieces
      exact hPieces) hWhole.lt_length
    have hOther : Flagged (parsePartial (parse ((mimeParser rewriting inReformime).feedAll
            pieces) last)) t.inner := by
      have hBits := congrArg (fun r => r.rfcviolation.err8bitcontent) hReport
      exact hBits.symm.trans hWhole
    rw [flagged_parsePartial, flagged_parse] at hOther
    rcases hLined.raised t.inner hOther with ⟨u, hShort, hFew, hAlso, hIn⟩
    exact ⟨u, hShort, hFew, hAlso, hIn⟩
  · intro hSafe pieces others hFlat hOther
    subst hFlat
    rw [run_eq_of_chunkSafe rewriting inReformime pieces hHeaders hSafe,
      run_eq_of_chunkSafe rewriting inReformime others (hOther ▸ hHeaders) (hOther ▸ hSafe), hOther]

/- A line is not longer than the message. -/
theorem LineCall.length_le {rewriting inReformime : Bool}
    (hLine : LineCall (newParser rewriting inReformime) msg t) :
    t.workbuf.length ≤ msg.length := by
  rcases hLine with ⟨front, after, rfl, rfl⟩
  rcases parseBytes_line (newParser_workbuf rewriting inReformime) front with ⟨done, hFront, _⟩
  have hSize := congrArg List.length hFront
  rw [List.length_append] at hSize
  show (_ ++ [nl]).length ≤ (front ++ nl :: after).length
  rw [List.length_append, List.length_append, List.length_singleton, List.length_cons]
  omega

/- Short messages have nothing but short lines. -/
theorem shortHeaders_of_length (rewriting inReformime : Bool) (hShort : msg.length ≤ 1024) :
    ShortHeaders (newParser rewriting inReformime) msg :=
  fun _ hLine _ => Nat.le_trans hLine.length_le hShort

theorem chunkSafe_of_length (rewriting inReformime : Bool) (hShort : msg.length ≤ 1024) :
    ChunkSafe (newParser rewriting inReformime) msg := by
  have hNone : ∀ t, LineCall (newParser rewriting inReformime) msg t →
        ¬ 1025 < t.workbuf.length := by
    intro t hLine hLong
    have hLess := hLine.length_le
    omega
  constructor
  · intro t hLine hLong
    exact absurd hLong (hNone t hLine)
  · intro t hLine hLong
    exact absurd hLong (hNone t hLine)

theorem parse_chunking_short : ShortHeaders (newParser false false) (bytes "Subject: a\n\nb\n") ∧
      (mimeParser false false).run
          [bytes "Subject: a\n\nb\n"] =
        (mimeParser false false).run
          [bytes "Subject", bytes ": a\n\nb", bytes "\n"] := by
  have hShort : (bytes "Subject: a\n\nb\n").length ≤ 1024 := by decide
  have hHeaders := shortHeaders_of_length false false hShort
  refine ⟨hHeaders, ?_⟩
  apply (parse_chunking false false _ hHeaders).mpr (chunkSafe_of_length false false hShort)
  all_goals decide

/- A long eight-bit line, after an empty header. -/
def eightBitLine : List Byte :=
  233 :: List.replicate 1100 (chr 'a')

/- The only newline of a message is at its end. -/
theorem last_newline {line front after : List Byte} (hLine : nl ∉ line)
    (hMsg : line ++ [nl] = front ++ nl :: after) : front = line := by
  rcases List.append_eq_append_iff.mp hMsg with ⟨more, hFront, hEnd⟩ | ⟨more, hFront, hEnd⟩
  · cases more with
    | nil => rw [hFront, List.append_nil]
    | cons b rest =>
      rw [List.cons_append] at hEnd
      injection hEnd with _ hRest
      exact absurd (congrArg List.length hRest) (by simp)
  · cases more with
    | nil => rw [hFront, List.append_nil]
    | cons b rest =>
      injection hEnd with hByte _
      rw [hFront, ← hByte] at hLine
      exact absurd (List.mem_append_right _ List.mem_cons_self) hLine

set_option maxRecDepth 8000 in
theorem eightBitLine_shortHeaders : ShortHeaders (newParser false false)
      (nl :: eightBitLine ++ [nl]) := by
  have hLine : nl ∉ eightBitLine := by
    unfold eightBitLine
    rw [List.mem_cons, List.mem_replicate]
    decide
  rintro t ⟨front, after, hMsg, rfl⟩ ⟨p, hPlace, hHeader⟩
  cases front with
  | nil => decide
  | cons b rest =>
    injection hMsg with hFirst hRest
    have hSame := last_newline hLine hRest
    have hHere : locate (lineState ((nl :: eightBitLine).foldl parseByte (newParser false false)))
            (cleanLine (lineState
              ((nl :: eightBitLine).foldl parseByte (newParser false false))).workbuf)
            (lineState ((nl :: eightBitLine).foldl parseByte (newParser false false))).openPath =
          .section 0 ∧
        ((lineState ((nl :: eightBitLine).foldl parseByte
          (newParser false false))).part 0).workinheader = false := by
      decide
    rw [← hFirst, hSame, hHere.1] at hPlace
    cases hPlace
    rw [← hFirst, hSame, hHere.2] at hHeader
    cases hHeader

/-
  The flag for eight-bit contents is not raised when the line
  is cut in front of its newline.
-/
set_option maxRecDepth 8000 in
theorem parse_eightBitLine : ¬ ∀ msg, ShortHeaders (newParser false false) msg → ∀ pieces others,
        pieces.flatten = msg → others.flatten = msg → (mimeParser false false).run pieces =
            (mimeParser false false).run others := by
  intro hAll
  have hSame := hAll _ eightBitLine_shortHeaders
    [nl :: eightBitLine ++ [nl]] [nl :: eightBitLine, [nl]]
    (by simp) (by simp)
  revert hSame
  decide +kernel

end Wmail.Rfc2045
