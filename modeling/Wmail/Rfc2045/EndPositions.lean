import Wmail.Rfc2045.ContentFlag

/-
  Where parts end, in the course of a run.

  A part that is closed stays closed and keeps its end, and an
  open part never ends earlier than before.

  Key theorems include:
    * `later_parseByte`
    * `later_parse`
-/

------------
-- One Line
------------

namespace Wmail.Rfc2045

open Links

variable {s : St} {p : Nat} {k : Nat}

/- Counting does not move the end of any other part. -/
theorem endpos_updateCounts_of_not_mem (hTree : Tree s) {front back : List Nat}
    (hPath : s.openPath = front ++ p :: back) (hNot : k ∉ front ++ [p])
    (newcnt newendcnt nlines : Nat) :
    ((updateCounts s p newcnt newendcnt nlines).part k).endpos = (s.part k).endpos := by
  unfold updateCounts
  rw [hTree.part_setUpward hPath, if_neg hNot]

theorem endpos_append (hLess : p < s.parts.length) (startpos : Nat) (hOld : k < s.parts.length) :
    ((appendPartNoinherit s p startpos).part k).endpos = (s.part k).endpos := by
  rw [part_appendPartNoinherit hLess, if_neg (Nat.ne_of_lt hOld)]
  split <;> rfl

theorem endpos_dolineBoundary (hTree : Tree s) {front back : List Nat} {p last : Nat}
    (hPath : s.openPath = front ++ p :: last :: back) (c : List Byte) (final : Bool)
    (hOld : k < s.parts.length) (hNot : k ∉ front ++ [p]) :
    ((dolineBoundary s c p last final).part k).endpos = (s.part k).endpos := by
  have hLess : p < s.parts.length := by
    apply hTree.openPath_lt
    rw [hPath]
    exact List.mem_append_right _ List.mem_cons_self
  unfold dolineBoundary
  cases final with
  | true =>
    have hClose : Keeps (fun q => q.endpos) s (s.setPart last fun q =>
          { q with workclosed := true }) :=
      Keeps.setPart s last fun _ => rfl
    have hTreeClosed := hTree.close last
    rw [if_pos rfl]
    exact (endpos_updateCounts_of_not_mem hTreeClosed (hTree.openPath_close hPath) hNot _ _ _).trans
        (hClose.same k)
  | false =>
    have hInherit : SameLinks (appendPartNoinherit s p ((s.part p).endpos + c.length))
        (appendPart s p ((s.part p).endpos + c.length)) :=
      Keeps.setPart _ _ fun _ => rfl
    have hEnds : Keeps (fun q => q.endpos) (appendPartNoinherit s p ((s.part p).endpos + c.length))
        (appendPart s p ((s.part p).endpos + c.length)) :=
      Keeps.setPart _ _ fun _ => rfl
    have hVersion : Keeps (fun q => q.endpos) (updateCounts
          (appendPart s p ((s.part p).endpos + c.length)) p
          ((s.part p).endpos + c.length)
          ((s.part p).endpos + lineLength c) 1)
        ((updateCounts
          (appendPart s p ((s.part p).endpos + c.length)) p
          ((s.part p).endpos + c.length)
          ((s.part p).endpos + lineLength c) 1).setPart
            s.parts.length fun newp =>
              { newp with
                  mimeVersion := (s.part p).mimeVersion }) :=
      Keeps.setPart _ _ fun _ => rfl
    have hTreeNew := (hTree.append hLess _).of_sameLinks hInherit
    have hPathNew := hInherit.openPath.trans (hTree.openPath_append hPath _)
    rw [if_neg Bool.false_ne_true]
    exact (hVersion.same k).trans ((endpos_updateCounts_of_not_mem hTreeNew hPathNew hNot
        _ _ _).trans ((hEnds.same k).trans (endpos_append hLess _ hOld)))

theorem endpos_startBody (hTree : Tree s) {front : List Nat}
    (hPath : s.openPath = front ++ [p]) (c : List Byte) (hNot : k ∉ front ++ [p]) :
    ((startBody s c p).part k).endpos = (s.part k).endpos := by
  have hBegun : SameLinks s (s.setPart p fun q =>
          { q with
              workinheader := false
              startbody := (s.part p).endpos + c.length }) :=
    Keeps.setPart s p fun _ => rfl
  have hEnds : Keeps (fun q => q.endpos) s (s.setPart p fun q =>
        { q with
            workinheader := false
            startbody := (s.part p).endpos + c.length }) :=
    Keeps.setPart s p fun _ => rfl
  have hCounted := endpos_updateCounts_of_not_mem
    (hTree.of_sameLinks hBegun) (hBegun.openPath.trans hPath)
    hNot ((s.part p).endpos + c.length)
    ((s.part p).endpos + c.length) 1
  unfold startBody
  simp only []
  refine Eq.trans ?_ (hCounted.trans (hEnds.same k))
  rw [St.part_setPart]
  split <;> rfl

theorem endpos_enterBody (hLess : p < s.parts.length) (hOld : k < s.parts.length) :
    ((enterBody s p).part k).endpos = (s.part k).endpos := by
  have hAppend := endpos_append hLess (s.part p).startbody hOld
  unfold enterBody
  split
  · exact hAppend
  · split
    · have hDummy : Keeps (fun q => q.endpos) (appendPartNoinherit s p (s.part p).startbody)
          ((appendPart s p (s.part p).startbody).setPart
            s.parts.length fun newp =>
              { newp with
                  workinheader := false, isdummy := true }) := by
        refine Keeps.trans (Keeps.setPart _ _ ?_) (Keeps.setPart _ _ ?_)
        all_goals exact fun _ => rfl
      exact (hDummy.same k).trans hAppend
    · exact (Keeps.startSection (v := fun q => q.endpos) s p).same k

theorem endpos_dolineSection (hTree : Tree s) {front : List Nat}
    (hPath : s.openPath = front ++ [p]) (c : List Byte) (bit8 : Bool)
    (hOld : k < s.parts.length) (hNot : k ∉ front ++ [p]) :
    ((dolineSection s c bit8 p).part k).endpos = (s.part k).endpos := by
  have hLess : p < s.parts.length := by
    apply hTree.openPath_lt
    rw [hPath]
    exact List.mem_append_right _ List.mem_cons_self
  have hFlagLinks : SameLinks s (flagHeader s bit8 p) := Keeps.flagHeader s bit8 p fun _ _ => rfl
  have hFlag : Keeps (fun q => q.endpos) s (flagHeader s bit8 p) :=
    Keeps.flagHeader s bit8 p fun _ _ => rfl
  unfold dolineSection
  split
  · split
    · have hParsedLinks : SameLinks s (dolineDoHeader (flagHeader s bit8 p) p) :=
        hFlagLinks.trans (Keeps.dolineDoHeader _ p (fun _ _ => rfl) fun _ _ => rfl)
      have hParsed : Keeps (fun q => q.endpos) s (dolineDoHeader (flagHeader s bit8 p) p) :=
        hFlag.trans (Keeps.dolineDoHeader _ p (fun _ _ => rfl) fun _ _ => rfl)
      have hBody := endpos_startBody (hTree.of_sameLinks hParsedLinks)
        (hParsedLinks.openPath.trans hPath) c hNot
      have hLength := (links_headerEnd s c bit8 p).length
      exact (endpos_enterBody (hLength ▸ hLess) (hLength ▸ hOld)).trans
          (hBody.trans (hParsed.same k))
    · have hCollect := Keeps.collectHeader (v := fun q => q.endpos)
        (updateCounts (flagHeader s bit8 p) p
          (((flagHeader s bit8 p).part p).endpos + c.length)
          (((flagHeader s bit8 p).part p).endpos + lineLength c)
          1) c p
        (fun _ _ => rfl) (fun _ _ => rfl) fun _ _ => rfl
      exact (hCollect.same k).trans ((endpos_updateCounts_of_not_mem (hTree.of_sameLinks hFlagLinks)
          (hFlagLinks.openPath.trans hPath) hNot _ _ _).trans (hFlag.same k))
  · have hScanLinks : SameLinks s (scanBody (flagContent s bit8 p) c p) :=
      (Keeps.flagContent s bit8 p fun _ _ => rfl).trans (Keeps.scanBody _ c p fun _ _ => rfl)
    have hScan : Keeps (fun q => q.endpos) s (scanBody (flagContent s bit8 p) c p) :=
      (Keeps.flagContent s bit8 p fun _ _ => rfl).trans (Keeps.scanBody _ c p fun _ _ => rfl)
    exact (endpos_updateCounts_of_not_mem (hTree.of_sameLinks hScanLinks)
      (hScanLinks.openPath.trans hPath) hNot _ _ _).trans (hScan.same k)

/- Only the parts that stay open get another end. -/
theorem endpos_dolineAt {c : List Byte} {place : Place} (hTree : Tree s)
    (hFound : Found s c s.openPath place) (bit8 : Bool) (hOld : k < s.parts.length)
    (hNot : k ∉ (dolineAt s c bit8 place).openPath) :
    ((dolineAt s c bit8 place).part k).endpos = (s.part k).endpos := by
  cases place with
  | leftover p =>
    rcases hFound with ⟨⟨front, hPath⟩, _⟩
    have hSame := (links_dolineLeftover s c p).openPath
    apply endpos_updateCounts_of_not_mem hTree hPath
    rw [← hPath, ← hSame]
    exact hNot
  | boundary p last final =>
    rcases hFound with ⟨⟨front, back, hPath⟩, _⟩
    apply endpos_dolineBoundary hTree hPath c final hOld
    intro hMem
    apply hNot
    show k ∈ (dolineBoundary s c p last final).openPath
    rw [openPath_dolineBoundary hTree hPath c final]
    split
    · exact hMem
    · rw [List.append_cons]
      exact List.mem_append_left _ hMem
  | «section» p =>
    rcases hFound with ⟨⟨front, hPath⟩, _⟩
    apply endpos_dolineSection hTree hPath c bit8 hOld
    intro hMem
    apply hNot
    show k ∈ (dolineSection s c bit8 p).openPath
    rcases dolineSection_openPath hTree hPath c bit8 with hSame | hMore
    · rw [hSame, hPath]
      exact hMem
    · rw [hMore, hPath]
      exact List.mem_append_left _ hMem

/- A line leaves the places that end with it. -/
theorem endpos_doline {t : St} (hTree : Tree t) {k : Nat} (hOld : k < t.parts.length)
    (hNot : k ∉ (doline t).openPath) : ((doline t).part k).endpos = (t.part k).endpos := by
  have hStart : SameLinks t t.start.1 := Keeps.start t fun _ _ => rfl
  have hEnds : Keeps (fun q => q.endpos) t t.start.1 := Keeps.start t fun _ _ => rfl
  by_cases hMany : maxParts < t.numparts
  · exact congrArg PartCounts.endpos ((doline_samePlaces hMany).counts k)
  · unfold doline at hNot ⊢
    rw [if_neg hMany] at hNot ⊢
    exact (endpos_dolineAt (hTree.of_sameLinks hStart) (hTree.found (cleanLine t.workbuf)) _
      (hStart.length ▸ hOld) hNot).trans (hEnds.same k)

/- A line closes some open parts and opens a new one at most. -/
theorem mem_openPath_doline {t : St} (hTree : Tree t) (hMem : k ∈ (doline t).openPath) :
    k ∈ t.openPath ∨ t.parts.length ≤ k := by
  have hStart : SameLinks t t.start.1 := Keeps.start t fun _ _ => rfl
  by_cases hMany : maxParts < t.numparts
  · left
    rw [(doline_samePlaces hMany).toSameLinks.openPath] at hMem
    exact hMem
  · unfold doline at hMem
    rw [if_neg hMany] at hMem
    rw [← hStart.openPath, ← hStart.length]
    exact mem_openPath_dolineAt (hTree.of_sameLinks hStart)
      (hTree.found (cleanLine t.workbuf)) _ hMem

/-
  `t` comes after `s`: closed parts stay closed and keep
  their ends, and no part ends earlier.
-/
structure Later (s t : St) : Prop where
  length : s.parts.length ≤ t.parts.length
  closed : ∀ k, k < s.parts.length → k ∉ s.openPath →
      k ∉ t.openPath ∧ (t.part k).endpos = (s.part k).endpos
  endpos : ∀ k, k < s.parts.length → (s.part k).endpos ≤ (t.part k).endpos

theorem Later.refl (s : St) : Later s s :=
  ⟨Nat.le_refl _, fun _ _ hNot => ⟨hNot, rfl⟩, fun _ _ => Nat.le_refl _⟩

theorem Later.trans {s t u : St} (hFirst : Later s t) (hSecond : Later t u) : Later s u := by
  have hIn : ∀ {k}, k < s.parts.length → k < t.parts.length :=
    fun hOld => Nat.lt_of_lt_of_le hOld hFirst.length
  constructor
  · exact Nat.le_trans hFirst.length hSecond.length
  · intro k hOld hNot
    rcases hFirst.closed k hOld hNot with ⟨hMid, hEnd⟩
    rcases hSecond.closed k (hIn hOld) hMid with ⟨hStill, hLast⟩
    exact ⟨hStill, hLast.trans hEnd⟩
  · intro k hOld
    exact Nat.le_trans (hFirst.endpos k hOld) (hSecond.endpos k (hIn hOld))

/- Only the open parts get another end, which is not earlier. -/
theorem Later.of_placed {s t : St} {here there : Nat} (hPlaced : Placed s here)
    (hAfter : Placed t there) (hLess : here ≤ there) (hLength : s.parts.length ≤ t.parts.length)
    (hOpen : ∀ k, k ∈ t.openPath → k ∈ s.openPath ∨ s.parts.length ≤ k)
    (hEnd : ∀ k, k < s.parts.length → k ∉ t.openPath → (t.part k).endpos = (s.part k).endpos) :
    Later s t := by
  refine ⟨hLength, ?_, ?_⟩
  · intro k hOld hNot
    have hClosed : k ∉ t.openPath := by
      intro hMem
      rcases hOpen k hMem with hIn | hNew
      · exact hNot hIn
      · exact Nat.not_le.mpr hOld hNew
    exact ⟨hClosed, hEnd k hOld hClosed⟩
  · intro k hOld
    by_cases hMem : k ∈ t.openPath
    · rcases hOpen k hMem with hIn | hNew
      · rw [hPlaced.endpos hIn, hAfter.endpos hMem]
        exact hLess
      · exact absurd hNew (Nat.not_le.mpr hOld)
    · exact Nat.le_of_eq (hEnd k hOld hMem).symm

/- A line does not take parts away. -/
theorem length_doline {t : St} (hTree : Tree t) (hAfter : Tree (doline t)) :
    t.parts.length ≤ (doline t).parts.length := by
  by_contra hShort
  have hRoot := hAfter.root_lt
  have hOld : t.parts.length - 1 < t.parts.length := by omega
  have hParent := parent_doline hTree hOld
  rw [St.part_of_length_le (s := doline t) (by omega)] at hParent
  have hZero := hTree.orphan _ hOld hParent.symm
  omega

variable {fed : Nat}

theorem later_parseByte (hTracked : Tracked s fed) (b : Byte) : Later s (parseByte s b) := by
  rcases hTracked with ⟨here, hPlaced, _⟩
  by_cases hByte : b = nl
  · subst hByte
    have hBefore : Placed (lineState s) here := hPlaced.with_workbuf _
    have hTree := hBefore.tree
    have hOpen : ∀ k, k ∈ (doline (lineState s)).openPath → k ∈ s.openPath ∨ s.parts.length ≤ k :=
      fun _ => mem_openPath_doline hTree
    have hEnd : ∀ k, k < s.parts.length → k ∉ (doline (lineState s)).openPath →
            ((doline (lineState s)).part k).endpos = (s.part k).endpos :=
      fun _ => endpos_doline hTree
    have hAfter : ∃ there, here ≤ there ∧ Placed (doline (lineState s)) there := by
      by_cases hFew : (lineState s).numparts ≤ maxParts
      · exact ⟨_, Nat.le_add_right _ _, doline_placed hBefore hFew⟩
      · exact ⟨here, Nat.le_refl _, hBefore.of_samePlaces
          (doline_samePlaces (Nat.lt_of_not_le hFew))⟩
    rcases hAfter with ⟨there, hLess, hDone⟩
    exact Later.of_placed hPlaced (hDone.with_workbuf [])
      hLess (length_doline hTree hDone.tree) hOpen hEnd
  · have hSame : (parseByte s b).parts = s.parts := by
      unfold parseByte
      rw [if_neg hByte]
    have hPlaces : SamePlaces s (parseByte s b) := Keeps.of_parts_eq hSame
    refine Later.of_placed hPlaced (hPlaced.of_samePlaces hPlaces) (Nat.le_refl _)
      (Nat.le_of_eq hPlaces.length.symm) ?_ ?_
    · intro k hMem
      rw [hPlaces.toSameLinks.openPath] at hMem
      exact Or.inl hMem
    · intro k _ _
      exact congrArg PartCounts.endpos (hPlaces.counts k)

/- Processing in part only moves the ends of open parts. -/
theorem later_parsePartial (hTracked : Tracked s fed) : Later s (parsePartial s) := by
  by_cases hWork : s.workbuf = []
  · have hSame : parsePartial s = s := by
      unfold parsePartial
      rw [if_pos hWork]
    rw [hSame]
    exact Later.refl s
  · rcases hTracked with ⟨here, hPlaced, _⟩
    have hFlush := parsePartial_flushed hWork
    have hPath : (parsePartial s).openPath = s.openPath := openPath_parsePartial s
    have hLength : (parsePartial s).parts.length = s.parts.length :=
      hFlush.length.trans (sameLinks_flushed s (partialLength s)).length
    refine Later.of_placed hPlaced (parsePartial_placed hPlaced hWork)
      (Nat.le_add_right _ _) (Nat.le_of_eq hLength.symm) ?_ ?_
    · intro k hMem
      rw [hPath] at hMem
      exact Or.inl hMem
    · intro k _ hNot
      rw [hPath] at hNot
      rcases hPlaced.tree.openPath_inner with ⟨front, hInner⟩
      rw [hInner] at hNot
      exact (hFlush.endpos k).trans (endpos_updateCounts_of_not_mem hPlaced.tree hInner hNot _ _ 0)

/- What is fed later. -/
theorem later_bytes (hTracked : Tracked s fed) (buf : List Byte) :
    Later s (buf.foldl parseByte s) := by
  induction buf generalizing s fed with
  | nil => exact Later.refl s
  | cons b rest ih => exact (later_parseByte hTracked b).trans (ih (parseByte_tracked hTracked b))

theorem later_parse (hTracked : Tracked s fed) (buf : List Byte) : Later s (parse s buf) := by
  have hBytes := later_bytes hTracked buf
  unfold parse
  simp only []
  split
  · exact hBytes.trans (later_parsePartial ((tracked_kept fed).bytes [] hTracked buf))
  · exact hBytes

end Wmail.Rfc2045
