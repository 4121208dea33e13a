import Wmail.Rfc2045.Fragments

/-
  The flag for eight-bit contents.

  A line sets it for all open parts, when it is an eight-bit
  line of the body of a part that does not declare eight-bit
  contents.

  Key theorems include:
    * `flagged_doline`
    * `closed_doline`
-/

namespace Wmail.Rfc2045

open Links

/- `rfcviolation & RFC2045_ERR8BITCONTENT`. -/
def Flagged (s : St) (k : Nat) : Prop :=
  (s.part k).rfcviolation.err8bitcontent = true

/- The parts around a part with the flag have it, too. -/
def Closed (s : St) : Prop :=
  ∀ k j, Flagged s k → (s.part k).parent = some j → Flagged s j

/-
  The line in `workbuf` is an eight-bit line of the body of a
  part that does not declare eight-bit contents.
-/
def Raises (t : St) : Prop :=
  t.numparts ≤ maxParts ∧ (t.workbuf.any fun b => 128 ≤ b) = true ∧
      ∃ p, locate t.start.1 (cleanLine t.workbuf) t.start.2 = .section p ∧
        (t.part p).workinheader = false ∧ (t.part p).content8bit = false

theorem inert_flag : Inert fun p => p.rfcviolation.err8bitcontent :=
  ⟨fun _ _ => rfl, fun _ _ => rfl, fun _ _ => rfl, fun _ _ => rfl, fun _ _ => rfl, fun _ _ => rfl,
    fun _ _ => rfl, fun _ => rfl, fun _ => rfl⟩

theorem Flagged.keeps {s t : St}
    (hKeeps : Keeps (fun p => p.rfcviolation.err8bitcontent) s t) (k : Nat) :
    Flagged t k ↔ Flagged s k := by
  unfold Flagged
  rw [hKeeps.same]

variable {s : St}

/- The flag goes up from the end of a descent. -/
theorem Closed.up (hClosed : Closed s) {front : List Nat} {p : Nat} (hDescent :
      IsDescent (fun q => (s.part q).parent) (front ++ [p])) (hFlag : Flagged s p) {k : Nat}
    (hMem : k ∈ front ++ [p]) :
    Flagged s k := by
  induction front using List.reverseRecOn generalizing p with
  | nil =>
    rw [List.mem_singleton.mp hMem]
    exact hFlag
  | append_singleton front q ih =>
    rcases List.mem_append.mp hMem with hFront | hLast
    · rw [List.append_assoc] at hDescent
      exact ih hDescent.append_cons (hClosed p q hFlag hDescent.concat) hFront
    · rw [List.mem_singleton.mp hLast]
      exact hFlag

theorem flagged_flagContent (hTree : Tree s) (hClosed : Closed s) {front : List Nat}
    {p : Nat} (hPath : s.openPath = front ++ [p]) (bit8 : Bool) (k : Nat) :
    Flagged (flagContent s bit8 p) k ↔ Flagged s k ∨ (bit8 = true ∧ (s.part p).content8bit = false ∧
          k ∈ s.openPath) := by
  unfold flagContent
  split
  · rename_i hGuard
    rw [Bool.and_eq_true, Bool.and_eq_true, Bool.not_eq_true', Bool.not_eq_true'] at hGuard
    have hPart := hTree.part_setUpward hPath (fun q =>
      { q with rfcviolation :=
        { q.rfcviolation with err8bitcontent := true } }) k
    unfold Flagged
    rw [hPart, hPath]
    by_cases hMem : k ∈ front ++ [p]
    · rw [if_pos hMem]
      exact iff_of_true rfl (Or.inr ⟨hGuard.1.1, hGuard.1.2, hMem⟩)
    · rw [if_neg hMem]
      constructor
      · exact Or.inl
      · rintro (hFlag | ⟨_, _, hIn⟩)
        · exact hFlag
        · exact absurd hIn hMem
  · rename_i hGuard
    constructor
    · exact Or.inl
    · rintro (hFlag | ⟨hBit8, hNone, hMem⟩)
      · exact hFlag
      · rw [hBit8, hNone] at hGuard
        have hFlag : Flagged s p := by
          unfold Flagged
          simpa using hGuard
        rw [hPath] at hMem
        exact hClosed.up (hPath ▸ hTree.openPath_isDescent) hFlag hMem

/- What one line does to the flags. -/
theorem flagged_doline {t : St} (hTree : Tree t) (hClosed : Closed t) (k : Nat) :
    Flagged (doline t) k ↔ Flagged t k ∨ (Raises t ∧ k ∈ t.openPath) := by
  have hStart : SameLinks t t.start.1 := Keeps.start t fun _ _ => rfl
  have hInfo : Keeps Part.toMimeInfo t t.start.1 := Keeps.start t fun _ _ => rfl
  have hHeader : Keeps Part.workinheader t t.start.1 := Keeps.start t fun _ _ => rfl
  have hSame := Flagged.keeps (s := t) (t := t.start.1) (Keeps.start t fun _ _ => rfl)
  have hTreeStart := hTree.of_sameLinks hStart
  have hClosedStart : Closed t.start.1 := by
    intro i j hFlag hParent
    rw [hSame] at hFlag ⊢
    rw [hStart.parent] at hParent
    exact hClosed i j hFlag hParent
  have hFound := hTree.found (cleanLine t.workbuf)
  unfold doline Raises
  split
  · rename_i hMany
    refine (Flagged.keeps (Keeps.setPart t 0 ?_) k).trans ?_
    · exact fun _ => rfl
    constructor
    · exact Or.inl
    · rintro (hFlag | ⟨⟨hFew, _⟩, _⟩)
      · exact hFlag
      · exact absurd hMany (Nat.not_lt.mpr hFew)
  · rename_i hParts
    have hFew := Nat.le_of_not_lt hParts
    simp only []
    generalize (t.workbuf.any fun b => 128 ≤ b) = bit8
    generalize hPlace : locate t.start.1 (cleanLine t.workbuf) t.start.2 = place at hFound ⊢
    have hLine : Flagged (dolineAt t.start.1 (cleanLine t.workbuf) bit8 place) k ↔
          Flagged (t.start.1.flagged bit8 place) k := by
      unfold Flagged
      rw [inert_flag.dolineAt hTreeStart hFound bit8 k]
    rw [hLine, ← hSame k]
    cases place with
    | leftover p =>
      constructor
      · exact Or.inl
      · rintro (hFlag | ⟨⟨_, _, q, hOther, _⟩, _⟩)
        · exact hFlag
        · cases hOther
    | boundary p last final =>
      constructor
      · exact Or.inl
      · rintro (hFlag | ⟨⟨_, _, q, hOther, _⟩, _⟩)
        · exact hFlag
        · cases hOther
    | «section» p =>
      rcases hFound with ⟨⟨front, hPath⟩, _⟩
      have hFlags := flagged_flagContent hTreeStart hClosedStart hPath bit8 k
      have h8bit : (t.start.1.part p).content8bit = (t.part p).content8bit :=
        congrArg MimeInfo.content8bit (hInfo.same p)
      unfold St.flagged
      simp only []
      rw [hHeader.same p]
      split
      · rename_i hIn
        constructor
        · exact Or.inl
        · rintro (hFlag | ⟨⟨_, _, q, hOther, hNot, _⟩, _⟩)
          · exact hFlag
          · cases hOther
            rw [hIn] at hNot
            cases hNot
      · rename_i hNot
        rw [hFlags, h8bit, hStart.openPath]
        constructor
        · rintro (hFlag | ⟨hBit8, hNone, hMem⟩)
          · exact Or.inl hFlag
          · exact Or.inr ⟨⟨hFew, hBit8, p, rfl, Bool.eq_false_iff.mpr hNot, hNone⟩, hMem⟩
        · rintro (hFlag | ⟨⟨_, hBit8, q, hOther, _, hNone⟩, hMem⟩)
          · exact Or.inl hFlag
          · cases hOther
            exact Or.inr ⟨hBit8, hNone, hMem⟩

/- A line does not move a part. -/
theorem parent_doline {t : St} (hTree : Tree t) {k : Nat} (hOld : k < t.parts.length) :
    ((doline t).part k).parent = (t.part k).parent := by
  have hStart : SameLinks t t.start.1 := Keeps.start t fun _ _ => rfl
  by_cases hMany : maxParts < t.numparts
  · exact (doline_samePlaces hMany).toSameLinks.parent k
  · unfold doline
    rw [if_neg hMany]
    exact (parent_dolineAt (hTree.of_sameLinks hStart) (hTree.found (cleanLine t.workbuf)) _
      (hStart.length ▸ hOld)).trans (hStart.parent k)

theorem parent_some_doline {t : St} (hTree : Tree t) {k j : Nat}
    (hParent : (t.part k).parent = some j) : ((doline t).part k).parent = some j := by
  rw [parent_doline hTree, hParent]
  by_contra hOut
  rw [St.part_of_length_le (Nat.le_of_not_lt hOut)] at hParent
  cases hParent

theorem Flagged.lt_length {k : Nat} (hFlag : Flagged s k) : k < s.parts.length := by
  by_contra hOut
  unfold Flagged at hFlag
  rw [St.part_of_length_le (Nat.le_of_not_lt hOut)] at hFlag
  cases hFlag

theorem closed_doline {t : St} (hTree : Tree t) (hClosed : Closed t) : Closed (doline t) := by
  intro k j hFlag hParent
  rw [flagged_doline hTree hClosed] at hFlag ⊢
  rcases hFlag with hOld | ⟨hRaises, hMem⟩
  · rw [parent_doline hTree hOld.lt_length] at hParent
    exact Or.inl (hClosed k j hOld hParent)
  · rw [parent_doline hTree (hTree.openPath_lt hMem)] at hParent
    right
    refine ⟨hRaises, ?_⟩
    rcases hTree.openPath_inner with ⟨front, hPath⟩
    have hOuter := hTree.path_outer hPath (hPath ▸ hMem) hParent
    rw [hPath]
    exact hOuter

theorem flagged_parsePartial (s : St) (k : Nat) : Flagged (parsePartial s) k ↔ Flagged s k :=
  Flagged.keeps (Keeps.parsePartial s (fun _ _ => rfl) (fun _ _ => rfl) fun _ _ => rfl) k

theorem closed_parsePartial (hClosed : Closed s) : Closed (parsePartial s) := by
  have hLinks : SameLinks s (parsePartial s) :=
    Keeps.parsePartial s (fun _ _ => rfl) (fun _ _ => rfl) fun _ _ => rfl
  intro k j hFlag hParent
  rw [flagged_parsePartial] at hFlag ⊢
  rw [hLinks.parent] at hParent
  exact hClosed k j hFlag hParent

theorem parseByte_closed (hTree : Tree s) (hClosed : Closed s) (b : Byte) :
    Closed (parseByte s b) := by
  by_cases hByte : b = nl
  · subst hByte
    have hLine : Tree (lineState s) := hTree.of_sameLinks (Keeps.of_parts_eq rfl)
    have hDone : Closed (doline (lineState s)) := closed_doline hLine hClosed
    exact hDone
  · unfold parseByte
    rw [if_neg hByte]
    exact hClosed

end Wmail.Rfc2045
