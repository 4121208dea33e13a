import Mathlib.Data.List.GetD
import Mathlib.Data.List.Nodup
import Wmail.Rfc2045.Parse

/-
  The tree of parts that the parser builds.

  Every operation of the parser leaves the links between the
  parts alone, opens a part at the end of the open path, or
  closes a part of it.

  Key theorems include:
    * `Tree.openPath_isChain`
    * `Tree.upward_eq`
-/

namespace Wmail.Rfc2045

open Links

namespace St

@[simp]
theorem length_setPart (s : St) (i : Nat) (f : Part → Part) :
    (s.setPart i f).parts.length = s.parts.length := by
  simp [setPart]

theorem part_setPart (s : St) (i k : Nat) (f : Part → Part) : (s.setPart i f).part k =
      if k = i ∧ i < s.parts.length then f (s.part k) else s.part k := by
  simp only [part, setPart, List.getD_eq_getElem?_getD, List.getElem?_modify]
  by_cases hSame : i = k
  · subst hSame
    by_cases hLess : i < s.parts.length
    · simp [hLess]
    · simp [hLess]
  · simp [hSame, Ne.symm hSame]

theorem part_setPart_self {s : St} {i : Nat} (hLess : i < s.parts.length)
    (f : Part → Part) : (s.setPart i f).part i = f (s.part i) := by
  simp [part_setPart, hLess]

theorem part_setPart_ne (s : St) {i k : Nat} (hNe : k ≠ i) (f : Part → Part) :
    (s.setPart i f).part k = s.part k := by
  simp [part_setPart, hNe]

theorem part_of_length_le {s : St} {i : Nat} (hLength : s.parts.length ≤ i) :
    s.part i = Part.alloc := by
  simp [part, hLength]

/- Assigning to several parts, each of them once. -/
theorem part_foldl_setPart (f : Part → Part) (places : List Nat) (s : St)
    (hNodup : places.Nodup) (hLess : ∀ j, j ∈ places → j < s.parts.length) (k : Nat) :
    (places.foldl (fun s j => s.setPart j f) s).part k =
      if k ∈ places then f (s.part k) else s.part k := by
  induction places generalizing s with
  | nil => simp
  | cons j rest ih =>
    have hParts := List.nodup_cons.mp hNodup
    rw [List.foldl_cons, ih (s.setPart j f) hParts.2]
    · by_cases hSame : k = j
      · subst hSame
        simp [hParts.1, part_setPart_self (hLess k List.mem_cons_self)]
      · simp [hSame, part_setPart_ne s hSame]
    · intro i hMem
      rw [length_setPart]
      exact hLess i (List.mem_cons_of_mem _ hMem)

theorem length_foldl_setPart (f : Part → Part) (places : List Nat) (s : St) :
    (places.foldl (fun s j => s.setPart j f) s).parts.length = s.parts.length := by
  induction places generalizing s with
  | nil => rfl
  | cons j rest ih => rw [List.foldl_cons, ih, length_setPart]

@[simp]
theorem length_setUpward (s : St) (i : Nat) (f : Part → Part) :
    (s.setUpward i f).parts.length = s.parts.length :=
  length_foldl_setPart f _ s

@[simp]
theorem numparts_setUpward (s : St) (i : Nat) (f : Part → Part) :
    (s.setUpward i f).numparts = s.numparts := by
  unfold setUpward
  generalize s.upward i = places
  induction places generalizing s with
  | nil => rfl
  | cons j rest ih => exact ih (s.setPart j f)

end St

@[simp]
theorem numparts_updateCounts (s : St) (i newcnt newendcnt nlines : Nat) :
    (updateCounts s i newcnt newendcnt nlines).numparts = s.numparts :=
  St.numparts_setUpward s i _

@[simp]
theorem numparts_sectionContents (s : St) (c : List Byte) :
    (sectionContents s c).numparts = s.numparts := by
  unfold sectionContents
  rcases s.rfc2045acptr with _ | ⟨_ | i, pos, state, char⟩
  · rfl
  · rfl
  · rfl

@[simp]
theorem numparts_scanPartial (s : St) (p l : Nat) : (scanPartial s p l).numparts = s.numparts := by
  unfold scanPartial
  split
  · exact numparts_sectionContents s _
  · rfl

@[simp]
theorem numparts_parsePartial (s : St) : (parsePartial s).numparts = s.numparts := by
  unfold parsePartial
  split
  · rfl
  · exact (numparts_updateCounts _ _ _ _ _).trans (numparts_scanPartial _ _ _)

/- The same parts, with the same `view` of every one. -/
structure Keeps {α : Type} (view : Part → α) (s t : St) : Prop where
  length : t.parts.length = s.parts.length
  same : ∀ k, view (t.part k) = view (s.part k)

/- The same parts, linked in the same way. -/
abbrev SameLinks (s t : St) : Prop :=
  Keeps Part.toPartLinks s t

namespace Keeps

section

variable {α : Type} {v : Part → α}

theorem refl (s : St) : Keeps v s s :=
  ⟨rfl, fun _ => rfl⟩

theorem trans {s t u : St} (hFirst : Keeps v s t) (hSecond : Keeps v t u) : Keeps v s u :=
  ⟨hSecond.length.trans hFirst.length, fun k => (hSecond.same k).trans (hFirst.same k)⟩

theorem symm {s t : St} (hKeeps : Keeps v s t) : Keeps v t s :=
  ⟨hKeeps.length.symm, fun k => (hKeeps.same k).symm⟩

theorem map {β : Type} {s t : St} (hKeeps : Keeps v s t) (g : α → β) :
    Keeps (fun p => g (v p)) s t :=
  ⟨hKeeps.length, fun k => congrArg g (hKeeps.same k)⟩

theorem of_parts_eq {s t : St} (hParts : t.parts = s.parts) : Keeps v s t := by
  refine ⟨congrArg List.length hParts, ?_⟩
  intro k
  unfold St.part
  rw [hParts]

/- An assignment that the view does not see. -/
theorem setPart (s : St) (i : Nat) {f : Part → Part} (hView : ∀ p, v (f p) = v p) :
    Keeps v s (s.setPart i f) := by
  refine ⟨St.length_setPart s i f, ?_⟩
  intro k
  rw [St.part_setPart]
  split
  · exact hView _
  · rfl

theorem setUpward (s : St) (i : Nat) {f : Part → Part} (hView : ∀ p, v (f p) = v p) :
    Keeps v s (s.setUpward i f) := by
  unfold St.setUpward
  generalize s.upward i = places
  induction places generalizing s with
  | nil => exact refl s
  | cons j rest ih => exact (setPart s j hView).trans (ih (s.setPart j f))

end

variable {s t : St}

theorem parent (hSame : SameLinks s t) (k : Nat) : (t.part k).parent = (s.part k).parent :=
  congrArg PartLinks.parent (hSame.same k)

theorem lastpart (hSame : SameLinks s t) (k : Nat) : (t.part k).lastpart = (s.part k).lastpart :=
  congrArg PartLinks.lastpart (hSame.same k)

theorem workclosed (hSame : SameLinks s t) (k : Nat) :
    (t.part k).workclosed = (s.part k).workclosed :=
  congrArg PartLinks.workclosed (hSame.same k)

theorem upward (hSame : SameLinks s t) (i : Nat) : t.upward i = s.upward i :=
  follow_congr hSame.parent i i

theorem openLast (hSame : SameLinks s t) (p : Nat) : t.openLast p = s.openLast p := by
  unfold St.openLast
  rw [hSame.lastpart p]
  cases (s.part p).lastpart with
  | none => rfl
  | some last => simp only [hSame.workclosed last]

theorem openPath (hSame : SameLinks s t) : t.openPath = s.openPath := by
  unfold St.openPath
  rw [hSame.length]
  exact follow_congr hSame.openLast _ _

end Keeps

------------
-- Trees
------------

/- The parts form a tree in the order of their numbers. -/
structure Tree (s : St) : Prop where
  root_lt : 0 < s.parts.length
  root : (s.part 0).parent = none
  parent_lt : ∀ i p, (s.part i).parent = some p → p < i
  orphan : ∀ i, i < s.parts.length → (s.part i).parent = none → i = 0
  child : ∀ p last, (s.part p).lastpart = some last →
      last < s.parts.length ∧ (s.part last).parent = some p
  newest : ∀ i p, (s.part i).parent = some p → ∃ last, (s.part p).lastpart = some last ∧ i ≤ last

namespace Tree

variable {s : St}

theorem congr {t : St} (hTree : Tree s) (hLength : t.parts.length = s.parts.length)
    (hParentSame : ∀ k, (t.part k).parent = (s.part k).parent)
    (hLastSame : ∀ k, (t.part k).lastpart = (s.part k).lastpart) :
    Tree t where
  root_lt := by
    rw [hLength]
    exact hTree.root_lt
  root := by
    rw [hParentSame]
    exact hTree.root
  parent_lt := by
    intro i p hParent
    rw [hParentSame] at hParent
    exact hTree.parent_lt i p hParent
  orphan := by
    intro i hLess hParent
    rw [hParentSame] at hParent
    rw [hLength] at hLess
    exact hTree.orphan i hLess hParent
  child := by
    intro p last hLast
    rw [hLastSame] at hLast
    rw [hLength, hParentSame]
    exact hTree.child p last hLast
  newest := by
    intro i p hParent
    rw [hParentSame] at hParent
    rw [hLastSame]
    exact hTree.newest i p hParent

theorem of_sameLinks {t : St} (hTree : Tree s) (hSame : SameLinks s t) : Tree t :=
  hTree.congr hSame.length hSame.parent hSame.lastpart

theorem parent_falls (hTree : Tree s) : FallsAlong (fun i => i) (fun q => (s.part q).parent) :=
  hTree.parent_lt

theorem openLast_eq_some {p last : Nat} (hLast : s.openLast p = some last) :
    (s.part p).lastpart = some last ∧ (s.part last).workclosed = false := by
  unfold St.openLast at hLast
  cases hPart : (s.part p).lastpart with
  | none => simp [hPart] at hLast
  | some other =>
    cases hClosed : (s.part other).workclosed with
    | true => simp [hPart, hClosed] at hLast
    | false =>
      simp only [hPart, hClosed, Bool.false_eq_true, if_false, Option.some.injEq] at hLast
      subst hLast
      exact ⟨rfl, hClosed⟩

theorem openLast_falls (hTree : Tree s) : FallsAlong (fun i => s.parts.length - i) s.openLast := by
  intro p last hLast
  rcases hTree.child p last (openLast_eq_some hLast).1 with ⟨hLess, hParent⟩
  have hUp := hTree.parent_lt last p hParent
  show s.parts.length - last < s.parts.length - p
  omega

theorem openPath_isChain (hTree : Tree s) : IsChain s.openLast s.openPath :=
  isChain_follow hTree.openLast_falls (Nat.le_refl _)

theorem head?_openPath (s : St) : s.openPath.head? = some 0 :=
  head?_follow _ _ _

/- Every open part is the last part of the one before it. -/
theorem isDescent_of_isChain (hTree : Tree s) {path : List Nat}
    (hChain : IsChain s.openLast path) : IsDescent (fun q => (s.part q).parent) path := by
  induction path with
  | nil => exact hChain
  | cons p rest ih =>
    cases rest with
    | nil => trivial
    | cons last tail =>
      have hLast := openLast_eq_some hChain.1
      exact ⟨(hTree.child p last hLast.1).2, ih hChain.2⟩

theorem openPath_isDescent (hTree : Tree s) : IsDescent (fun q => (s.part q).parent) s.openPath :=
  hTree.isDescent_of_isChain hTree.openPath_isChain

theorem openPath_nodup (hTree : Tree s) : s.openPath.Nodup :=
  hTree.openPath_isChain.nodup hTree.openLast_falls

/- The open path is the only walk down from the root. -/
theorem openPath_eq (hTree : Tree s) {path : List Nat}
    (hChain : IsChain s.openLast (0 :: path)) : s.openPath = 0 :: path := by
  have hOpen := hTree.openPath_isChain
  have hHead := head?_openPath s
  cases hPath : s.openPath with
  | nil =>
    rw [hPath] at hHead
    cases hHead
  | cons p rest =>
    rw [hPath] at hHead hOpen
    cases hHead
    rw [hOpen.unique hChain]

theorem parent_lt_length (hTree : Tree s) {i p : Nat} (hLess : i < s.parts.length)
    (hParent : (s.part i).parent = some p) : p < s.parts.length :=
  Nat.lt_trans (hTree.parent_lt i p hParent) hLess

theorem mem_lt_length (hTree : Tree s) {path : List Nat} {p i : Nat}
    (hChain : IsChain s.openLast (p :: path)) (hStart : p < s.parts.length)
    (hMem : i ∈ p :: path) : i < s.parts.length := by
  induction path generalizing p with
  | nil =>
    rw [List.mem_singleton.mp hMem]
    exact hStart
  | cons last rest ih =>
    rcases List.mem_cons.mp hMem with rfl | hRest
    · exact hStart
    · have hLast := openLast_eq_some hChain.1
      exact ih hChain.2 (hTree.child p last hLast.1).1 hRest

theorem openPath_lt (hTree : Tree s) {i : Nat} (hMem : i ∈ s.openPath) : i < s.parts.length := by
  have hOpen := hTree.openPath_isChain
  have hHead := head?_openPath s
  cases hPath : s.openPath with
  | nil =>
    rw [hPath] at hHead
    cases hHead
  | cons p rest =>
    rw [hPath] at hHead hOpen hMem
    cases hHead
    exact hTree.mem_lt_length hOpen hTree.root_lt hMem

/- The parts around an open part are the path up to it. -/
theorem upward_eq (hTree : Tree s) {front back : List Nat} {p : Nat}
    (hPath : s.openPath = front ++ p :: back) : s.upward p = p :: front.reverse := by
  have hDescent := hTree.openPath_isDescent
  have hHead := head?_openPath s
  rw [hPath] at hDescent hHead
  apply follow_eq_reverse hDescent
  · have hTop : (front ++ [p]).headD p = 0 := by
      cases front with
      | nil => exact Option.some.inj hHead
      | cons q rest => exact Option.some.inj hHead
    rw [hTop]
    exact hTree.root
  · exact hDescent.length_le hTree.parent_falls

/- Assigning to an open part and everything around it. -/
theorem part_setUpward (hTree : Tree s) {front back : List Nat} {p : Nat}
    (hPath : s.openPath = front ++ p :: back) (f : Part → Part) (k : Nat) :
    (s.setUpward p f).part k = if k ∈ front ++ [p] then f (s.part k) else s.part k := by
  have hNodup := hTree.openPath_nodup
  rw [hPath, List.append_cons] at hNodup
  have hFront := (List.nodup_append.mp hNodup).1
  unfold St.setUpward
  rw [hTree.upward_eq hPath, St.part_foldl_setPart]
  · have hMem : k ∈ p :: front.reverse ↔ k ∈ front ++ [p] := by
      rw [← List.reverse_concat, List.mem_reverse]
    simp only [hMem]
  · rw [← List.reverse_concat]
    exact List.nodup_reverse.mpr hFront
  · intro j hMem
    apply hTree.openPath_lt
    rw [hPath]
    simp only [List.mem_cons, List.mem_reverse] at hMem
    simp only [List.mem_append, List.mem_cons]
    rcases hMem with hSame | hFrontMem
    · exact Or.inr (Or.inl hSame)
    · exact Or.inl hFrontMem

end Tree

------------
-- Opening And Closing
------------

@[simp]
theorem length_appendPartNoinherit (s : St) (p startpos : Nat) :
    (appendPartNoinherit s p startpos).parts.length = s.parts.length + 1 := by
  simp [appendPartNoinherit]

theorem part_appendPartNoinherit {s : St} {p : Nat} (hLess : p < s.parts.length)
    (startpos k : Nat) :
    (appendPartNoinherit s p startpos).part k =
      if k = s.parts.length then
        newPart s p startpos
      else if k = p then
        { s.part k with lastpart := some s.parts.length }
      else
        s.part k := by
  have hParts : (appendPartNoinherit s p startpos).parts = (s.setPart p fun q =>
          { q with
              lastpart := some s.parts.length }).parts ++
          [newPart s p startpos] := rfl
  have hOld := St.part_setPart s p k fun q => { q with lastpart := some s.parts.length }
  unfold St.part at hOld ⊢
  rw [hParts]
  generalize hSet : (s.setPart p fun q =>
      { q with lastpart := some s.parts.length }) = t at hOld ⊢
  have hLength : t.parts.length = s.parts.length := by rw [← hSet, St.length_setPart]
  rcases Nat.lt_trichotomy k s.parts.length with hBelow | hSame | hAbove
  · rw [List.getD_append _ _ _ _ (hLength.symm ▸ hBelow), hOld]
    simp [Nat.ne_of_lt hBelow, hLess]
  · subst hSame
    rw [List.getD_append_right _ _ _ _ (Nat.le_of_eq hLength), hLength]
    simp
  · have hNeLength : k ≠ s.parts.length := Nat.ne_of_gt hAbove
    have hNe : k ≠ p := Nat.ne_of_gt (Nat.lt_trans hLess hAbove)
    simp only [hNeLength, hNe, if_false]
    rw [List.getD_eq_default, List.getD_eq_default]
    · exact Nat.le_of_lt hAbove
    · rw [List.length_append, hLength, List.length_singleton]
      exact hAbove

namespace Tree

variable {s : St}

/- A new part belongs to the tree. -/
theorem append (hTree : Tree s) {p : Nat} (hLess : p < s.parts.length) (startpos : Nat) :
    Tree (appendPartNoinherit s p startpos) := by
  have hPart := part_appendPartNoinherit hLess startpos
  have hNe := Nat.ne_of_lt hLess
  have hParent : ∀ k, k ≠ s.parts.length → ((appendPartNoinherit s p startpos).part k).parent =
          (s.part k).parent := by
    intro k hOld
    rw [hPart, if_neg hOld]
    split <;> rfl
  have hNew : ((appendPartNoinherit s p startpos).part s.parts.length).parent = some p := by
    rw [hPart, if_pos rfl]
    rfl
  have hFresh : ∀ i, (s.part i).parent = some s.parts.length → i < s.parts.length → False := by
    intro i hUp hSmall
    exact Nat.lt_asymm hSmall (hTree.parent_lt i _ hUp)
  have hInRange : ∀ i q, (s.part i).parent = some q → i < s.parts.length := by
    intro i q hUp
    by_contra hLarge
    rw [St.part_of_length_le (Nat.le_of_not_lt hLarge)] at hUp
    cases hUp
  constructor
  · rw [length_appendPartNoinherit]
    exact Nat.succ_pos _
  · rw [hParent 0 (Nat.ne_of_lt hTree.root_lt)]
    exact hTree.root
  · intro i q hUp
    by_cases hOld : i = s.parts.length
    · subst hOld
      rw [hNew] at hUp
      cases hUp
      exact hLess
    · rw [hParent i hOld] at hUp
      exact hTree.parent_lt i q hUp
  · intro i hSmall hUp
    rw [length_appendPartNoinherit] at hSmall
    by_cases hOld : i = s.parts.length
    · subst hOld
      rw [hNew] at hUp
      cases hUp
    · rw [hParent i hOld] at hUp
      exact hTree.orphan i (by omega) hUp
  · intro q last hLast
    rw [length_appendPartNoinherit]
    rw [hPart] at hLast
    by_cases hQ : q = s.parts.length
    · rw [if_pos hQ] at hLast
      cases hLast
    · rw [if_neg hQ] at hLast
      by_cases hSame : q = p
      · rw [if_pos hSame] at hLast
        cases hLast
        rw [hNew, hSame]
        exact ⟨Nat.lt_succ_self _, rfl⟩
      · rw [if_neg hSame] at hLast
        rcases hTree.child q last hLast with ⟨hSmall, hUp⟩
        rw [hParent last (Nat.ne_of_lt hSmall)]
        exact ⟨Nat.lt_succ_of_lt hSmall, hUp⟩
  · intro i q hUp
    by_cases hOld : i = s.parts.length
    · subst hOld
      rw [hNew] at hUp
      cases hUp
      refine ⟨s.parts.length, ?_, Nat.le_refl _⟩
      rw [hPart, if_neg hNe, if_pos rfl]
    · rw [hParent i hOld] at hUp
      have hSmall := hInRange i q hUp
      rcases hTree.newest i q hUp with ⟨last, hLast, hLe⟩
      have hQ : q ≠ s.parts.length := by
        rintro rfl
        exact hFresh i hUp hSmall
      by_cases hSame : q = p
      · refine ⟨s.parts.length, ?_, Nat.le_of_lt hSmall⟩
        rw [hPart, if_neg hQ, if_pos hSame]
      · refine ⟨last, ?_, hLe⟩
        rw [hPart, if_neg hQ, if_neg hSame]
        exact hLast

/- A new part is open, inside the part it was appended to. -/
theorem openPath_append (hTree : Tree s) {front back : List Nat} {p : Nat}
    (hPath : s.openPath = front ++ p :: back) (startpos : Nat) :
    (appendPartNoinherit s p startpos).openPath = front ++ [p, s.parts.length] := by
  have hMem : ∀ i, i ∈ s.openPath → i < s.parts.length := fun i => hTree.openPath_lt
  have hNodup := hTree.openPath_nodup
  rw [hPath] at hMem hNodup
  have hLess : p < s.parts.length := hMem p (by simp)
  have hPart := part_appendPartNoinherit hLess startpos
  have hNext : ∀ q, q < s.parts.length → q ≠ p → (appendPartNoinherit s p startpos).openLast q =
          s.openLast q := by
    intro q hSmall hNe
    unfold St.openLast
    rw [hPart, if_neg (Nat.ne_of_lt hSmall), if_neg hNe]
    cases hLast : (s.part q).lastpart with
    | none => rfl
    | some last =>
      have hChild := hTree.child q last hLast
      have hLastPart : ((appendPartNoinherit s p startpos).part
            last).workclosed = (s.part last).workclosed := by
        rw [hPart, if_neg (Nat.ne_of_lt hChild.1)]
        split <;> rfl
      simp only [hLastPart]
  have hAt : (appendPartNoinherit s p startpos).openLast p = some s.parts.length := by
    unfold St.openLast
    rw [hPart, if_neg (Nat.ne_of_lt hLess), if_pos rfl]
    simp only []
    rw [hPart, if_pos rfl]
    rfl
  have hEnd : (appendPartNoinherit s p startpos).openLast s.parts.length = none := by
    unfold St.openLast
    rw [hPart, if_pos rfl]
    rfl
  have hChain := hTree.openPath_isChain
  rw [hPath] at hChain
  have hNew : IsChain (appendPartNoinherit s p startpos).openLast
        (front ++ [p, s.parts.length]) := by
    apply hChain.redirect
    · intro q hFront
      apply hNext q (hMem q (List.mem_append_left _ hFront))
      rintro rfl
      have hApart := (List.nodup_append.mp hNodup).2.2
      exact hApart q hFront q List.mem_cons_self rfl
    · exact ⟨hAt, hEnd⟩
  have hHead := head?_openPath s
  rw [hPath] at hHead
  cases front with
  | nil =>
    cases hHead
    exact (hTree.append hLess startpos).openPath_eq hNew
  | cons q rest =>
    cases hHead
    exact (hTree.append hLess startpos).openPath_eq hNew

/- Closing a part leaves the tree. -/
theorem close (hTree : Tree s) (last : Nat) :
    Tree (s.setPart last fun q => { q with workclosed := true }) := by
  apply hTree.congr (St.length_setPart s last _)
  all_goals
    intro k
    rw [St.part_setPart]
    split <;> rfl

/- A closed part is not open any more. -/
theorem openPath_close (hTree : Tree s) {front back : List Nat} {p last : Nat}
    (hPath : s.openPath = front ++ p :: last :: back) :
    (s.setPart last fun q => { q with workclosed := true }).openPath = front ++ [p] := by
  have hNodup := hTree.openPath_nodup
  have hChain := hTree.openPath_isChain
  have hMemLast : last ∈ s.openPath := by
    rw [hPath]
    simp
  have hLess := hTree.openPath_lt hMemLast
  rw [hPath] at hNodup hChain
  have hPart := St.part_setPart s last (f := fun q => { q with workclosed := true })
  have hLinks : ∀ k, ((s.setPart last fun q => { q with workclosed := true }).part k).lastpart =
        (s.part k).lastpart := by
    intro k
    rw [hPart]
    split <;> rfl
  have hClosed : (s.setPart last fun q => { q with workclosed := true }).openLast p = none := by
    have hStep := (hChain.suffix (List.cons_ne_nil _ _)).1
    unfold St.openLast
    rw [hLinks, (openLast_eq_some hStep).1]
    simp [hPart, hLess]
  have hNext : ∀ q, q ∈ front → (s.setPart last fun q =>
          { q with workclosed := true }).openLast q = s.openLast q := by
    intro q hFront
    unfold St.openLast
    rw [hLinks]
    cases hLast : (s.part q).lastpart with
    | none => rfl
    | some other =>
      have hOther : other ≠ last := by
        rintro rfl
        have hUp := (hTree.child q other hLast).2
        have hStep := (hChain.suffix (List.cons_ne_nil _ _)).1
        have hUpPath := (hTree.child p other (openLast_eq_some hStep).1).2
        have hSame : q = p := Option.some.inj (hUp.symm.trans hUpPath)
        have hApart := (List.nodup_append.mp hNodup).2.2
        exact hApart q hFront p List.mem_cons_self hSame
      simp [hPart, hOther]
  have hTreeClosed := hTree.close last
  have hEnd : Links.IsChain (s.setPart last fun q =>
          { q with workclosed := true }).openLast [p] :=
    hClosed
  have hNew := hChain.redirect hNext hEnd
  have hHead := head?_openPath s
  rw [hPath] at hHead
  cases front with
  | nil =>
    cases hHead
    exact hTreeClosed.openPath_eq hNew
  | cons q rest =>
    cases hHead
    exact hTreeClosed.openPath_eq hNew

end Tree

end Wmail.Rfc2045
