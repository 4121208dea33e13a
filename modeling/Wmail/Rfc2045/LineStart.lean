import Wmail.Rfc2045.Inert
import Wmail.Rfc2045.TreeShape

/-
  Where parts are opened and closed.

  A long line reaches `doline` in fragments.  The look-ahead
  keeps a fragment away from the boundaries when the innermost
  open part is directly inside a multipart.

  Key theorems include:
    * `doline_quiet`
    * `opened_at_line_start`
-/

namespace Wmail.Rfc2045

open Links

/- The line in `workbuf` is a boundary line of an open part. -/
def BoundaryLine (t : St) : Prop :=
  ∃ p cb, p ∈ t.openPath ∧ (t.part p).boundary = some cb ∧ isBoundary cb (cleanLine t.workbuf)

/- The line in `workbuf` is blank, and ends a header. -/
def HeaderEnd (t : St) : Prop :=
  ∃ front p, t.openPath = front ++ [p] ∧ (t.part p).workinheader = true ∧
      lineLength (cleanLine t.workbuf) = 0

variable {s : St} {c : List Byte} {p : Nat}

theorem openPath_dolineSection {bit8 : Bool}
    (hChange : (dolineSection s c bit8 p).openPath ≠ s.openPath) :
    (s.part p).workinheader = true ∧ lineLength c = 0 := by
  unfold dolineSection at hChange
  cases hHeader : (s.part p).workinheader with
  | false =>
    rw [hHeader, if_neg Bool.false_ne_true] at hChange
    exact absurd (links_dolineBody s c bit8 p).openPath hChange
  | true =>
    rw [hHeader, if_pos rfl] at hChange
    by_cases hBlank : lineLength c = 0
    · exact ⟨rfl, hBlank⟩
    · rw [if_neg hBlank] at hChange
      have hFlag : SameLinks s (flagHeader s bit8 p) := Keeps.flagHeader s bit8 p fun _ _ => rfl
      exact absurd (hFlag.trans (links_dolineHeader _ c p)).openPath hChange

variable {t : St}

/- A line changes the open path for two reasons only. -/
theorem doline_openPath (hTree : Tree t) (hChange : (doline t).openPath ≠ t.openPath) :
    (∃ p last final, locate t.start.1 (cleanLine t.workbuf) t.start.2 = .boundary p last final) ∨
      HeaderEnd t := by
  have hStart : SameLinks t t.start.1 := Keeps.start t fun _ _ => rfl
  have hHeader : Keeps Part.workinheader t t.start.1 := Keeps.start t fun _ _ => rfl
  have hFound := hTree.found (cleanLine t.workbuf)
  unfold doline at hChange
  split at hChange
  · have hSame : SameLinks t (t.setPart 0 fun root =>
          { root with rfcviolation :=
            { root.rfcviolation with err2complex := true } }) :=
      Keeps.setPart t 0 fun _ => rfl
    exact absurd hSame.openPath hChange
  · simp only [] at hChange
    cases hPlace : locate t.start.1 (cleanLine t.workbuf) t.start.2 with
    | leftover p =>
      rw [hPlace] at hChange
      exact absurd (hStart.trans (links_dolineLeftover _ _ p)).openPath hChange
    | boundary p last final => exact Or.inl ⟨p, last, final, rfl⟩
    | «section» p =>
      right
      rw [hPlace] at hChange hFound
      rcases hFound with ⟨⟨front, hPath⟩, _hLast⟩
      rw [← hStart.openPath] at hChange
      rcases openPath_dolineSection hChange with ⟨hIn, hBlank⟩
      refine ⟨front, p, hStart.openPath.symm.trans hPath, ?_, hBlank⟩
      exact (hHeader.same p).symm.trans hIn

/- The drill down stops at boundary lines of open parts. -/
theorem boundaryLine_of_locate (hTree : Tree t) {p last : Nat} {final : Bool}
    (hPlace : locate t.start.1 (cleanLine t.workbuf) t.start.2 = .boundary p last final) :
    BoundaryLine t := by
  have hStart : SameLinks t t.start.1 := Keeps.start t fun _ _ => rfl
  have hInfo : Keeps Part.toMimeInfo t t.start.1 := Keeps.start t fun _ _ => rfl
  have hFound := hTree.found (cleanLine t.workbuf)
  rw [hPlace] at hFound
  rcases hFound with ⟨⟨front, back, hPath⟩, ⟨cb, hBoundary, hMatch, _⟩, _⟩
  refine ⟨p, cb, ?_, ?_, hMatch⟩
  · rw [← hStart.openPath, hPath]
    exact List.mem_append_right _ List.mem_cons_self
  · rw [← hBoundary]
    exact (congrArg MimeInfo.boundary (hInfo.same p)).symm

/- The look-ahead passes over the part. -/
def Quiet (s : St) (i : Nat) : Prop :=
  ∀ q, (s.part i).parent = some q → (s.part q).boundary = none ∨ (s.part q).workinheader = true ∨
        (s.part i).informdata = false

/- Only the innermost open part may stop the look-ahead. -/
def Calm (s : St) : Prop :=
  ∀ i, i ∈ s.openPath.dropLast → Quiet s i

theorem lookAhead_pass {q i : Nat} (hParent : (s.part i).parent = some q)
    (hQuiet : Quiet s i) (rest : List Nat) :
    lookAhead s (q :: i :: rest) = lookAhead s (i :: rest) := by
  conv_lhs =>
    unfold lookAhead
  rcases hQuiet q hParent with hNone | hHeader | hFlag
  · rw [if_pos (Or.inl hNone)]
  · rw [if_pos (Or.inr hHeader)]
  · rw [hFlag, if_neg Bool.false_ne_true, ite_self]

variable {front : List Nat}

/- Only the innermost part is left to look at. -/
theorem lookAhead_calm {q inner : Nat}
    (hDescent : IsDescent (fun q => (s.part q).parent) (front ++ [q, inner]))
    (hQuiet : ∀ i, i ∈ front ++ [q] → Quiet s i) :
    lookAhead s (front ++ [q, inner]) =
      if (s.part q).boundary = none ∨ (s.part q).workinheader then
        none
      else if (s.part inner).informdata then
        some [inner]
      else
        none := by
  induction front with
  | nil => rfl
  | cons k rest ih =>
    have hTail := ih
    cases rest with
    | nil =>
      rw [List.cons_append, List.nil_append, lookAhead_pass hDescent.1 (hQuiet q (by simp))]
      exact ih hDescent.2 fun i hMem => hQuiet i (List.mem_cons_of_mem k hMem)
    | cons l more =>
      rw [List.cons_append, List.cons_append, lookAhead_pass hDescent.1 (hQuiet l (by simp))]
      exact ih hDescent.2 fun i hMem => hQuiet i (List.mem_cons_of_mem k hMem)

/- The path is the root alone, or ends in two parts. -/
theorem path_cases {path : List Nat} (hNe : path ≠ []) : (∃ p, path = [p]) ∨
      ∃ front q inner, path = front ++ [q, inner] := by
  rcases List.eq_nil_or_concat path with hNil | ⟨init, inner, hInit⟩
  · exact absurd hNil hNe
  · rcases List.eq_nil_or_concat init with rfl | ⟨front, q, rfl⟩
    · exact Or.inl ⟨inner, by simpa using hInit⟩
    · refine Or.inr ⟨front, q, inner, ?_⟩
      rw [hInit]
      simp

/- Clearing a flag. -/
theorem Quiet.clear {i : Nat} (j : Nat) (hQuiet : Quiet s i ∨ i = j)
    (hLess : j < s.parts.length) :
    Quiet (s.setPart j fun q => { q with informdata := false })
      i := by
  have hKeeps : Keeps (fun p => (p.parent, p.boundary, p.workinheader)) s
      (s.setPart j fun q => { q with informdata := false }) :=
    Keeps.setPart s j fun _ => rfl
  have hSame := fun k => Prod.ext_iff.mp (hKeeps.same k)
  intro q hParent
  have hRest := Prod.ext_iff.mp (hSame q).2
  simp only at hRest
  rw [hRest.1, hRest.2]
  by_cases hSelf : i = j
  · right
    right
    rw [hSelf, St.part_setPart_self hLess]
  · rw [St.part_setPart_ne s hSelf]
    rcases hQuiet with hQuiet | hEq
    · exact hQuiet q ((hSame i).1.symm.trans hParent)
    · exact absurd hEq hSelf

/- After the look-ahead, every open part is passed over. -/
theorem start_quiet (hTree : Tree s) (hCalm : Calm s) {i : Nat} (hMem : i ∈ s.openPath) :
    Quiet s.start.1 i := by
  rcases path_cases hTree.openPath_isChain.ne_nil with ⟨p, hPath⟩ | ⟨front, q, inner, hPath⟩
  · have hStart : s.start.1 = s := by
      unfold St.start
      rw [hPath]
      rfl
    rw [hStart]
    have hHead := Tree.head?_openPath s
    rw [hPath] at hHead hMem
    cases hHead
    intro q hParent
    rw [List.mem_singleton.mp hMem, hTree.root] at hParent
    cases hParent
  · have hDescent := hTree.openPath_isDescent
    have hOpenInner : inner ∈ s.openPath := by
      rw [hPath]
      simp
    have hLess := hTree.openPath_lt hOpenInner
    have hUp : (s.part inner).parent = some q := by
      rw [hPath] at hDescent
      exact hDescent.concat
    have hFront : ∀ k, k ∈ front ++ [q] → Quiet s k := by
      intro k hIn
      apply hCalm k
      rw [hPath, List.append_cons, List.dropLast_concat]
      exact hIn
    have hAhead := lookAhead_calm (hPath ▸ hDescent) hFront
    rw [← hPath] at hAhead
    have hCases : Quiet s i ∨ i = inner := by
      rw [hPath, List.append_cons] at hMem
      rcases List.mem_append.mp hMem with hIn | hLast
      · exact Or.inl (hFront i hIn)
      · exact Or.inr (List.mem_singleton.mp hLast)
    unfold St.start
    rw [hAhead]
    by_cases hPass : (s.part q).boundary = none ∨ (s.part q).workinheader
    · rw [if_pos hPass]
      rcases hCases with hQuiet | hLast
      · exact hQuiet
      · intro r hParent
        rw [hLast, hUp] at hParent
        cases hParent
        rcases hPass with hNone | hHeader
        · exact Or.inl hNone
        · exact Or.inr (Or.inl hHeader)
    · rw [if_neg hPass]
      cases hFlag : (s.part inner).informdata with
      | true =>
        rw [if_pos rfl]
        exact Quiet.clear inner hCases hLess
      | false =>
        rw [if_neg Bool.false_ne_true]
        rcases hCases with hQuiet | hLast
        · exact hQuiet
        · intro r _hParent
          rw [hLast]
          exact Or.inr (Or.inr hFlag)

------------
-- What A Line Leaves Alone
------------

/- What a line changes in no part but the one it belongs to. -/
def Part.profile (p : Part) : Option Nat × MimeInfo × Bool × Bool :=
  (p.parent, p.toMimeInfo, p.workinheader, p.isdummy)

variable {k : Nat}

theorem profile_append (hLess : p < s.parts.length) (startpos : Nat) (hOld : k < s.parts.length) :
    ((appendPartNoinherit s p startpos).part k).profile = (s.part k).profile := by
  rw [part_appendPartNoinherit hLess, if_neg (Nat.ne_of_lt hOld)]
  split <;> rfl

theorem profile_dolineBoundary (hLess : p < s.parts.length) (c : List Byte) (last : Nat)
    (final : Bool) (hOld : k < s.parts.length) :
    ((dolineBoundary s c p last final).part k).profile = (s.part k).profile := by
  have hNe := Nat.ne_of_lt hOld
  unfold dolineBoundary
  cases final with
  | true =>
    rw [if_pos rfl]
    have hClose : Keeps Part.profile s (s.setPart last fun q => { q with workclosed := true }) :=
      Keeps.setPart s last fun _ => rfl
    exact (hClose.trans (Keeps.updateCounts _ p _ _ 1 fun _ _ => rfl)).same k
  | false =>
    rw [if_neg Bool.false_ne_true, St.part_setPart_ne _ hNe]
    have hCount : Keeps Part.profile (appendPart s p ((s.part p).endpos + c.length)) (updateCounts
          (appendPart s p ((s.part p).endpos + c.length))
          p ((s.part p).endpos + c.length)
          ((s.part p).endpos + lineLength c) 1) :=
      Keeps.updateCounts _ p _ _ 1 fun _ _ => rfl
    rw [hCount.same k]
    unfold appendPart
    rw [St.part_setPart_ne _ hNe]
    exact profile_append hLess _ hOld

theorem profile_dolineDoHeader (s : St) {p k : Nat} (hNe : k ≠ p) :
    ((dolineDoHeader s p).part k).profile = (s.part k).profile := by
  unfold dolineDoHeader
  simp only []
  split
  · have hFlag := Keeps.setPart (v := Part.profile) (s.setPart p fun q =>
        { q with
            toMimeInfo :=
              (doHeader s.inReformime
                ((s.upward p).tail.filterMap fun q => (s.part q).boundary)
                (s.part p).header (s.part p).toMimeInfo).1 })
      0 (f := fun root =>
        { root with rfcviolation :=
          { root.rfcviolation with errbadboundary := true } })
      fun _ => rfl
    exact (hFlag.same k).trans (congrArg Part.profile (St.part_setPart_ne s hNe _))
  · exact congrArg Part.profile (St.part_setPart_ne s hNe _)

theorem profile_startBody (s : St) (c : List Byte) {p k : Nat} (hNe : k ≠ p) :
    ((startBody s c p).part k).profile = (s.part k).profile := by
  unfold startBody
  simp only []
  rw [St.part_setPart_ne _ hNe]
  have hCount := Keeps.updateCounts (v := Part.profile) (s.setPart p fun q =>
      { q with
          workinheader := false
          startbody := (s.part p).endpos + c.length })
    p ((s.part p).endpos + c.length)
    ((s.part p).endpos + c.length) 1 fun _ _ => rfl
  exact (hCount.same k).trans (congrArg Part.profile (St.part_setPart_ne s hNe _))

theorem profile_enterBody (hLess : p < s.parts.length) (hOld : k < s.parts.length) :
    ((enterBody s p).part k).profile = (s.part k).profile := by
  have hNe := Nat.ne_of_lt hOld
  unfold enterBody
  split
  · exact profile_append hLess _ hOld
  · split
    · rw [St.part_setPart_ne _ hNe]
      unfold appendPart
      rw [St.part_setPart_ne _ hNe]
      exact profile_append hLess _ hOld
    · exact (Keeps.startSection (v := Part.profile) s p).same k

theorem profile_collectHeader (s : St) (c : List Byte) {p k : Nat} (hNe : k ≠ p) :
    ((collectHeader s c p).part k).profile = (s.part k).profile := by
  unfold collectHeader
  simp only []
  split
  · rw [St.part_setPart_ne _ hNe]
  · rw [St.part_setPart_ne _ hNe]
    exact profile_dolineDoHeader s hNe

theorem profile_dolineSection (hLess : p < s.parts.length) (c : List Byte) (bit8 : Bool)
    (hOld : k < s.parts.length) (hNe : k ≠ p) :
    ((dolineSection s c bit8 p).part k).profile = (s.part k).profile := by
  unfold dolineSection
  have hFlag : Keeps Part.profile s (flagHeader s bit8 p) :=
    Keeps.flagHeader s bit8 p fun _ _ => rfl
  have hLinks : SameLinks s (startBody (dolineDoHeader (flagHeader s bit8 p) p) c p) :=
    (Keeps.flagHeader s bit8 p fun _ _ => rfl).trans
      ((Keeps.dolineDoHeader _ p (fun _ _ => rfl) fun _ _ => rfl).trans (links_startBody _ c p))
  split
  · split
    · refine (profile_enterBody (hLinks.length ▸ hLess) (hLinks.length ▸ hOld)).trans ?_
      refine (profile_startBody _ c hNe).trans ?_
      exact (profile_dolineDoHeader _ hNe).trans (hFlag.same k)
    · refine (profile_collectHeader _ c hNe).trans ?_
      exact (hFlag.trans (Keeps.updateCounts _ p _ _ 1 fun _ _ => rfl)).same k
  · refine ((Keeps.flagContent s bit8 p ?_).trans ((Keeps.scanBody _ c p ?_).trans
        (Keeps.updateCounts _ p _ _ 1 ?_))).same k
    all_goals exact fun _ _ => rfl

theorem profile_dolineAt {place : Place} (hTree : Tree s)
    (hFound : Found s c s.openPath place) (bit8 : Bool) (hOld : k < s.parts.length)
    (hPlace : place ≠ .section k) :
    ((dolineAt s c bit8 place).part k).profile = (s.part k).profile := by
  cases place with
  | leftover p =>
    exact (Keeps.updateCounts (v := Part.profile) s p
      _ _ 1 fun _ _ => rfl).same k
  | boundary p last final =>
    exact profile_dolineBoundary (hFound.lt_length hTree) c last final hOld
  | «section» p =>
    apply profile_dolineSection (hFound.section_lt_length hTree) c bit8 hOld
    rintro rfl
    exact hPlace rfl

theorem parent_enterBody (hLess : p < s.parts.length) (hOld : k < s.parts.length) :
    ((enterBody s p).part k).parent = (s.part k).parent :=
  congrArg Prod.fst (profile_enterBody hLess hOld)

/- The end of a header, up to the parts that it opens. -/
theorem links_headerEnd (s : St) (c : List Byte) (bit8 : Bool) (p : Nat) :
    SameLinks s (startBody (dolineDoHeader (flagHeader s bit8 p) p) c p) :=
  (Keeps.flagHeader s bit8 p fun _ _ => rfl).trans
    ((Keeps.dolineDoHeader _ p (fun _ _ => rfl) fun _ _ => rfl).trans (links_startBody _ c p))

theorem parent_dolineSection (hLess : p < s.parts.length) (c : List Byte) (bit8 : Bool)
    (hOld : k < s.parts.length) :
    ((dolineSection s c bit8 p).part k).parent = (s.part k).parent := by
  have hLinks := links_headerEnd s c bit8 p
  unfold dolineSection
  split
  · split
    · exact (parent_enterBody (hLinks.length ▸ hLess)
        (hLinks.length ▸ hOld)).trans (hLinks.parent k)
    · have hFlag : SameLinks s (flagHeader s bit8 p) := Keeps.flagHeader s bit8 p fun _ _ => rfl
      exact (hFlag.trans (links_dolineHeader _ c p)).parent k
  · exact (links_dolineBody s c bit8 p).parent k

/- A line does not move a part to another parent. -/
theorem parent_dolineAt {place : Place} (hTree : Tree s)
    (hFound : Found s c s.openPath place) (bit8 : Bool) (hOld : k < s.parts.length) :
    ((dolineAt s c bit8 place).part k).parent = (s.part k).parent := by
  cases place with
  | leftover p => exact (links_dolineLeftover s c p).parent k
  | boundary p last final =>
    exact congrArg Prod.fst (profile_dolineBoundary (hFound.lt_length hTree) c last final hOld)
  | «section» p => exact parent_dolineSection (hFound.section_lt_length hTree) c bit8 hOld

theorem openPath_dolineBoundary (hTree : Tree s) {front back : List Nat} {p last : Nat}
    (hPath : s.openPath = front ++ p :: last :: back) (c : List Byte) (final : Bool) :
    (dolineBoundary s c p last final).openPath =
      if final then front ++ [p] else front ++ [p, s.parts.length] := by
  unfold dolineBoundary
  cases final with
  | true =>
    have hCount := Keeps.updateCounts (v := Part.toPartLinks)
      (s.setPart last fun q => { q with workclosed := true })
      p ((s.part p).endpos + c.length)
      ((s.part p).endpos + c.length) 1 fun _ _ => rfl
    rw [if_pos rfl, if_pos rfl]
    exact hCount.openPath.trans (hTree.openPath_close hPath)
  | false =>
    rw [if_neg Bool.false_ne_true, if_neg Bool.false_ne_true]
    have hSame : SameLinks (appendPartNoinherit s p ((s.part p).endpos + c.length)) ((updateCounts
          (appendPart s p ((s.part p).endpos + c.length))
          p ((s.part p).endpos + c.length)
          ((s.part p).endpos + lineLength c) 1).setPart
            s.parts.length
            fun newp =>
              { newp with
                  mimeVersion := (s.part p).mimeVersion }) := by
      refine Keeps.trans (Keeps.setPart _ _ ?_) (Keeps.trans (Keeps.updateCounts _ p _ _ 1 ?_)
          (Keeps.setPart _ _ ?_))
      · exact fun _ => rfl
      · exact fun _ _ => rfl
      · exact fun _ => rfl
    exact hSame.openPath.trans (hTree.openPath_append hPath _)

theorem openPath_enterBody (hTree : Tree s) (hPath : s.openPath = front ++ [p]) :
    (enterBody s p).openPath = s.openPath ∨
      (enterBody s p).openPath = s.openPath ++ [s.parts.length] := by
  have hAppend : ∀ x, (appendPartNoinherit s p x).openPath = s.openPath ++ [s.parts.length] := by
    intro x
    rw [hTree.openPath_append hPath x, hPath, List.append_assoc, List.singleton_append]
  unfold enterBody
  split
  · exact Or.inr (hAppend _)
  · split
    · right
      have hSame : SameLinks (appendPartNoinherit s p (s.part p).startbody)
          ((appendPart s p (s.part p).startbody).setPart
            s.parts.length
            fun newp =>
              { newp with
                  workinheader := false
                  isdummy := true }) := by
        refine Keeps.trans (Keeps.setPart _ _ ?_) (Keeps.setPart _ _ ?_)
        all_goals exact fun _ => rfl
      exact hSame.openPath.trans (hAppend _)
    · exact Or.inl (Keeps.startSection (v := Part.toPartLinks) s p).openPath

/- A line of a part closes none, and opens a new one at most. -/
theorem dolineSection_openPath (hTree : Tree s) (hPath : s.openPath = front ++ [p])
    (c : List Byte) (bit8 : Bool) :
    (dolineSection s c bit8 p).openPath = s.openPath ∨
      (dolineSection s c bit8 p).openPath = s.openPath ++ [s.parts.length] := by
  have hLinks := links_headerEnd s c bit8 p
  unfold dolineSection
  split
  · split
    · have hEnter := openPath_enterBody (hTree.of_sameLinks hLinks) (hLinks.openPath.trans hPath)
      rw [hLinks.openPath, hLinks.length] at hEnter
      exact hEnter
    · have hFlag : SameLinks s (flagHeader s bit8 p) := Keeps.flagHeader s bit8 p fun _ _ => rfl
      exact Or.inl (hFlag.trans (links_dolineHeader _ c p)).openPath
  · exact Or.inl (links_dolineBody s c bit8 p).openPath

/- A line opens no part but a new one. -/
theorem mem_openPath_dolineAt {place : Place} (hTree : Tree s)
    (hFound : Found s c s.openPath place) (bit8 : Bool) {i : Nat}
    (hMem : i ∈ (dolineAt s c bit8 place).openPath) : i ∈ s.openPath ∨ s.parts.length ≤ i := by
  cases place with
  | leftover p =>
    left
    rw [← (links_dolineLeftover s c p).openPath]
    exact hMem
  | boundary p last final =>
    rcases hFound with ⟨⟨front, back, hPath⟩, _⟩
    have hNew : i ∈ if final then front ++ [p] else
        front ++ [p, s.parts.length] := by
      rw [← openPath_dolineBoundary hTree hPath c final]
      exact hMem
    have hFront : i ∈ front ++ [p] → i ∈ s.openPath := by
      intro hIn
      rw [hPath, List.append_cons]
      exact List.mem_append_left _ hIn
    cases final with
    | true => exact Or.inl (hFront hNew)
    | false =>
      rw [if_neg Bool.false_ne_true, List.append_cons] at hNew
      rcases List.mem_append.mp hNew with hIn | hLast
      · exact Or.inl (hFront hIn)
      · exact Or.inr (Nat.le_of_eq (List.mem_singleton.mp hLast).symm)
  | «section» p =>
    rcases hFound with ⟨⟨front, hPath⟩, _⟩
    have hSection : i ∈ (dolineSection s c bit8 p).openPath := hMem
    rcases dolineSection_openPath hTree hPath c bit8 with hSame | hMore
    · exact Or.inl (hSame ▸ hSection)
    · rcases List.mem_append.mp (hMore ▸ hSection) with hOld | hNew
      · exact Or.inl hOld
      · exact Or.inr (Nat.le_of_eq (List.mem_singleton.mp hNew).symm)

/- After a line, the look-ahead passes over every open part. -/
theorem doline_quiet (hTree : Tree t) (hCalm : Calm t) (hParts : t.numparts ≤ maxParts)
    {i : Nat} (hMem : i ∈ (doline t).openPath) : Quiet (doline t) i := by
  have hStart : SameLinks t t.start.1 := Keeps.start t fun _ _ => rfl
  have hTreeStart := hTree.of_sameLinks hStart
  have hFound := hTree.found (cleanLine t.workbuf)
  unfold doline at hMem ⊢
  rw [if_neg (Nat.not_lt.mpr hParts)] at hMem ⊢
  simp only [] at hMem ⊢
  generalize t.workbuf.any (fun b => 128 ≤ b) = bit8 at hMem ⊢
  generalize hPlace : locate t.start.1 (cleanLine t.workbuf) t.start.2 = place at hMem ⊢ hFound
  have hFlag := informdata_dolineAt hTreeStart hFound bit8 i
  rcases mem_openPath_dolineAt hTreeStart hFound bit8 hMem with hOld | hNew
  · have hLess := hTreeStart.openPath_lt hOld
    have hUp := parent_dolineAt hTreeStart hFound bit8 hLess
    rw [hStart.openPath] at hOld
    have hQuiet := start_quiet hTree hCalm hOld
    intro q hParent
    rw [hUp] at hParent
    have hInner : place ≠ .section q := by
      rintro rfl
      exact hTreeStart.leaf hFound.2 i hParent
    have hProfile := profile_dolineAt hTreeStart hFound bit8
      (hTreeStart.parent_lt_length hLess hParent) hInner
    have hInfo := congrArg (fun v => v.2.1) hProfile
    have hHeader := congrArg (fun v => v.2.2.1) hProfile
    have hBoundary : ((dolineAt t.start.1 (cleanLine t.workbuf) bit8
          place).part q).boundary = (t.start.1.part q).boundary :=
      congrArg MimeInfo.boundary hInfo
    rcases hQuiet q hParent with hNone | hIn | hClear
    · exact Or.inl (hBoundary.trans hNone)
    · exact Or.inr (Or.inl (hHeader.trans hIn))
    · exact Or.inr (Or.inr (hFlag.trans hClear))
  · intro q _hParent
    right
    right
    rw [hFlag, St.part_of_length_le hNew]
    rfl

------------
-- Runs
------------

/- The state on which `doline` is called. -/
def lineState (s : St) : St :=
  { s with workbuf := s.workbuf ++ [nl] }

/-
  `doline` is called on `t` in the run, after the bytes `fed`
  of the message.
-/
def IsLineCall (s : St) (calls : List Call) (fed : List Byte) (t : St) : Prop :=
  ∃ before front after rest, calls = before ++ .parse (front ++ nl :: after) :: rest ∧
      fed = before.flatMap Call.input ++ (front ++ [nl]) ∧ t = lineState
          (front.foldl parseByte (runCalls s before))

/- What is in `workbuf` begins where a line of the input does. -/
def AtLineStart (fed : List Byte) (t : St) : Prop :=
  ∃ done, fed = done ++ t.workbuf ∧ (done = [] ∨ done.getLast? = some nl)

/-
  The innermost open part is directly inside a multipart, so
  that the look-ahead can see it.
-/
def Shielded (t : St) : Prop :=
  ∃ front q inner, t.openPath = front ++ [q, inner] ∧ (t.part q).boundary ≠ none ∧
      (t.part q).workinheader = false

/-
  A later fragment of a long line that is not blank inside a
  header, and that the look-ahead shields from the boundaries
  unless it begins like no boundary line.
-/
def FragmentSafe (t : St) : Prop :=
  ¬ HeaderEnd t ∧ (Shielded t ∨ ¬ BoundaryLine t)

/-
  The invariant of a run: the look-ahead sees the innermost
  part only, and does so in the middle of a line.
-/
structure Watched (s : St) (fed : List Byte) : Prop where
  tracked : Tracked s fed.length
  calm : s.numparts ≤ maxParts → Calm s
  buffered : ∃ done, fed = done ++ s.workbuf ∧ (done = [] ∨ done.getLast? = some nl ∨
        ∀ front inner, s.openPath = front ++ [inner] → (s.part inner).informdata = true)

theorem Watched.tree {fed : List Byte} (hWatched : Watched s fed) : Tree s := by
  rcases hWatched.tracked with ⟨here, hPlaced, _⟩
  exact hPlaced.tree

theorem parseByte_watched {fed : List Byte} (hWatched : Watched s fed) (b : Byte) :
    Watched (parseByte s b) (fed ++ [b]) := by
  have hTracked := parseByte_tracked hWatched.tracked b
  rw [← List.length_singleton (a := b), ← List.length_append] at hTracked
  refine ⟨hTracked, ?_, ?_⟩
  · unfold parseByte
    simp only []
    split
    · intro hFew
      have hTree : Tree { s with workbuf := s.workbuf ++ [b] } :=
        hWatched.tree.of_sameLinks (Keeps.of_parts_eq rfl)
      have hParts : s.numparts ≤ maxParts := by
        by_contra hMany
        have hKept := numparts_doline (s := { s with workbuf := s.workbuf ++ [b] })
          (Nat.lt_of_not_le hMany)
        exact hMany (hKept ▸ hFew)
      intro i hMem
      exact doline_quiet hTree (hWatched.calm hParts) hParts (List.dropLast_subset _ hMem)
    · exact hWatched.calm
  · rcases hWatched.buffered with ⟨done, rfl, hStart⟩
    unfold parseByte
    simp only []
    split
    · rename_i hNl
      refine ⟨done ++ s.workbuf ++ [b], ?_, ?_⟩
      · exact (List.append_nil _).symm
      · right
        left
        rw [List.getLast?_concat, hNl]
    · exact ⟨done, List.append_assoc _ _ _, hStart⟩

/- Processing in part marks the innermost open part. -/
theorem informdata_parsePartial (hTree : Tree s) (hWork : s.workbuf ≠ []) {inner : Nat}
    (hPath : s.openPath = front ++ [inner]) (k : Nat) :
    ((parsePartial s).part k).informdata = if k = inner then true else (s.part k).informdata := by
  have hInner : s.openPath.getLastD 0 = inner := by rw [hPath, List.getLastD_concat]
  have hLess : inner < s.parts.length := by
    apply hTree.openPath_lt
    rw [hPath]
    exact List.mem_append_right _ List.mem_cons_self
  have hCounted : Keeps Part.informdata s (updateCounts
        (scanPartial s inner (partialLength s)) inner
        ((s.part inner).endpos + partialLength s)
        ((s.part inner).endpos + partialLength s) 0) :=
    (Keeps.scanPartial s _ _ fun _ _ => rfl).trans (Keeps.updateCounts _ _ _ _ 0 fun _ _ => rfl)
  unfold parsePartial
  rw [if_neg hWork, hInner]
  show (((updateCounts (scanPartial s inner (partialLength s)) inner
    ((s.part inner).endpos + partialLength s)
    ((s.part inner).endpos + partialLength s) 0).setPart inner
      fun q => { q with informdata := true }).part k).informdata = _
  by_cases hSelf : k = inner
  · rw [if_pos hSelf, hSelf, St.part_setPart_self]
    rw [hCounted.length]
    exact hLess
  · rw [if_neg hSelf, St.part_setPart_ne _ hSelf]
    exact hCounted.same k

theorem parsePartial_watched {fed : List Byte} (hWatched : Watched s fed) :
    Watched (parsePartial s) fed := by
  by_cases hWork : s.workbuf = []
  · have hSame : parsePartial s = s := by
      unfold parsePartial
      rw [if_pos hWork]
    rw [hSame]
    exact hWatched
  · have hTree := hWatched.tree
    have hLinks : SameLinks s (parsePartial s) :=
      Keeps.parsePartial s (fun _ _ => rfl) (fun _ _ => rfl) fun _ _ => rfl
    have hProfile : Keeps Part.profile s (parsePartial s) :=
      Keeps.parsePartial s (fun _ _ => rfl) (fun _ _ => rfl) fun _ _ => rfl
    refine ⟨parsePartial_tracked hWatched.tracked, ?_, ?_⟩
    · rw [numparts_parsePartial]
      intro hParts i hMem
      rw [hLinks.openPath] at hMem
      have hQuiet := hWatched.calm hParts i hMem
      rcases hTree.getLastD_openPath with ⟨front, hPath⟩
      have hNodup := hTree.openPath_nodup
      rw [hPath, List.dropLast_concat] at hMem
      rw [hPath] at hNodup
      have hNe : i ≠ s.openPath.getLastD 0 := by
        intro hEq
        have hApart := (List.nodup_append.mp hNodup).2.2
        exact hApart i hMem _ List.mem_cons_self hEq
      intro q hParent
      rw [hLinks.parent] at hParent
      have hInfo := congrArg (fun v => v.2.1.boundary) (hProfile.same q)
      have hHeader := congrArg (fun v => v.2.2.1) (hProfile.same q)
      simp only [Part.profile] at hInfo hHeader
      rw [hInfo, hHeader, informdata_parsePartial hTree hWork hPath, if_neg hNe]
      exact hQuiet q hParent
    · rcases hWatched.buffered with ⟨done, rfl, _hStart⟩
      refine ⟨done ++ s.workbuf.take (partialLength s), ?_, ?_⟩
      · unfold parsePartial
        rw [if_neg hWork, List.append_assoc]
        simp only [List.take_append_drop]
      · right
        right
        intro front inner hPath
        rw [hLinks.openPath] at hPath
        rw [informdata_parsePartial hTree hWork hPath, if_pos rfl]

theorem watched_kept : Kept fun fed s => Watched s fed where
  byte := parseByte_watched
  rest := parsePartial_watched

theorem newParser_watched (rewriting inReformime : Bool) :
    Watched (newParser rewriting inReformime) [] := by
  refine ⟨newParser_tracked rewriting inReformime, ?_, ?_⟩
  · intro _hParts i hMem
    rw [newParser_openPath] at hMem
    cases hMem
  · refine ⟨[], ?_, Or.inl rfl⟩
    cases rewriting <;> rfl

/- In the middle of a line, the shielded part is found. -/
theorem start_shielded (hTree : Tree t) (hCalm : Calm t) (hShielded : Shielded t) (hFlag :
      ∀ front inner, t.openPath = front ++ [inner] → (t.part inner).informdata = true) :
    ∃ inner, t.start.2 = [inner] := by
  rcases hShielded with ⟨front, q, inner, hPath, hBoundary, hHeader⟩
  have hDescent := hTree.openPath_isDescent
  rw [hPath] at hDescent
  have hQuiet : ∀ i, i ∈ front ++ [q] → Quiet t i := by
    intro i hIn
    apply hCalm i
    rw [hPath, List.append_cons, List.dropLast_concat]
    exact hIn
  have hMarked := hFlag (front ++ [q]) inner (by
    rw [hPath, List.append_cons])
  have hAhead := lookAhead_calm hDescent hQuiet
  rw [← hPath, hMarked, hHeader, if_pos rfl, if_neg (by simp [hBoundary])] at hAhead
  refine ⟨inner, ?_⟩
  unfold St.start
  rw [hAhead]

/- Nothing is opened or closed between two lines. -/
theorem openPath_parsePartial (s : St) : (parsePartial s).openPath = s.openPath :=
  (Keeps.parsePartial (v := Part.toPartLinks) s
    (fun _ _ => rfl) (fun _ _ => rfl) fun _ _ => rfl).openPath

/-
  In every run whose later fragments of lines are safe, parts
  are opened and closed at the beginning of a line only: by a
  boundary line of an open part, or by the blank line that
  ends a header.
-/
theorem opened_at_line_start (rewriting inReformime : Bool) (calls : List Call) (hSafe :
      ∀ fed t, IsLineCall (newParser rewriting inReformime) calls fed t →
        ¬ AtLineStart fed t → FragmentSafe t) (fed : List Byte) (t : St)
    (hCall :
      IsLineCall (newParser rewriting inReformime) calls fed t)
    (hChange : (doline t).openPath ≠ t.openPath) :
    AtLineStart fed t ∧ (BoundaryLine t ∨ HeaderEnd t) := by
  have hSafeHere := hSafe fed t hCall
  rcases hCall with ⟨before, front, after, rest, _hCalls, hFed, hState⟩
  have hWatched := watched_kept.bytes _ (watched_kept.runCalls []
      (newParser_watched rewriting inReformime) before) front
  generalize front.foldl parseByte (runCalls (newParser rewriting inReformime) before) = s
    at hWatched hState
  have hTree : Tree t := by
    rw [hState]
    exact hWatched.tree.of_sameLinks (Keeps.of_parts_eq rfl)
  have hReason := doline_openPath hTree hChange
  have hBoundary : (∃ p last final, locate t.start.1 (cleanLine t.workbuf) t.start.2 =
          .boundary p last final) → BoundaryLine t := by
    rintro ⟨p, last, final, hPlace⟩
    exact boundaryLine_of_locate hTree hPlace
  have hAtStart : AtLineStart fed t := by
    by_contra hMiddle
    rcases hSafeHere hMiddle with ⟨hNoEnd, hShield⟩
    rcases hReason with hPlace | hEnd
    · rcases hShield with hShielded | hNoLine
      · have hParts : t.numparts ≤ maxParts := by
          by_contra hMany
          exact hChange (doline_samePlaces (Nat.lt_of_not_le hMany)).toSameLinks.openPath
        have hFlag : ∀ front inner, t.openPath = front ++ [inner] →
              (t.part inner).informdata = true := by
          rcases hWatched.buffered with ⟨done, hDone, hStart⟩
          have hLine : fed = done ++ t.workbuf := by
            rw [List.nil_append] at hDone
            rw [hFed, ← List.append_assoc, hDone, hState, lineState, List.append_assoc]
          rcases hStart with hNone | hNewline | hMarked
          · exact absurd ⟨done, hLine, Or.inl hNone⟩ hMiddle
          · exact absurd ⟨done, hLine, Or.inr hNewline⟩ hMiddle
          · rw [hState]
            exact hMarked
        have hCalm : Calm t := by
          rw [hState] at hParts ⊢
          exact hWatched.calm hParts
        rcases start_shielded hTree hCalm hShielded hFlag with ⟨inner, hPath⟩
        rcases hPlace with ⟨p, last, final, hPlace⟩
        rw [hPath] at hPlace
        unfold locate at hPlace
        split at hPlace <;> cases hPlace
      · exact hNoLine (hBoundary hPlace)
    · exact hNoEnd hEnd
  exact ⟨hAtStart, hReason.imp_left hBoundary⟩

/- Bytes without a newline wait in the buffer. -/
theorem parseBytes_wait (s : St) {buf : List Byte} (hLine : nl ∉ buf) :
    buf.foldl parseByte s = { s with workbuf := s.workbuf ++ buf } := by
  induction buf generalizing s with
  | nil =>
    rw [List.append_nil]
    rfl
  | cons b rest ih =>
    have hNe : b ≠ nl := by
      rintro rfl
      exact hLine List.mem_cons_self
    have hByte : parseByte s b = { s with workbuf := s.workbuf ++ [b] } := by
      unfold parseByte
      rw [if_neg hNe]
    have hRest : nl ∉ rest := by
      intro hMem
      exact hLine (List.mem_cons_of_mem b hMem)
    rw [List.foldl_cons, hByte, ih _ hRest, List.append_assoc, List.singleton_append]

/- A long beginning of a line is processed in part. -/
theorem parse_long {buf line : List Byte} (hWork : (buf.foldl parseByte s).workbuf = [])
    (hLine : nl ∉ line) (hLong : 1024 < line.length) :
    parse s (buf ++ line) = parsePartial { buf.foldl parseByte s with workbuf := line } := by
  unfold parse
  rw [List.foldl_append, parseBytes_wait _ hLine, hWork, List.nil_append]
  exact if_pos hLong

/- The same, as the only call. -/
theorem runCalls_long {buf line : List Byte} (hWork : (buf.foldl parseByte s).workbuf = [])
    (hLine : nl ∉ line) (hLong : 1024 < line.length) :
    runCalls s [.parse (buf ++ line)] = parsePartial
        { buf.foldl parseByte s with workbuf := line } :=
  parse_long hWork hLine hLong

/- A message in one call comes line by line. -/
theorem atLineStart_of_single {rewriting inReformime : Bool} {buf fed : List Byte} (hCall :
      IsLineCall (newParser rewriting inReformime) [.parse buf] fed t) :
    AtLineStart fed t := by
  rcases hCall with ⟨before, front, after, rest, hCalls, hFed, hState⟩
  have hBefore : before = [] := by
    cases before with
    | nil => rfl
    | cons call more => cases more <;> simp at hCalls
  subst hBefore
  have hLines : ∃ done, front = done ++ (front.foldl parseByte
          (newParser rewriting inReformime)).workbuf ∧
          (done = [] ∨ done.getLast? = some nl) := by
    clear hCalls hFed hState
    induction front using List.reverseRecOn with
    | nil =>
      refine ⟨[], ?_, Or.inl rfl⟩
      cases rewriting <;> rfl
    | append_singleton front b ih =>
      rcases ih with ⟨done, hDone, hStart⟩
      rw [List.foldl_append]
      generalize front.foldl parseByte (newParser rewriting inReformime) = s at hDone ⊢
      rw [hDone]
      show ∃ more, done ++ s.workbuf ++ [b] = more ++ (parseByte s b).workbuf ∧ _
      unfold parseByte
      simp only []
      split
      · rename_i hNl
        refine ⟨done ++ s.workbuf ++ [b], (List.append_nil _).symm, Or.inr ?_⟩
        rw [List.getLast?_concat, hNl]
      · exact ⟨done, List.append_assoc _ _ _, hStart⟩
  rcases hLines with ⟨done, hDone, hStart⟩
  refine ⟨done, ?_, hStart⟩
  rw [hFed, hState]
  show front ++ [nl] = _
  conv_lhs =>
    rw [hDone]
  exact List.append_assoc _ _ _

/- The first boundary line of a message in one call. -/
theorem opened_at_line_start_first :
    let t := lineState (firstBoundary.dropLast.foldl parseByte (newParser false false))
    AtLineStart firstBoundary t ∧ (BoundaryLine t ∨ HeaderEnd t) := by
  apply opened_at_line_start false false
    [.parse firstBoundary]
  · intro fed t hCall hMiddle
    exact absurd (atLineStart_of_single hCall) hMiddle
  · refine ⟨[], firstBoundary.dropLast, [], [], ?_, ?_, rfl⟩
    · decide
    · decide
  · decide

/- A message inside a multipart, up to its empty header. -/
def nestedMessage : List Byte :=
  firstBoundary ++ bytes "Content-Type: message/rfc822\n" ++ bytes "\n\n"

/- A line that is longer than the work buffer. -/
def longLine : List Byte :=
  List.replicate 1100 (chr 'G')

/-
  The rest of a long line in a nested message is taken for a
  boundary line of the multipart around it.
-/
set_option maxRecDepth 8000 in
theorem opened_in_long_line : ∃ fed t, IsLineCall (newParser false false)
          [.parse (nestedMessage ++ longLine),
            .parse (bytes "--b\n")] fed t ∧
        (doline t).openPath ≠ t.openPath ∧ ¬ AtLineStart fed t := by
  have hLine : nl ∉ longLine := by
    intro hMem
    have hSame := List.eq_of_mem_replicate hMem
    revert hSame
    decide
  have hLong : 1024 < longLine.length := by
    unfold longLine
    rw [List.length_replicate]
    decide
  have hWork : (nestedMessage.foldl parseByte (newParser false false)).workbuf = [] := by decide
  have hFirst : runCalls (newParser false false)
          [.parse (nestedMessage ++ longLine)] =
        parsePartial
          { nestedMessage.foldl parseByte
              (newParser false false) with
            workbuf := longLine } :=
    runCalls_long hWork hLine hLong
  refine ⟨nestedMessage ++ longLine ++ bytes "--b\n", _,
    ⟨[.parse (nestedMessage ++ longLine)], bytes "--b", [],
      [], rfl, ?_, rfl⟩, ?_, ?_⟩
  · rw [List.flatMap_singleton]
    rfl
  · rw [hFirst]
    decide
  · rintro ⟨done, hDone, hStart⟩
    rw [hFirst] at hDone
    have hBuffer :
        (lineState ((bytes "--b").foldl parseByte
          (parsePartial
            { nestedMessage.foldl parseByte
                (newParser false false) with
              workbuf := longLine }))).workbuf =
          bytes "--b\n" := by
      decide
    rw [hBuffer] at hDone
    have hFront := List.append_cancel_right hDone
    rw [← hFront] at hStart
    revert hStart
    decide

end Wmail.Rfc2045
