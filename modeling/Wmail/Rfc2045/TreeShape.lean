import Wmail.Core.Nesting
import Wmail.Rfc2045.LineStep

/-
  Places of the parts in the message.

  The parser builds an outline from left to right: a line
  lengthens the open parts, a boundary line leaves some of
  them and may enter a new one, and the end of a header
  starts a body, with a first part in it or not.

  Key theorems include:
    * `tree_wellFormed`
    * `endbody_le`
-/

namespace Wmail.Rfc2045

open Links Nesting

/- The places of a part. -/
def PartCounts.extent (p : PartCounts) : Extent where
  start := p.startpos
  body := p.startbody
  bodyEnd := p.endbody
  stop := p.endpos

/- The places of all parts. -/
def St.outline (s : St) : Outline where
  size := s.parts.length
  parent := fun i => (s.part i).parent
  extent := fun i => (s.part i).extent
  path := s.openPath

/-
  The parts form a tree, and the open ones end `here`.  The
  body of a part may lack a `\r\n` at its end.
-/
structure Placed (s : St) (here : Nat) : Prop where
  tree : Tree s
  growing : s.outline.Growing 2 here

theorem Keeps.outline {s t : St} (hSame : SamePlaces s t) : t.outline = s.outline := by
  apply Outline.ext
  · exact hSame.length
  · exact funext hSame.toSameLinks.parent
  · funext k
    exact congrArg PartCounts.extent (hSame.counts k)
  · exact hSame.toSameLinks.openPath

variable {here : Nat}

theorem Placed.of_samePlaces {s t : St} (hPlaced : Placed s here) (hSame : SamePlaces s t) :
    Placed t here where
  tree := hPlaced.tree.of_sameLinks hSame.toSameLinks
  growing := hSame.outline ▸ hPlaced.growing

variable {s : St}

theorem Placed.endpos {here p : Nat} (hPlaced : Placed s here) (hMem : p ∈ s.openPath) :
    (s.part p).endpos = here :=
  hPlaced.growing.atEnd p hMem

variable {p : Nat}

/- A part without a last part has no parts in it. -/
theorem Tree.leaf (hTree : Tree s) (hLast : (s.part p).lastpart = none) (i : Nat) :
    (s.part i).parent ≠ some p := by
  intro hParent
  rcases hTree.newest i p hParent with ⟨last, hSome, _⟩
  rw [hLast] at hSome
  cases hSome

theorem Tree.path_outer (hTree : Tree s) {front back : List Nat} {p i q : Nat}
    (hPath : s.openPath = front ++ p :: back) (hMem : i ∈ front ++ [p])
    (hParent : (s.part i).parent = some q) : q ∈ front ++ [p] := by
  have hDescent := hTree.openPath_isDescent
  have hHead := Tree.head?_openPath s
  rw [hPath] at hDescent hHead
  have hUp := hDescent.append_cons
  cases front with
  | nil =>
    cases hHead
    rw [List.mem_singleton.mp hMem, hTree.root] at hParent
    cases hParent
  | cons k rest =>
    cases hHead
    rcases List.mem_cons.mp hMem with rfl | hRest
    · rw [hTree.root] at hParent
      cases hParent
    · exact hUp.up_mem hRest hParent

------------
-- Outline Steps
------------

variable {front : List Nat}

/- Counting a line lengthens the open parts. -/
theorem Placed.updateCounts {here stop bodyEnd : Nat} (hPlaced : Placed s here)
    (hPath : s.openPath = front ++ [p]) (hBodyEnd : here ≤ bodyEnd) (hStop : bodyEnd ≤ stop)
    (hSlack : stop ≤ bodyEnd + 2) (nlines : Nat) :
    Placed (updateCounts s p stop bodyEnd nlines) stop := by
  have hSame : SameLinks s (Rfc2045.updateCounts s p stop bodyEnd nlines) :=
    Keeps.updateCounts s p stop bodyEnd nlines fun _ _ => rfl
  refine ⟨hPlaced.tree.of_sameLinks hSame, ?_⟩
  have hOutline : (Rfc2045.updateCounts s p stop bodyEnd nlines).outline =
        s.outline.grow bodyEnd stop := by
    apply Outline.ext
    · exact hSame.length
    · exact funext hSame.parent
    · funext k
      have hPart := hPlaced.tree.part_setUpward hPath (Part.count stop bodyEnd nlines) k
      show ((s.setUpward p (Part.count stop bodyEnd nlines)).part k).extent = _
      rw [hPart]
      simp only [Outline.grow, St.outline, hPath]
      split <;> rfl
    · exact hSame.openPath
  rw [hOutline]
  exact hPlaced.growing.grow hBodyEnd hStop hSlack

theorem Placed.leave (hPlaced : Placed s here) {front back : List Nat}
    (hPath : s.openPath = front ++ p :: back) :
    (s.outline.leave (front ++ [p])).Growing 2 here := by
  apply hPlaced.growing.leave
  · intro i hMem
    show i ∈ s.openPath
    rw [hPath, List.append_cons]
    exact List.mem_append_left _ hMem
  · intro i q hMem hUp
    exact hPlaced.tree.path_outer hPath hMem hUp

/- Closing a part leaves everything inside it. -/
theorem Placed.close (hPlaced : Placed s here) {front back : List Nat} {p last : Nat}
    (hPath : s.openPath = front ++ p :: last :: back) :
    Placed (s.setPart last fun q => { q with workclosed := true })
      here := by
  have hPart := St.part_setPart s last (f := fun q => { q with workclosed := true })
  have hParent : ∀ k, ((s.setPart last fun q => { q with workclosed := true }).part k).parent =
        (s.part k).parent := by
    intro k
    rw [hPart]
    split <;> rfl
  refine ⟨?_, ?_⟩
  · exact hPlaced.tree.close last
  · have hOutline : (s.setPart last fun q => { q with workclosed := true }).outline =
          s.outline.leave (front ++ [p]) := by
      apply Outline.ext
      · exact St.length_setPart s last _
      · exact funext hParent
      · funext k
        show ((s.setPart last fun q => { q with workclosed := true }).part k).extent = _
        rw [hPart]
        split <;> rfl
      · exact hPlaced.tree.openPath_close hPath
    rw [hOutline]
    exact hPlaced.leave hPath

/- Every open part is inside the parts before it. -/
theorem Placed.innermost (hPlaced : Placed s here) {front back : List Nat} {p i : Nat}
    (hPath : s.openPath = front ++ p :: back) (hMem : i ∈ front ++ [p]) :
    (s.part i).parent ≠ some p := by
  intro hParent
  have hBelow := hPlaced.tree.parent_lt i p hParent
  have hFalls := hPlaced.tree.openPath_isChain.pairwise hPlaced.tree.openLast_falls
  have hLess : i < s.parts.length := by
    apply hPlaced.tree.openPath_lt
    rw [hPath, List.append_cons]
    exact List.mem_append_left _ hMem
  rw [hPath] at hFalls
  rcases List.mem_append.mp hMem with hFront | hLast
  · have hOrder := (List.pairwise_append.mp hFalls).2.2 i hFront p List.mem_cons_self
    omega
  · have hSame := List.mem_singleton.mp hLast
    omega

/- The outline with a new part in it. -/
theorem Placed.outline_append (hPlaced : Placed s here) {front back : List Nat}
    (hPath : s.openPath = front ++ p :: back) (startpos : Nat) :
    (appendPartNoinherit s p startpos).outline =
      (s.outline.leave (front ++ [p])).enter p startpos := by
  have hLess : p < s.parts.length := by
    apply hPlaced.tree.openPath_lt
    rw [hPath]
    exact List.mem_append_right _ List.mem_cons_self
  have hPart := part_appendPartNoinherit hLess startpos
  apply Outline.ext
  · exact length_appendPartNoinherit s p startpos
  · funext k
    show ((appendPartNoinherit s p startpos).part k).parent =
      if k = s.parts.length then some p else (s.part k).parent
    rw [hPart]
    by_cases hNew : k = s.parts.length
    · rw [if_pos hNew, if_pos hNew]
      rfl
    · rw [if_neg hNew, if_neg hNew]
      split <;> rfl
  · funext k
    show ((appendPartNoinherit s p startpos).part k).extent =
      if k = s.parts.length then ⟨startpos, startpos, startpos, startpos⟩ else (s.part k).extent
    rw [hPart]
    by_cases hNew : k = s.parts.length
    · rw [if_pos hNew, if_pos hNew]
      rfl
    · rw [if_neg hNew, if_neg hNew]
      split <;> rfl
  · show (appendPartNoinherit s p startpos).openPath = front ++ [p] ++ [s.parts.length]
    rw [hPlaced.tree.openPath_append hPath, List.append_assoc, List.singleton_append]

/- A new part is entered at the end of the innermost one. -/
theorem Placed.append (hPlaced : Placed s here) (hPath : s.openPath = front ++ [p]) :
    Placed (appendPartNoinherit s p here) here := by
  have hMem : p ∈ front ++ [p] := List.mem_append_right _ (List.mem_singleton_self p)
  have hLess := hPlaced.tree.openPath_lt (hPath ▸ hMem)
  refine ⟨hPlaced.tree.append hLess here, ?_⟩
  rw [hPlaced.outline_append hPath]
  exact (hPlaced.leave hPath).enter hMem fun i => hPlaced.innermost hPath

/-
  A boundary line: a new part behind the line, and the parts
  around it lengthened by the line.
-/
theorem Placed.nextPart {s t : St} {here stop bodyEnd : Nat} (hPlaced : Placed s here)
    {front back : List Nat} (hPath : s.openPath = front ++ p :: back)
    (hNew : SamePlaces (appendPartNoinherit s p stop) t) (hBodyEnd : here ≤ bodyEnd)
    (hStop : bodyEnd ≤ stop) (hSlack : stop ≤ bodyEnd + 2) (nlines : Nat) :
    Placed (Rfc2045.updateCounts t p stop bodyEnd nlines)
      stop := by
  have hMem : p ∈ front ++ [p] := List.mem_append_right _ (List.mem_singleton_self p)
  have hAll : ∀ i, i ∈ front ++ [p] → i < s.parts.length := by
    intro i hIn
    apply hPlaced.tree.openPath_lt
    rw [hPath, List.append_cons]
    exact List.mem_append_left _ hIn
  have hTree : Tree t :=
    (hPlaced.tree.append (hAll p hMem) stop).of_sameLinks hNew.toSameLinks
  have hNewPath : t.openPath = front ++ [p, s.parts.length] :=
    hNew.toSameLinks.openPath.trans (hPlaced.tree.openPath_append hPath stop)
  have hSame : SameLinks t (Rfc2045.updateCounts t p stop bodyEnd nlines) :=
    Keeps.updateCounts t p stop bodyEnd nlines fun _ _ => rfl
  refine ⟨hTree.of_sameLinks hSame, ?_⟩
  have hAppend : t.outline = (s.outline.leave (front ++ [p])).enter p stop :=
    hNew.outline.trans (hPlaced.outline_append hPath stop)
  have hOutline : (Rfc2045.updateCounts t p stop bodyEnd nlines).outline =
        ((s.outline.leave (front ++ [p])).grow bodyEnd stop).enter p stop := by
    apply Outline.ext
    · exact hSame.length.trans (congrArg Outline.size hAppend)
    · exact (funext hSame.parent).trans (congrArg Outline.parent hAppend)
    · funext k
      have hPart := hTree.part_setUpward hNewPath (Part.count stop bodyEnd nlines) k
      have hOld : (t.part k).extent =
            if k = s.parts.length then ⟨stop, stop, stop, stop⟩ else (s.part k).extent :=
        congrFun (congrArg Outline.extent hAppend) k
      show ((t.setUpward p (Part.count stop bodyEnd nlines)).part k).extent =
          if k = s.parts.length then
            ⟨stop, stop, stop, stop⟩
          else if k ∈ front ++ [p] then
            { (s.part k).extent with
                bodyEnd := bodyEnd, stop := stop }
          else
            (s.part k).extent
      rw [hPart]
      by_cases hIn : k ∈ front ++ [p]
      · have hNe := Nat.ne_of_lt (hAll k hIn)
        rw [if_pos hIn, if_neg hNe, if_pos hIn]
        rw [if_neg hNe] at hOld
        rw [← hOld]
        rfl
      · rw [if_neg hIn, hOld, if_neg hIn]
    · show (Rfc2045.updateCounts t p stop bodyEnd
          nlines).openPath = front ++ [p] ++ [s.parts.length]
      rw [hSame.openPath, hNewPath, List.append_assoc, List.singleton_append]
  rw [hOutline]
  apply ((hPlaced.leave hPath).grow hBodyEnd hStop hSlack).enter
  · exact hMem
  · intro i
    exact hPlaced.innermost hPath

/- The body of a part without parts starts at its end. -/
theorem Placed.startBody {s t : St} (hPlaced : Placed s here)
    (hPath : s.openPath = front ++ [p]) (hLast : (s.part p).lastpart = none)
    (hEnd : (s.part p).endbody = here) (hSame : SameLinks s t)
    (hExtent :
      ∀ k, (t.part k).extent =
        if k = p then { (s.part k).extent with body := here } else (s.part k).extent) :
    Placed t here := by
  have hMem : p ∈ s.openPath := by
    rw [hPath]
    exact List.mem_append_right _ (List.mem_singleton_self p)
  have hStop := hPlaced.endpos hMem
  refine ⟨hPlaced.tree.of_sameLinks hSame, ?_⟩
  have hOutline : t.outline = s.outline.startBody p := by
    apply Outline.ext
    · exact hSame.length
    · exact funext hSame.parent
    · funext k
      show (t.part k).extent =
        if k = p then
          { (s.part k).extent with
              body := (s.part k).extent.stop }
        else
          (s.part k).extent
      rw [hExtent]
      by_cases hSelf : k = p
      · rw [if_pos hSelf, if_pos hSelf, hSelf]
        rw [← hStop]
        rfl
      · rw [if_neg hSelf, if_neg hSelf]
    · exact hSame.openPath
  rw [hOutline]
  apply hPlaced.growing.startBody
  · exact hEnd.trans hStop.symm
  · intro i _hSize
    exact hPlaced.tree.leaf hLast i

------------
-- One Line
------------

theorem lineLength_le (c : List Byte) : lineLength c ≤ c.length := by
  unfold lineLength
  simp only []
  split <;> omega

theorem length_le_lineLength (c : List Byte) : c.length ≤ lineLength c + 2 := by
  unfold lineLength
  simp only []
  split <;> omega

theorem bodyLength_le (s : St) (c : List Byte) (p : Nat) : bodyLength s c p ≤ c.length := by
  unfold bodyLength
  split
  · exact lineLength_le c
  · exact Nat.le_refl _

theorem length_le_bodyLength (s : St) (c : List Byte) (p : Nat) :
    c.length ≤ bodyLength s c p + 2 := by
  unfold bodyLength
  split
  · exact length_le_lineLength c
  · exact Nat.le_add_right _ _

theorem Placed.mem_innermost (hPath : s.openPath = front ++ [p]) : p ∈ s.openPath := by
  rw [hPath]
  exact List.mem_append_right _ (List.mem_singleton_self p)

theorem dolineBody_placed {here p : Nat} (hPlaced : Placed s here)
    (hPath : s.openPath = front ++ [p]) (c : List Byte) (bit8 : Bool) :
    Placed (dolineBody s c bit8 p) (here + c.length) := by
  have hSame : SamePlaces s (scanBody (flagContent s bit8 p) c p) :=
    (Keeps.flagContent s bit8 p fun _ _ => rfl).trans (Keeps.scanBody _ c p fun _ _ => rfl)
  have hLength := bodyLength_le s c p
  have hSlack := length_le_bodyLength s c p
  unfold dolineBody
  simp only []
  rw [hPlaced.endpos (Placed.mem_innermost hPath)]
  apply (hPlaced.of_samePlaces hSame).updateCounts (hSame.toSameLinks.openPath.trans hPath)
  · omega
  · omega
  · omega

theorem dolineLeftover_placed {here p : Nat} (hPlaced : Placed s here)
    (hPath : s.openPath = front ++ [p]) (c : List Byte) :
    Placed (dolineLeftover s c p) (here + c.length) := by
  have hLength := lineLength_le c
  have hSlack := length_le_lineLength c
  unfold dolineLeftover
  simp only []
  rw [hPlaced.endpos (Placed.mem_innermost hPath)]
  apply hPlaced.updateCounts hPath
  · omega
  · omega
  · omega

theorem dolineHeader_placed {here p : Nat} (hPlaced : Placed s here)
    (hPath : s.openPath = front ++ [p]) (c : List Byte) :
    Placed (dolineHeader s c p) (here + c.length) := by
  have hLength := lineLength_le c
  have hSlack := length_le_lineLength c
  unfold dolineHeader
  simp only []
  rw [hPlaced.endpos (Placed.mem_innermost hPath)]
  apply Placed.of_samePlaces _ (Keeps.collectHeader _ c p (fun _ _ => rfl)
      (fun _ _ => rfl) fun _ _ => rfl)
  apply hPlaced.updateCounts hPath
  · omega
  · omega
  · omega

theorem dolineBoundary_placed {here p last : Nat} {front back : List Nat}
    (hPlaced : Placed s here) (hPath : s.openPath = front ++ p :: last :: back)
    (c : List Byte) (final : Bool) :
    Placed (dolineBoundary s c p last final) (here + c.length) := by
  have hLength := lineLength_le c
  have hSlack := length_le_lineLength c
  have hMem : p ∈ s.openPath := by
    rw [hPath]
    exact List.mem_append_right _ List.mem_cons_self
  unfold dolineBoundary
  simp only []
  rw [hPlaced.endpos hMem]
  cases final with
  | true =>
    rw [if_pos rfl]
    apply (hPlaced.close hPath).updateCounts (hPlaced.tree.openPath_close hPath)
    · omega
    · omega
    · omega
  | false =>
    rw [if_neg Bool.false_ne_true]
    have hSame : SamePlaces (appendPartNoinherit s p (here + c.length))
        (appendPart s p (here + c.length)) :=
      Keeps.setPart _ _ fun _ => rfl
    have hNext := hPlaced.nextPart hPath hSame (Nat.le_add_right here (lineLength c))
      (by omega) (by omega) 1
    apply hNext.of_samePlaces
    exact Keeps.setPart _ _ fun _ => rfl

theorem startBody_placed {here p : Nat} (hPlaced : Placed s here)
    (hPath : s.openPath = front ++ [p]) (hLast : (s.part p).lastpart = none)
    (c : List Byte) : Placed (startBody s c p) (here + c.length) := by
  have hMem := Placed.mem_innermost hPath
  have hLess := hPlaced.tree.openPath_lt hMem
  have hIn : p ∈ front ++ [p] := hPath ▸ hMem
  have hEndpos := hPlaced.endpos hMem
  have hBegun : SameLinks s (s.setPart p fun q =>
          { q with
              workinheader := false
              startbody := here + c.length }) :=
    Keeps.setPart s p fun _ => rfl
  have hCounted := hPlaced.tree.part_setUpward hPath
    (Part.count (here + c.length) (here + c.length) 1)
  have hBegunCounted :=
    (hPlaced.tree.of_sameLinks hBegun).part_setUpward
      (hBegun.openPath.trans hPath)
      (Part.count (here + c.length) (here + c.length) 1)
  have hGrown : Placed (updateCounts s p (here + c.length) (here + c.length) 1) (here + c.length) :=
    hPlaced.updateCounts hPath (Nat.le_add_right _ _) (Nat.le_refl _) (Nat.le_add_right _ _) 1
  have hGrownLinks : SameLinks s (updateCounts s p (here + c.length) (here + c.length) 1) :=
    Keeps.updateCounts s p _ _ 1 fun _ _ => rfl
  have hGrownPath := hGrownLinks.openPath.trans hPath
  apply hGrown.startBody hGrownPath
  · exact (hGrownLinks.lastpart p).trans hLast
  · show ((s.setUpward p (Part.count _ _ 1)).part p).endbody = _
    rw [hCounted, if_pos hIn]
    rfl
  · exact hGrownLinks.symm.trans (links_startBody s c p)
  · intro k
    unfold startBody
    simp only []
    rw [hEndpos]
    unfold updateCounts
    rw [St.part_setPart, St.length_setUpward, St.length_setPart, hBegunCounted, hCounted,
      St.part_setPart]
    by_cases hSelf : k = p
    · subst hSelf
      simp only [hLess, hIn, and_self, if_true]
      rfl
    · simp only [hSelf, false_and, if_false]

theorem enterBody_placed {here p : Nat} (hPlaced : Placed s here)
    (hPath : s.openPath = front ++ [p]) (hBody : (s.part p).startbody = here) :
    Placed (enterBody s p) here := by
  unfold enterBody
  rw [hBody]
  split
  · exact hPlaced.append hPath
  · split
    · apply (hPlaced.append hPath).of_samePlaces
      refine Keeps.trans (Keeps.setPart _ _ ?_) (Keeps.setPart _ _ ?_)
      all_goals exact fun _ => rfl
    · exact hPlaced.of_samePlaces (Keeps.startSection s p)

theorem startBody_startbody {here p : Nat} (hPlaced : Placed s here)
    (hPath : s.openPath = front ++ [p]) (c : List Byte) :
    ((startBody s c p).part p).startbody = here + c.length := by
  have hMem := Placed.mem_innermost hPath
  have hLess := hPlaced.tree.openPath_lt hMem
  have hIn : p ∈ front ++ [p] := hPath ▸ hMem
  have hBegun : SameLinks s (s.setPart p fun q =>
          { q with
              workinheader := false
              startbody := here + c.length }) :=
    Keeps.setPart s p fun _ => rfl
  unfold startBody
  simp only []
  rw [hPlaced.endpos hMem]
  unfold updateCounts
  rw [St.part_setPart, St.length_setUpward, St.length_setPart,
    (hPlaced.tree.of_sameLinks hBegun).part_setUpward (hBegun.openPath.trans hPath),
    St.part_setPart]
  simp only [hLess, hIn, and_self, if_true]
  rfl

theorem dolineHeaderEnd_placed {here p : Nat} (hPlaced : Placed s here)
    (hPath : s.openPath = front ++ [p]) (hLast : (s.part p).lastpart = none)
    (c : List Byte) : Placed (dolineHeaderEnd s c p) (here + c.length) := by
  have hSame : SamePlaces s (dolineDoHeader s p) :=
    Keeps.dolineDoHeader s p (fun _ _ => rfl) fun _ _ => rfl
  have hParsed := hPlaced.of_samePlaces hSame
  have hParsedPath := hSame.toSameLinks.openPath.trans hPath
  have hParsedLast := (hSame.toSameLinks.lastpart p).trans hLast
  have hBody := startBody_placed hParsed hParsedPath hParsedLast c
  have hBodyPath :=
    (links_startBody (dolineDoHeader s p) c p).openPath.trans hParsedPath
  exact enterBody_placed hBody hBodyPath (startBody_startbody hParsed hParsedPath c)

theorem dolineSection_placed {here p : Nat} (hPlaced : Placed s here)
    (hPath : s.openPath = front ++ [p]) (hLast : (s.part p).lastpart = none) (c : List Byte)
    (bit8 : Bool) : Placed (dolineSection s c bit8 p) (here + c.length) := by
  have hSame : SamePlaces s (flagHeader s bit8 p) := Keeps.flagHeader s bit8 p fun _ _ => rfl
  have hFlagged := hPlaced.of_samePlaces hSame
  have hFlaggedPath := hSame.toSameLinks.openPath.trans hPath
  have hFlaggedLast := (hSame.toSameLinks.lastpart p).trans hLast
  unfold dolineSection
  split
  · split
    · exact dolineHeaderEnd_placed hFlagged hFlaggedPath hFlaggedLast c
    · exact dolineHeader_placed hFlagged hFlaggedPath c
  · exact dolineBody_placed hPlaced hPath c bit8

theorem dolineAt_placed {c : List Byte} {place : Place} (hPlaced : Placed s here)
    (hFound : Found s c s.openPath place) (bit8 : Bool) :
    Placed (dolineAt s c bit8 place) (here + c.length) := by
  cases place with
  | leftover p =>
    rcases hFound with ⟨⟨front, hPath⟩, _hLast⟩
    exact dolineLeftover_placed hPlaced hPath c
  | boundary p last final =>
    rcases hFound with ⟨⟨front, back, hPath⟩, _hMatch⟩
    exact dolineBoundary_placed hPlaced hPath c final
  | «section» p =>
    rcases hFound with ⟨⟨front, hPath⟩, hLast⟩
    exact dolineSection_placed hPlaced hPath hLast c bit8

/- What `locate` finds, after the look-ahead. -/
theorem Tree.found (hTree : Tree s) (c : List Byte) :
    Found s.start.1 c s.start.1.openPath (locate s.start.1 c s.start.2) := by
  have hPath := start_path s hTree.openPath_isChain.ne_nil
  have hSame : s.start.1.openPath = s.openPath := Keeps.openPath (Keeps.start s fun _ _ => rfl)
  rw [hSame]
  exact (locate_found s.start.1 c hPath.2).of_suffix hPath.1

/- One line lengthens the open parts by its length. -/
theorem doline_placed (hPlaced : Placed s here) (hParts : s.numparts ≤ maxParts) :
    Placed (doline s) (here + s.workbuf.length) := by
  have hLength : (cleanLine s.workbuf).length = s.workbuf.length := List.length_map _
  unfold doline
  rw [if_neg (Nat.not_lt.mpr hParts), ← hLength]
  exact dolineAt_placed (hPlaced.of_samePlaces (Keeps.start s fun _ _ => rfl))
    (hPlaced.tree.found _) _

/- Beyond the limit of parts, a line moves nothing. -/
theorem doline_samePlaces {s : St} (hParts : maxParts < s.numparts) : SamePlaces s (doline s) := by
  unfold doline
  rw [if_pos hParts]
  exact Keeps.setPart _ _ fun _ => rfl

------------
-- Whole Runs
------------

/- A call of one of the two entry points. -/
inductive Call where
  | parse (buf : List Byte)
  | parsePartial
deriving DecidableEq, Repr

/- What a call does. -/
def Call.run (s : St) : Call → St
  | .parse buf => Rfc2045.parse s buf
  | .parsePartial => Rfc2045.parsePartial s

/- The bytes that a call brings. -/
def Call.input : Call → List Byte
  | .parse buf => buf
  | .parsePartial => []

/- Consecutive calls. -/
def runCalls (s : St) (calls : List Call) : St :=
  calls.foldl Call.run s

/-
  The outline is right, and its end is the end of what has
  been fed and does not wait in `workbuf`.
-/
def Tracked (s : St) (fed : Nat) : Prop :=
  ∃ here, Placed s here ∧ (s.numparts ≤ maxParts → here + s.workbuf.length = fed)

theorem Placed.with_workbuf (hPlaced : Placed s here) (workbuf : List Byte) :
    Placed { s with workbuf := workbuf } here :=
  hPlaced.of_samePlaces (Keeps.of_parts_eq rfl)

theorem numparts_doline {s : St} (hParts : maxParts < s.numparts) :
    (doline s).numparts = s.numparts := by
  unfold doline
  rw [if_pos hParts]
  rfl

/-
  A byte makes the outline longer by a line at most, which
  has been fed; it does so unless there are too many parts.
-/
theorem parseByte_placed (hPlaced : Placed s here) (b : Byte) :
    ∃ next, Placed (parseByte s b) next ∧
      next + (parseByte s b).workbuf.length ≤ here + s.workbuf.length + 1 ∧
      ((parseByte s b).numparts ≤ maxParts →
        s.numparts ≤ maxParts ∧
          next + (parseByte s b).workbuf.length = here + s.workbuf.length + 1) := by
  have hAdded := hPlaced.with_workbuf (s.workbuf ++ [b])
  have hLength : (s.workbuf ++ [b]).length = s.workbuf.length + 1 := List.length_append
  unfold parseByte
  simp only []
  split
  · by_cases hParts : s.numparts ≤ maxParts
    · refine ⟨_, (doline_placed hAdded hParts).with_workbuf [], ?_, ?_⟩
      · exact Nat.le_of_eq (congrArg (here + ·) hLength)
      · intro _hParts
        exact ⟨hParts, congrArg (here + ·) hLength⟩
    · have hMany : maxParts < s.numparts := Nat.lt_of_not_le hParts
      have hSame := doline_samePlaces (s := { s with workbuf := s.workbuf ++ [b] }) hMany
      refine ⟨here, (hAdded.of_samePlaces hSame).with_workbuf [], ?_, ?_⟩
      · show here ≤ here + s.workbuf.length + 1
        omega
      · intro hFew
        have hKept := numparts_doline (s := { s with workbuf := s.workbuf ++ [b] }) hMany
        exact absurd (hKept ▸ hFew) hParts
  · refine ⟨here, hAdded, ?_, ?_⟩
    · exact Nat.le_of_eq (congrArg (here + ·) hLength)
    · intro hParts
      exact ⟨hParts, congrArg (here + ·) hLength⟩

theorem parseByte_tracked {fed : Nat} (hTracked : Tracked s fed) (b : Byte) :
    Tracked (parseByte s b) (fed + 1) := by
  rcases hTracked with ⟨here, hPlaced, hHere⟩
  rcases parseByte_placed hPlaced b with ⟨next, hNext, _hLess, hExact⟩
  refine ⟨next, hNext, ?_⟩
  intro hParts
  rcases hExact hParts with ⟨hBefore, hSame⟩
  rw [hSame, hHere hBefore]

theorem partialLength_le (s : St) : partialLength s ≤ s.workbuf.length := by
  unfold partialLength
  split <;> omega

theorem Tree.getLastD_openPath (hTree : Tree s) :
    ∃ front, s.openPath = front ++ [s.openPath.getLastD 0] := by
  have hNe := hTree.openPath_isChain.ne_nil
  refine ⟨s.openPath.dropLast, ?_⟩
  rw [List.getLastD_eq_getLast?, List.getLast?_eq_some_getLast hNe,
    Option.getD_some, List.dropLast_append_getLast hNe]

/- Processing in part lengthens the open parts as well. -/
theorem parsePartial_placed (hPlaced : Placed s here) (hWork : s.workbuf ≠ []) :
    Placed (parsePartial s) (here + partialLength s) := by
  rcases hPlaced.tree.getLastD_openPath with ⟨front, hPath⟩
  have hScan : SamePlaces s (scanPartial s (s.openPath.getLastD 0) (partialLength s)) :=
    Keeps.scanPartial s _ _ fun _ _ => rfl
  have hCounted :=
    (hPlaced.of_samePlaces hScan).updateCounts
      (hScan.toSameLinks.openPath.trans hPath)
      (Nat.le_add_right here (partialLength s))
      (Nat.le_refl _) (Nat.le_add_right _ _) 0
  have hMarked := hCounted.of_samePlaces (Keeps.setPart _ (s.openPath.getLastD 0)
      (f := fun q => { q with informdata := true })
      fun _ => rfl)
  unfold parsePartial
  rw [if_neg hWork]
  simp only []
  rw [hPlaced.endpos (Placed.mem_innermost hPath)]
  exact hMarked.with_workbuf _

theorem parsePartial_tracked {fed : Nat} (hTracked : Tracked s fed) :
    Tracked (parsePartial s) fed := by
  rcases hTracked with ⟨here, hPlaced, hHere⟩
  by_cases hEmpty : s.workbuf = []
  · unfold parsePartial
    rw [if_pos hEmpty]
    exact ⟨here, hPlaced, hHere⟩
  · have hLength := partialLength_le s
    refine ⟨here + partialLength s, parsePartial_placed hPlaced hEmpty, ?_⟩
    rw [numparts_parsePartial]
    intro hParts
    have hBefore := hHere hParts
    unfold parsePartial
    rw [if_neg hEmpty]
    simp only [List.length_drop]
    omega

/-
  What every byte and every partial processing keeps, with
  the bytes that have been fed.
-/
structure Kept (P : List Byte → St → Prop) : Prop where
  byte : ∀ {fed s}, P fed s → ∀ b, P (fed ++ [b]) (parseByte s b)
  rest : ∀ {fed s}, P fed s → P fed (parsePartial s)

namespace Kept

variable {P : List Byte → St → Prop} {s : St}

theorem bytes (hKept : Kept P) (fed : List Byte) (hState : P fed s) (buf : List Byte) :
    P (fed ++ buf) (buf.foldl parseByte s) := by
  induction buf generalizing s fed with
  | nil =>
    rw [List.append_nil]
    exact hState
  | cons b rest ih =>
    have hRest := ih (fed ++ [b]) (hKept.byte hState b)
    rw [List.append_assoc, List.singleton_append] at hRest
    exact hRest

theorem parse (hKept : Kept P) (fed : List Byte) (hState : P fed s) (buf : List Byte) :
    P (fed ++ buf) (parse s buf) := by
  have hLines := hKept.bytes fed hState buf
  unfold Rfc2045.parse
  simp only []
  split
  · exact hKept.rest hLines
  · exact hLines

theorem call (hKept : Kept P) (fed : List Byte) (hState : P fed s) (call : Call) :
    P (fed ++ call.input) (call.run s) := by
  cases call with
  | parse buf => exact hKept.parse fed hState buf
  | parsePartial =>
    show P (fed ++ []) (parsePartial s)
    rw [List.append_nil]
    exact hKept.rest hState

/- Whole runs keep it. -/
theorem runCalls (hKept : Kept P) (fed : List Byte) (hState : P fed s) (calls : List Call) :
    P (fed ++ calls.flatMap Call.input) (runCalls s calls) := by
  induction calls generalizing s fed with
  | nil =>
    rw [List.flatMap_nil, List.append_nil]
    exact hState
  | cons call rest ih =>
    have hRest := ih (fed ++ call.input) (hKept.call fed hState call)
    rw [List.append_assoc, ← List.flatMap_cons] at hRest
    exact hRest

end Kept

/- Counted from bytes that were fed before. -/
theorem tracked_kept (start : Nat) : Kept fun fed s => Tracked s (start + fed.length) where
  byte := by
    intro fed s hTracked b
    rw [List.length_append, ← Nat.add_assoc]
    exact parseByte_tracked hTracked b
  rest := parsePartial_tracked

/- A parser, with the scan for rewriting or without it. -/
def newParser (rewriting inReformime : Bool) : St :=
  if rewriting then allocAc inReformime else alloc inReformime

theorem newParser_parts (rewriting inReformime : Bool) : (newParser rewriting inReformime).parts =
      [Part.alloc] := by
  cases rewriting <;> rfl

theorem newParser_part (rewriting inReformime : Bool) (i : Nat) :
    (newParser rewriting inReformime).part i = Part.alloc := by
  unfold St.part
  rw [newParser_parts]
  cases i <;> rfl

theorem newParser_openPath (rewriting inReformime : Bool) :
    (newParser rewriting inReformime).openPath = [0] := by
  cases rewriting <;> rfl

theorem newParser_placed (rewriting inReformime : Bool) :
    Placed (newParser rewriting inReformime) 0 := by
  have hParts := newParser_parts rewriting inReformime
  have hPart := newParser_part rewriting inReformime
  have hLength : (newParser rewriting inReformime).parts.length = 1 := by
    rw [hParts]
    rfl
  have hNoParent : ∀ i, ((newParser rewriting inReformime).part i).parent = none := by
    intro i
    rw [hPart]
    rfl
  constructor
  · constructor
    · omega
    · exact hNoParent 0
    · intro i p hParent
      cases (hNoParent i).symm.trans hParent
    · intro i hLess _hParent
      omega
    · intro p last hLast
      rw [hPart] at hLast
      cases hLast
    · intro i p hParent
      cases (hNoParent i).symm.trans hParent
  · have hOnly : ∀ i, i ∈ (newParser rewriting inReformime).openPath → i = 0 := by
      intro i hMem
      rw [newParser_openPath] at hMem
      exact List.mem_singleton.mp hMem
    constructor
    · constructor
      · intro i _hSize
        show ((newParser rewriting inReformime).part i).extent.Ordered 2
        rw [hPart]
        simp [Part.alloc, PartCounts.extent, Extent.Ordered]
      · intro i p _hSize hParent
        cases (hNoParent i).symm.trans hParent
      · intro i j p _hLess _hSize hParent
        cases (hNoParent i).symm.trans hParent
    · intro p hMem
      rw [hOnly p hMem]
      show 0 < (newParser rewriting inReformime).parts.length
      omega
    · intro p _hMem
      show ((newParser rewriting inReformime).part p).endpos = 0
      rw [hPart]
      rfl
    · intro i p _hSize hParent
      cases (hNoParent i).symm.trans hParent
    · intro i p _hMem hParent
      cases (hNoParent i).symm.trans hParent
    · intro i j p _hMem _hSize hParent
      cases (hNoParent i).symm.trans hParent

theorem newParser_tracked (rewriting inReformime : Bool) :
    Tracked (newParser rewriting inReformime) 0 := by
  refine ⟨0, newParser_placed rewriting inReformime, ?_⟩
  intro _hParts
  cases rewriting <;> rfl

/- The outline does not reach beyond what has been fed. -/
def Reached (s : St) (fed : Nat) : Prop :=
  ∃ here, Placed s here ∧ here + s.workbuf.length ≤ fed

theorem reached_kept : Kept fun fed s => Reached s fed.length where
  byte := by
    rintro fed s ⟨here, hPlaced, hHere⟩ b
    rcases parseByte_placed hPlaced b with ⟨next, hNext, hLess, _hExact⟩
    refine ⟨next, hNext, Nat.le_trans hLess ?_⟩
    rw [List.length_append]
    exact Nat.succ_le_succ hHere
  rest := by
    rintro fed s ⟨here, hPlaced, hHere⟩
    by_cases hEmpty : s.workbuf = []
    · unfold parsePartial
      rw [if_pos hEmpty]
      exact ⟨here, hPlaced, hHere⟩
    · have hLength := partialLength_le s
      refine ⟨here + partialLength s, parsePartial_placed hPlaced hEmpty, ?_⟩
      unfold parsePartial
      rw [if_neg hEmpty]
      simp only [List.length_drop]
      omega

theorem Placed.endpos_le (hPlaced : Placed s here) {i : Nat} (hSize : i < s.parts.length) :
    (s.part i).endpos ≤ here := by
  apply hPlaced.growing.stop_le hPlaced.tree.parent_lt ?_ hSize
  intro k hLess hNone
  rw [hPlaced.tree.orphan k hLess hNone]
  exact List.mem_of_mem_head? (Tree.head?_openPath s)

/- The body of every part is in the message. -/
theorem endbody_le (rewriting inReformime : Bool) (calls : List Call) (i : Nat) :
    ((runCalls (newParser rewriting inReformime) calls).part i).endbody ≤
      (calls.flatMap Call.input).length := by
  have hStart : Reached (newParser rewriting inReformime) 0 := by
    refine ⟨0, newParser_placed rewriting inReformime, ?_⟩
    cases rewriting with
    | true => exact Nat.le_refl 0
    | false => exact Nat.le_refl 0
  have hReached := reached_kept.runCalls [] hStart calls
  rcases hReached with ⟨here, hPlaced, hHere⟩
  by_cases hSize : i < (runCalls (newParser rewriting inReformime) calls).parts.length
  · have hOrdered := hPlaced.growing.nested.ordered i hSize
    have hEnd := hPlaced.endpos_le hSize
    have hBody : _ ≤ here := Nat.le_trans hOrdered.2.2.1 hEnd
    exact Nat.le_trans hBody (Nat.le_trans (Nat.le_add_right here _) hHere)
  · rw [St.part_of_length_le (Nat.le_of_not_lt hSize)]
    exact Nat.zero_le _

/-
  The places of a part are in order, a part is between the
  start of the body and the end of the part around it, which
  is at most a `\r\n` behind the end of its body, and siblings
  follow each other.
-/
structure WellFormed (s : St) : Prop where
  ordered : ∀ i, i < s.parts.length → (s.part i).startpos ≤ (s.part i).startbody ∧
        (s.part i).startbody ≤ (s.part i).endbody ∧
          (s.part i).endbody ≤ (s.part i).endpos ∧ (s.part i).endpos ≤ (s.part i).endbody + 2
  inside : ∀ i p, i < s.parts.length → (s.part i).parent = some p →
      (s.part p).startbody ≤ (s.part i).startpos ∧ (s.part i).endpos ≤ (s.part p).endpos
  apart : ∀ i j p, i < j → j < s.parts.length → (s.part i).parent = some p →
        (s.part j).parent = some p → (s.part i).endpos ≤ (s.part j).startpos

theorem Placed.wellFormed (hPlaced : Placed s here) : WellFormed s where
  ordered := hPlaced.growing.nested.ordered
  inside := hPlaced.growing.nested.inside
  apart := hPlaced.growing.nested.apart

/-
  After any calls the tree is well formed, and unless there
  are too many parts the open parts end where the processed
  bytes end, which are all bytes outside of `workbuf`.
-/
theorem tree_wellFormed (rewriting inReformime : Bool) (calls : List Call) :
    WellFormed (runCalls (newParser rewriting inReformime) calls) ∧
      ((runCalls (newParser rewriting inReformime)
          calls).numparts ≤ maxParts →
        ∀ p, p ∈ (runCalls (newParser rewriting inReformime) calls).openPath →
          ((runCalls (newParser rewriting inReformime)
              calls).part p).endpos +
              (runCalls (newParser rewriting inReformime)
                calls).workbuf.length =
            (calls.flatMap Call.input).length) := by
  have hTracked :=
    (tracked_kept 0).runCalls []
      (newParser_tracked rewriting inReformime) calls
  rcases hTracked with ⟨here, hPlaced, hHere⟩
  refine ⟨hPlaced.wellFormed, ?_⟩
  intro hParts p hMem
  rw [hPlaced.endpos hMem, hHere hParts, Nat.zero_add, List.nil_append]

/- A multipart message up to its first boundary line. -/
def firstBoundary : List Byte :=
  bytes "MIME-Version: 1.0\n" ++ bytes "Content-Type: multipart/mixed; boundary=b\n" ++
      bytes "\n--b\n"

/-
  A part need not be in the body of the part around it: the
  one behind the first boundary line begins after the end of
  the body of the multipart.
-/
theorem part_behind_body : ¬ ∀ i p, i < (parse (alloc false) firstBoundary).parts.length →
        ((parse (alloc false) firstBoundary).part i).parent = some p →
          ((parse (alloc false) firstBoundary).part
              p).startbody ≤
              ((parse (alloc false) firstBoundary).part
                i).startpos ∧
            ((parse (alloc false) firstBoundary).part
                i).endpos ≤
              ((parse (alloc false) firstBoundary).part
                p).endbody := by
  intro hInside
  have hPart := hInside 2 0 (by decide) (by decide)
  revert hPart
  decide

end Wmail.Rfc2045
