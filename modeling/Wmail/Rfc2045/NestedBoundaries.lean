import Wmail.Rfc2045.Inert
import Wmail.Rfc2045.TreeShape

/-
  Boundaries of multiparts inside each other.

  A boundary is compared with the boundaries around it when
  the header line with it is read, and the parts around it
  have their boundaries for good by then.

  Key theorems include:
    * `Checked.runCalls`
    * `nested_boundaries_apart`
-/

namespace Wmail.Rfc2045

open Links

namespace St

/- A part is nested, at any depth, in another one. -/
def Within (s : St) : Nat → Nat → Prop :=
  Relation.TransGen fun i p => (s.part i).parent = some p

/- The parts that `q=r->parent; q; q=q->parent` visits. -/
theorem mem_upward_tail {s : St} (hTree : Tree s) (i j : Nat) :
    j ∈ (s.upward i).tail ↔ s.Within i j := by
  have hChain : IsChain (fun q => (s.part q).parent) (s.upward i) :=
    isChain_follow hTree.parent_falls (Nat.le_refl i)
  have hHead : (s.upward i).head? = some i := head?_follow _ _ _
  cases hUp : s.upward i with
  | nil =>
    rw [hUp] at hHead
    cases hHead
  | cons k rest =>
    rw [hUp] at hHead hChain
    cases hHead
    exact hChain.mem_tail_iff

/- A part with parts in it has a last one. -/
theorem Within.lastpart {s : St} (hTree : Tree s) {i j : Nat} (hWithin : s.Within i j) :
    (s.part j).lastpart ≠ none := by
  rcases Relation.TransGen.tail'_iff.mp hWithin with ⟨k, _, hStep⟩
  intro hNone
  exact hTree.leaf hNone k hStep

/- Old parts stay where they are. -/
theorem Within.of_parent {s t : St} (hTree : Tree s)
    (hParent : ∀ i, i < s.parts.length → (t.part i).parent = (s.part i).parent) {i j : Nat}
    (hLess : i < s.parts.length) (hWithin : t.Within i j) : s.Within i j := by
  induction hWithin using Relation.TransGen.head_induction_on with
  | single hStep =>
    rw [hParent _ hLess] at hStep
    exact Relation.TransGen.single hStep
  | head hStep _hRest ih =>
    rw [hParent _ hLess] at hStep
    exact Relation.TransGen.head hStep (ih (hTree.parent_lt_length hLess hStep))

end St

/- A property that every parameter keeps. -/
theorem parseParameters_rule {α : Type} {P : α → Prop}
    {initParameter : α → List Byte → List Rfc822.Token → α}
    (hStep : ∀ r name value, P r → P (initParameter r name value)) (inReformime : Bool)
    (fuel : Nat) {r : α} (hStart : P r) (ts : List Rfc822.Token) :
    P (parseParameters inReformime initParameter fuel r ts) := by
  induction fuel generalizing r ts with
  | zero => exact hStart
  | succ fuel ih =>
    cases ts with
    | nil => exact hStart
    | cons first others =>
      unfold parseParameters
      simp only []
      split
      · exact ih (hStep _ _ _ hStart) _
      · exact ih hStart _

theorem parseContentHeader_rule {α : Type} {P : α → Prop} {initToken : α → List Byte → α}
    {initParameter : α → List Byte → List Rfc822.Token → α}
    (hToken : ∀ r value, P r → P (initToken r value))
    (hStep : ∀ r name value, P r → P (initParameter r name value)) (inReformime : Bool) {r : α}
    (hStart : P r) (ts : List Rfc822.Token) :
    P (parseContentHeader inReformime initToken initParameter r ts) :=
  parseParameters_rule hStep inReformime _ (hToken _ _ hStart) _

/- A string in lower case. -/
def Lowered (b : List Byte) : Prop :=
  b.map tolower = b

theorem lowered_lowerPasteTokens (ts : List Rfc822.Token) : Lowered (lowerPasteTokens ts) := by
  unfold Lowered lowerPasteTokens
  rw [List.map_map]
  apply List.map_congr_left
  intro c _hMem
  exact tolower_tolower c

/-
  A boundary was there before, or it is in lower case, and
  compared with the boundaries around it.
-/
def Compared (outer : List (List Byte)) (old : CString) (r : MimeInfo × Bool) : Prop :=
  ∀ b, r.1.boundary = some b → old = some b ∨ (Lowered b ∧ (r.2 = false →
          ∀ a, a ∈ outer → boundariesOverlap a b = false))

section Header

variable {outer : List (List Byte)} {p : MimeInfo}

theorem Compared.same {r : MimeInfo × Bool} (hSame : r.1.boundary = p.boundary) :
    Compared outer p.boundary r := by
  intro b hBoundary
  exact Or.inl (hSame.symm.trans hBoundary)

theorem Compared.ite {c : Prop} [Decidable c] {old : CString} {r t : MimeInfo × Bool}
    (hThen : Compared outer old r) (hElse : Compared outer old t) :
    Compared outer old (if c then r else t) := by
  split
  · exact hThen
  · exact hElse

theorem saveContentTypeParameter_compared {old : CString} {r : MimeInfo × Bool}
    (hCompared : Compared outer old r) (name : List Byte) (value : List Rfc822.Token) :
    Compared outer old (saveContentTypeParameter outer r name value) := by
  unfold saveContentTypeParameter
  simp only []
  split
  · intro b hBoundary
    right
    have hNew : lowerPasteTokens value = b := Option.some.inj hBoundary
    rw [← hNew]
    refine ⟨lowered_lowerPasteTokens value, ?_⟩
    intro hFlag a hMem
    have hNone := (Bool.or_eq_false_iff.mp hFlag).2
    have hApart := List.any_eq_false.mp hNone a hMem
    exact eq_false_of_ne_true hApart
  · exact hCompared

theorem contentDisposition_boundary (inReformime : Bool) (ts : List Rfc822.Token) :
    (contentDisposition inReformime p ts).boundary = p.boundary := by
  unfold contentDisposition
  apply parseContentHeader_rule (P := fun r : MimeInfo => r.boundary = p.boundary)
  · exact fun _ _ hSame => hSame
  · exact fun _ _ _ hSame => hSame
  · rfl

theorem contentId_boundary (ts : List Rfc822.Token) : (contentId p ts).boundary = p.boundary := by
  unfold contentId
  split
  · rfl
  · rfl

/- What a header line does to the boundary of its part. -/
theorem doHeader_boundary (inReformime : Bool) (header : List Byte) :
    Compared outer p.boundary (doHeader inReformime outer header p) := by
  have hType : ∀ ts, Compared outer p.boundary (contentType inReformime outer p ts) := by
    intro ts
    apply parseContentHeader_rule
    · intro r value hCompared
      exact hCompared
    · intro r name value hCompared
      exact saveContentTypeParameter_compared hCompared name value
    · exact Compared.same rfl
  unfold doHeader
  split
  · repeat' apply Compared.ite
    -- broken header, Mime-Version
    · exact Compared.same rfl
    · exact Compared.same rfl
    · exact hType _
    -- Content-Transfer-Encoding
    · exact Compared.same rfl
    · exact Compared.same (contentDisposition_boundary _ _)
    · exact Compared.same (contentId_boundary _)
    all_goals exact Compared.same rfl
  · exact Compared.same rfl

end Header

/- `RFC2045_ERRBADBOUNDARY` of the root. -/
def St.badBoundary (s : St) : Bool :=
  (s.part 0).rfcviolation.errbadboundary

/-
  Without the flag, boundaries of parts inside each other do
  not begin with each other.
-/
structure Checked (s : St) : Prop where
  tree : Tree s
  lowered : ∀ i b, (s.part i).boundary = some b → Lowered b
  apart : s.badBoundary = false → ∀ i j, s.Within i j →
        ∀ a b, (s.part j).boundary = some a → (s.part i).boundary = some b →
            boundariesOverlap a b = false

namespace Checked

variable {s t : St}

/- No new boundary, and old parts where they were. -/
theorem carry (hChecked : Checked s) (hTree : Tree t)
    (hParent : ∀ i, i < s.parts.length → (t.part i).parent = (s.part i).parent)
    (hBoundary : ∀ i b, (t.part i).boundary = some b → (s.part i).boundary = some b)
    (hFlag : t.badBoundary = s.badBoundary) :
    Checked t where
  tree := hTree
  lowered := by
    intro i b hSome
    exact hChecked.lowered i b (hBoundary i b hSome)
  apart := by
    intro hClear i j hWithin a b hOuter hInner
    have hOld := hBoundary i b hInner
    have hLess : i < s.parts.length := by
      by_contra hLarge
      rw [St.part_of_length_le (Nat.le_of_not_lt hLarge)] at hOld
      cases hOld
    apply hChecked.apart (hFlag.symm.trans hClear) i j
    · exact hWithin.of_parent hChecked.tree hParent hLess
    · exact hBoundary j a hOuter
    · exact hOld

/- A step that sets none of what is checked. -/
abbrev Unchecked (s t : St) : Prop :=
  Keeps (fun p => (p.toPartLinks, p.boundary, p.rfcviolation.errbadboundary)) s t

theorem keep (hChecked : Checked s) (hSame : Unchecked s t) : Checked t := by
  have hLinks : SameLinks s t := hSame.map fun v => v.1
  have hBoundary := (hSame.map fun v => v.2.1).same
  have hFlag := (hSame.map fun v => v.2.2).same 0
  apply hChecked.carry
  · exact hChecked.tree.of_sameLinks hLinks
  · intro i _hLess
    exact hLinks.parent i
  · intro i b hSome
    exact (hBoundary i).symm.trans hSome
  · exact hFlag

/- A new part has no boundary yet. -/
theorem append (hChecked : Checked s) {p : Nat} (hLess : p < s.parts.length)
    (startpos : Nat) : Checked (appendPartNoinherit s p startpos) := by
  apply hChecked.carry (hChecked.tree.append hLess startpos)
  · intro i hOld
    exact parent_append hLess startpos hOld
  · intro i b hSome
    have hSame := agree_append (v := fun q => q.boundary) hLess startpos rfl (fun _ _ => rfl) i
    exact hSame.symm.trans hSome
  · exact agree_append (v := fun q => q.rfcviolation.errbadboundary)
      hLess startpos rfl (fun _ _ => rfl) 0

/- A closed part keeps its boundary. -/
theorem close (hChecked : Checked s) (last : Nat) : Checked (s.setPart last fun q =>
        { q with workclosed := true }) := by
  have hKeeps := Keeps.setPart s last (v := fun q => (q.parent, q.boundary,
      q.rfcviolation.errbadboundary))
    (f := fun q => { q with workclosed := true })
    fun _ => rfl
  apply hChecked.carry (hChecked.tree.close last)
  · intro i _hLess
    exact (hKeeps.map fun v => v.1).same i
  · intro i b hSome
    exact ((hKeeps.map fun v => v.2.1).same i).symm.trans hSome
  · exact (hKeeps.map fun v => v.2.2).same 0

end Checked

/- What the complete header line of a part says. -/
def St.parsedHeader (s : St) (p : Nat) : MimeInfo × Bool :=
  doHeader s.inReformime ((s.upward p).tail.filterMap fun q => (s.part q).boundary)
    (s.part p).header (s.part p).toMimeInfo

theorem dolineDoHeader_boundary (s : St) (p i : Nat) : ((dolineDoHeader s p).part i).boundary =
      if i = p ∧ p < s.parts.length then
        (s.parsedHeader p).1.boundary
      else
        (s.part i).boundary := by
  have hSet : ((s.setPart p fun q =>
          { q with
              toMimeInfo := (s.parsedHeader p).1 }).part
        i).boundary =
        if i = p ∧ p < s.parts.length then
          (s.parsedHeader p).1.boundary
        else
          (s.part i).boundary := by
    rw [St.part_setPart]
    split
    · rfl
    · rfl
  by_cases hFlag : (s.parsedHeader p).2 = true
  · have hRoot := (Keeps.setPart (s.setPart p fun q =>
        { q with toMimeInfo := (s.parsedHeader p).1 }) 0
      (v := fun q => q.boundary)
      (f := fun root =>
        { root with rfcviolation :=
          { root.rfcviolation with errbadboundary := true } })
      fun _ => rfl).same i
    have hStep : dolineDoHeader s p = _ := if_pos hFlag
    rw [hStep]
    exact hRoot.trans hSet
  · have hStep : dolineDoHeader s p = _ := if_neg hFlag
    rw [hStep]
    exact hSet

/- The flag is set, and never cleared. -/
theorem dolineDoHeader_badBoundary {s : St} (hTree : Tree s) (p : Nat) :
    (dolineDoHeader s p).badBoundary = (s.badBoundary || (s.parsedHeader p).2) := by
  have hSet := (Keeps.setPart s p (v := fun q => q.rfcviolation.errbadboundary) (f := fun q =>
      { q with toMimeInfo := (s.parsedHeader p).1 })
    fun _ => rfl)
  cases hFlag : (s.parsedHeader p).2 with
  | true =>
    have hStep : dolineDoHeader s p = _ := if_pos hFlag
    rw [hStep, Bool.or_true]
    unfold St.badBoundary
    rw [St.part_setPart, if_pos]
    exact ⟨rfl, hSet.length.symm ▸ hTree.root_lt⟩
  | false =>
    have hStep : dolineDoHeader s p = _ := if_neg (hFlag ▸ Bool.false_ne_true)
    rw [hStep, Bool.or_false]
    exact hSet.same 0

namespace Checked

variable {s : St}

variable {p : Nat}

/-
  A header line of a part without parts: its boundary is
  compared with all around it, or the flag is set.
-/
theorem dolineDoHeader (hChecked : Checked s) (hLast : (s.part p).lastpart = none) :
    Checked (dolineDoHeader s p) := by
  have hCompared : Compared _ (s.part p).boundary (s.parsedHeader p) :=
    doHeader_boundary s.inReformime (s.part p).header
  have hLinks : SameLinks s (Rfc2045.dolineDoHeader s p) :=
    Keeps.dolineDoHeader s p (fun _ _ => rfl) fun _ _ => rfl
  have hBoundary := dolineDoHeader_boundary s p
  have hFlag := dolineDoHeader_badBoundary hChecked.tree p
  refine ⟨hChecked.tree.of_sameLinks hLinks, ?_, ?_⟩
  · intro i b hSome
    rw [hBoundary] at hSome
    split at hSome
    · rename_i hSelf
      rcases hCompared b hSome with hOld | ⟨hLow, _⟩
      · exact hChecked.lowered p b hOld
      · exact hLow
    · exact hChecked.lowered i b hSome
  · intro hClear i j hWithin a b hOuter hInner
    have hBefore : s.Within i j :=
      Relation.TransGen.mono (fun k q hStep => (hLinks.parent k).symm.trans hStep) i j hWithin
    rcases Bool.or_eq_false_iff.mp (hFlag.symm.trans hClear) with ⟨hRoot, hNone⟩
    -- the part with the header has no parts in it
    have hOther : j ≠ p := by
      rintro rfl
      exact hBefore.lastpart hChecked.tree hLast
    have hOld : (s.part j).boundary = some a := by
      rw [hBoundary, if_neg (fun hBoth => hOther hBoth.1)] at hOuter
      exact hOuter
    rw [hBoundary] at hInner
    split at hInner
    · rename_i hSelf
      rw [hSelf.1] at hBefore
      rcases hCompared b hInner with hKept | ⟨_, hApart⟩
      · exact hChecked.apart hRoot p j hBefore a b hOld hKept
      · apply hApart hNone a
        apply List.mem_filterMap.mpr
        refine ⟨j, ?_, hOld⟩
        exact (St.mem_upward_tail hChecked.tree p j).mpr hBefore
    · exact hChecked.apart hRoot i j hBefore a b hOld hInner

theorem flagHeader (hChecked : Checked s) (bit8 : Bool) (p : Nat) :
    Checked (flagHeader s bit8 p) := by
  unfold Rfc2045.flagHeader
  split
  · exact hChecked.keep (Keeps.setUpward s p fun _ => rfl)
  · exact hChecked

theorem flagContent (hChecked : Checked s) (bit8 : Bool) (p : Nat) :
    Checked (flagContent s bit8 p) := by
  unfold Rfc2045.flagContent
  split
  · exact hChecked.keep (Keeps.setUpward s p fun _ => rfl)
  · exact hChecked

theorem updateCounts (hChecked : Checked s) (p newcnt newendcnt nlines : Nat) :
    Checked (updateCounts s p newcnt newendcnt nlines) :=
  hChecked.keep (Keeps.updateCounts s p _ _ nlines fun _ _ => rfl)

theorem dolineBody (hChecked : Checked s) (c : List Byte) (bit8 : Bool) (p : Nat) :
    Checked (dolineBody s c bit8 p) := by
  apply updateCounts
  apply (hChecked.flagContent bit8 p).keep
  exact Keeps.scanBody _ c p fun _ _ => rfl

theorem dolineHeader (hChecked : Checked s) (hLast : (s.part p).lastpart = none)
    (c : List Byte) : Checked (dolineHeader s c p) := by
  have hLinks : SameLinks s (Rfc2045.updateCounts s p ((s.part p).endpos + c.length)
        ((s.part p).endpos + lineLength c) 1) :=
    Keeps.updateCounts s p _ _ 1 fun _ _ => rfl
  have hCounted := hChecked.updateCounts p ((s.part p).endpos + c.length)
    ((s.part p).endpos + lineLength c) 1
  unfold Rfc2045.dolineHeader collectHeader
  simp only []
  split
  · exact hCounted.keep (Keeps.setPart _ p fun _ => rfl)
  · apply (hCounted.dolineDoHeader ((hLinks.lastpart p).trans hLast)).keep
    exact Keeps.setPart _ p fun _ => rfl

/- The end of a header may drop the boundary. -/
theorem endHeader_boundary (parentType : CString) (p : MimeInfo) {b : List Byte}
    (hBoundary : (p.endHeader parentType).boundary = some b) : p.boundary = some b := by
  unfold MimeInfo.endHeader at hBoundary
  extract_lets first second at hBoundary
  have hFirst : first.boundary = some b → p.boundary = some b := by
    intro hSome
    by_cases hMime : isMime1 p.mimeVersion
    · have hSame : first = p := if_pos hMime
      exact hSame ▸ hSome
    · have hNone : first.boundary = none := congrArg MimeInfo.boundary (if_neg hMime)
      cases hNone.symm.trans hSome
  have hSecond : second.boundary = first.boundary := by
    by_cases hType : isMime1 first.mimeVersion ∧ first.contentType = none
    · have hStep : second = _ := if_pos hType
      rw [hStep]
    · have hStep : second = _ := if_neg hType
      rw [hStep]
  apply hFirst
  rw [← hSecond]
  split at hBoundary
  · cases hBoundary
  · split at hBoundary
    · exact hBoundary
    · cases hBoundary

theorem startBody (hChecked : Checked s) (c : List Byte) (p : Nat) : Checked (startBody s c p) := by
  have hLinks := links_startBody s c p
  generalize hStarted : Rfc2045.updateCounts (s.setPart p fun q =>
        { q with
            workinheader := false
            startbody := (s.part p).endpos + c.length })
      p ((s.part p).endpos + c.length)
      ((s.part p).endpos + c.length) 1 = t
  have hUnchecked : Unchecked s t := by
    rw [← hStarted]
    refine (Keeps.setPart s p ?_).trans (Keeps.updateCounts _ p _ _ 1 ?_)
    · exact fun _ => rfl
    · exact fun _ _ => rfl
  have hStarting := hChecked.keep hUnchecked
  have hStep : Rfc2045.startBody s c p = t.setPart p fun q =>
        { q with
            nbodylines := q.nbodylines - 1
            toMimeInfo :=
              q.toMimeInfo.endHeader (t.parentType p) } := by
    rw [← hStarted]
    rfl
  rw [hStep]
  have hKeeps := Keeps.setPart t p (v := fun q => (q.toPartLinks, q.rfcviolation.errbadboundary))
    (f := fun q =>
      { q with
          nbodylines := q.nbodylines - 1
          toMimeInfo :=
            q.toMimeInfo.endHeader (t.parentType p) })
    fun _ => rfl
  have hSame : SameLinks t _ := hKeeps.map fun v => v.1
  apply hStarting.carry
  · exact hStarting.tree.of_sameLinks hSame
  · intro i _hLess
    exact hSame.parent i
  · intro i b hSome
    rw [St.part_setPart] at hSome
    split at hSome
    · exact endHeader_boundary _ _ hSome
    · exact hSome
  · exact (hKeeps.map fun v => v.2).same 0

theorem enterBody (hChecked : Checked s) (hLess : p < s.parts.length) :
    Checked (enterBody s p) := by
  have hAppend := hChecked.append hLess (s.part p).startbody
  unfold Rfc2045.enterBody
  split
  · exact hAppend
  · split
    · apply hAppend.keep
      refine (Keeps.setPart _ s.parts.length ?_).trans (Keeps.setPart _ s.parts.length ?_)
      all_goals exact fun _ => rfl
    · exact hChecked.keep (Keeps.startSection s p)

theorem dolineBoundary (hChecked : Checked s) (hLess : p < s.parts.length) (c : List Byte)
    (last : Nat) (final : Bool) : Checked (dolineBoundary s c p last final) := by
  unfold Rfc2045.dolineBoundary
  cases final with
  | true => exact (hChecked.close last).updateCounts p _ _ 1
  | false =>
    apply (hChecked.append hLess ((s.part p).endpos + c.length)).keep
    refine (Keeps.setPart _ s.parts.length ?_).trans ((Keeps.updateCounts _ p _ _ 1 ?_).trans
        (Keeps.setPart _ s.parts.length ?_))
    · exact fun _ => rfl
    · exact fun _ _ => rfl
    · exact fun _ => rfl

theorem dolineSection (hChecked : Checked s) (hLess : p < s.parts.length)
    (hLast : (s.part p).lastpart = none) (c : List Byte) (bit8 : Bool) :
    Checked (dolineSection s c bit8 p) := by
  have hFlagged := hChecked.flagHeader bit8 p
  have hLinks : SameLinks s (Rfc2045.flagHeader s bit8 p) :=
    Keeps.flagHeader s bit8 p fun _ _ => rfl
  have hFlaggedLast := (hLinks.lastpart p).trans hLast
  unfold Rfc2045.dolineSection
  split
  · split
    · have hBegun : SameLinks s (Rfc2045.startBody (Rfc2045.dolineDoHeader
            (Rfc2045.flagHeader s bit8 p) p) c p) :=
        (hLinks.trans
          (Keeps.dolineDoHeader _ p (fun _ _ => rfl) fun _ _ => rfl)).trans (links_startBody _ c p)
      apply ((hFlagged.dolineDoHeader hFlaggedLast).startBody c p).enterBody
      rw [hBegun.length]
      exact hLess
    · exact hFlagged.dolineHeader hFlaggedLast c
  · exact hChecked.dolineBody c bit8 p

theorem dolineAt (hChecked : Checked s) {c : List Byte} {place : Place}
    (hFound : Found s c s.openPath place) (bit8 : Bool) : Checked (dolineAt s c bit8 place) := by
  cases place with
  | leftover p => exact hChecked.updateCounts p _ _ 1
  | boundary p last final =>
    exact hChecked.dolineBoundary (Found.lt_length hFound hChecked.tree) c last final
  | «section» p =>
    exact hChecked.dolineSection (Found.section_lt_length hFound hChecked.tree) hFound.2 c bit8

theorem doline (hChecked : Checked s) : Checked (doline s) := by
  unfold Rfc2045.doline
  split
  · exact hChecked.keep (Keeps.setPart s 0 fun _ => rfl)
  · have hStart : Checked s.start.1 := hChecked.keep (Keeps.start s fun _ _ => rfl)
    exact hStart.dolineAt (hChecked.tree.found _) _

theorem parsePartial (hChecked : Checked s) : Checked (parsePartial s) :=
  hChecked.keep (Keeps.parsePartial s (fun _ _ => rfl) (fun _ _ => rfl) fun _ _ => rfl)

theorem parseByte (hChecked : Checked s) (b : Byte) : Checked (parseByte s b) := by
  have hAdded : Checked { s with workbuf := s.workbuf ++ [b] } :=
    hChecked.keep (Keeps.of_parts_eq rfl)
  unfold Rfc2045.parseByte
  simp only []
  split
  · exact hAdded.doline.keep (Keeps.of_parts_eq rfl)
  · exact hAdded

theorem kept : Kept fun _ s => Checked s where
  byte := parseByte
  rest := parsePartial

theorem runCalls (hChecked : Checked s) (calls : List Call) : Checked (runCalls s calls) :=
  kept.runCalls [] hChecked calls

theorem newParser (rewriting inReformime : Bool) : Checked (newParser rewriting inReformime) := by
  have hNone : ∀ i b, ((Rfc2045.newParser rewriting inReformime).part i).boundary ≠ some b := by
    intro i b hSome
    rw [newParser_part] at hSome
    cases hSome
  refine ⟨(newParser_placed rewriting inReformime).tree, ?_, ?_⟩
  · intro i b hSome
    exact absurd hSome (hNone i b)
  · intro _hClear i j _hWithin a b _hOuter hInner
    exact absurd hInner (hNone i b)

end Checked

/-
  Unless the root is flagged, of two boundaries of parts
  inside each other none begins with the other, as boundary
  lines are matched.
-/
theorem nested_boundaries_apart (rewriting inReformime : Bool) (calls : List Call) (hClear :
      ((runCalls (newParser rewriting inReformime) calls).part
        0).rfcviolation.errbadboundary = false) {i j : Nat}
    (hWithin :
      (runCalls (newParser rewriting inReformime)
        calls).Within i j) {inner outer : List Byte}
    (hInner :
      ((runCalls (newParser rewriting inReformime)
        calls).part i).boundary = some inner)
    (hOuter :
      ((runCalls (newParser rewriting inReformime)
        calls).part j).boundary = some outer) :
    casePrefix inner outer = false ∧ casePrefix outer inner = false := by
  have hChecked := (Checked.newParser rewriting inReformime).runCalls calls
  have hApart := hChecked.apart hClear i j hWithin outer inner hOuter hInner
  have hLowInner := hChecked.lowered i inner hInner
  have hLowOuter := hChecked.lowered j outer hOuter
  unfold Lowered at hLowInner hLowOuter
  rcases Bool.or_eq_false_iff.mp hApart with ⟨hLeft, hRight⟩
  unfold casePrefix
  rw [hLowInner, hLowOuter]
  exact ⟨hRight, hLeft⟩

/- A multipart in a multipart. -/
def twoMultiparts : List Byte :=
  bytes "MIME-Version:1.0\n" ++
    bytes "Content-Type:multipart/a;boundary=X\n\n--x\n" ++
      bytes "Content-Type:multipart/a;boundary=Y\n\n"

set_option maxRecDepth 8000 in
theorem nested_boundaries_apart_twoMultiparts : casePrefix (bytes "y") (bytes "x") = false ∧
      casePrefix (bytes "x") (bytes "y") = false :=
  nested_boundaries_apart false false [.parse twoMultiparts] (i := 2) (j := 0) (by decide)
    (Relation.TransGen.single (by decide)) (by decide)
    (by decide)

end Wmail.Rfc2045
