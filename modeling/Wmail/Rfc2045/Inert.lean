import Wmail.Rfc2045.LineStep

/-
  Views of the parts that a line leaves alone.

  A line sets the links, the places, the header fields and the
  scan results of parts.  Of everything else, it sets the flag
  for eight-bit contents only.

  Key theorems include:
    * `Inert.dolineAt`
-/

namespace Wmail.Rfc2045

open Links

/- The view sees nothing of what a line sets in a part. -/
structure Inert {α : Type} (v : Part → α) : Prop where
  links : ∀ p links, v { p with toPartLinks := links } = v p
  counts : ∀ p counts, v { p with toPartCounts := counts } = v p
  info : ∀ p info, v { p with toMimeInfo := info } = v p
  scan : ∀ p scan, v { p with toPartScan := scan } = v p
  header : ∀ p line, v { p with header := line } = v p
  inHeader : ∀ p flag, v { p with workinheader := flag } = v p
  dummy : ∀ p flag, v { p with isdummy := flag } = v p
  headerFlag :
    ∀ p, v { p with rfcviolation :=
      { p.rfcviolation with err8bitheader := true } } = v p
  boundaryFlag :
    ∀ p, v { p with rfcviolation :=
      { p.rfcviolation with errbadboundary := true } } = v p

/- What a line at that place sets besides. -/
def St.flagged (s : St) (bit8 : Bool) : Place → St
  | .leftover _ => s
  | .boundary _ _ _ => s
  | .section p =>
    if (s.part p).workinheader then s else flagContent s bit8 p

theorem Found.lt_length {s : St} {c : List Byte} {p last : Nat} {final : Bool}
    (hFound : Found s c s.openPath (.boundary p last final)) (hTree : Tree s) :
    p < s.parts.length := by
  rcases hFound with ⟨⟨front, back, hPath⟩, _⟩
  apply hTree.openPath_lt
  rw [hPath]
  exact List.mem_append_right _ List.mem_cons_self

theorem Found.section_lt_length {s : St} {c : List Byte} {p : Nat}
    (hFound : Found s c s.openPath (.section p)) (hTree : Tree s) : p < s.parts.length := by
  rcases hFound with ⟨⟨front, hPath⟩, _⟩
  apply hTree.openPath_lt
  rw [hPath]
  exact List.mem_append_right _ List.mem_cons_self

namespace Inert

variable {α : Type} {v : Part → α}

theorem flagHeader (hInert : Inert v) (s : St) (bit8 : Bool) (p : Nat) :
    Keeps v s (flagHeader s bit8 p) := by
  unfold Rfc2045.flagHeader
  split
  · exact Keeps.setUpward s p hInert.headerFlag
  · exact Keeps.refl s

theorem dolineDoHeader (hInert : Inert v) (s : St) (p : Nat) : Keeps v s (dolineDoHeader s p) := by
  unfold Rfc2045.dolineDoHeader
  simp only []
  split
  · exact (Keeps.setPart s p fun q => hInert.info q _).trans (Keeps.setPart _ 0 hInert.boundaryFlag)
  · exact Keeps.setPart s p fun q => hInert.info q _

theorem collectHeader (hInert : Inert v) (s : St) (c : List Byte) (p : Nat) :
    Keeps v s (collectHeader s c p) := by
  unfold Rfc2045.collectHeader
  simp only []
  split
  · exact Keeps.setPart s p fun q => hInert.header q _
  · exact (hInert.dolineDoHeader s p).trans (Keeps.setPart _ p fun q => hInert.header q _)

theorem startBody (hInert : Inert v) (s : St) (c : List Byte) (p : Nat) :
    Keeps v s (startBody s c p) := by
  refine (Keeps.setPart s p ?_).trans ((Keeps.updateCounts _ p _ _ 1 hInert.counts).trans
      (Keeps.setPart _ p ?_))
  · intro q
    exact (hInert.counts _ { q.toPartCounts with startbody := _ }).trans (hInert.inHeader q false)
  · intro q
    exact (hInert.info { q with nbodylines := q.nbodylines - 1 } _).trans (hInert.counts q
          { q.toPartCounts with
              nbodylines := q.nbodylines - 1 })

variable {s : St}

theorem append (hInert : Inert v) {p : Nat} (hLess : p < s.parts.length)
    (startpos k : Nat) : v ((appendPartNoinherit s p startpos).part k) = v (s.part k) := by
  have hNew : v (newPart s p startpos) = v Part.alloc :=
    (hInert.counts
      { Part.alloc with
          toPartLinks := (newPart s p startpos).toPartLinks }
      (newPart s p startpos).toPartCounts).trans (hInert.links Part.alloc _)
  exact agree_append hLess startpos hNew hInert.links k

theorem inherit (hInert : Inert v) (s : St) (p startpos : Nat) :
    Keeps v (appendPartNoinherit s p startpos) (appendPart s p startpos) :=
  Keeps.setPart _ _ fun q => hInert.info q _

theorem enterBody (hInert : Inert v) {p : Nat} (hLess : p < s.parts.length) (k : Nat) :
    v ((enterBody s p).part k) = v (s.part k) := by
  have hAppend := hInert.append hLess (s.part p).startbody k
  unfold Rfc2045.enterBody
  split
  · exact hAppend
  · split
    · have hDummy := (hInert.inherit s p (s.part p).startbody).trans
          (Keeps.setPart _ s.parts.length fun newp =>
            (hInert.inHeader { newp with isdummy := true } false).trans (hInert.dummy newp true))
      exact (hDummy.same k).trans hAppend
    · exact (Keeps.startSection (v := v) s p).same k

theorem dolineBoundary (hInert : Inert v) {p : Nat} (hLess : p < s.parts.length)
    (c : List Byte) (last : Nat) (final : Bool) (k : Nat) :
    v ((dolineBoundary s c p last final).part k) = v (s.part k) := by
  unfold Rfc2045.dolineBoundary
  cases final with
  | true =>
    rw [if_pos rfl]
    have hClose := Keeps.setPart s last fun q => hInert.links q
        { q.toPartLinks with workclosed := true }
    exact (hClose.trans (Keeps.updateCounts _ p _ _ 1 hInert.counts)).same k
  | false =>
    rw [if_neg Bool.false_ne_true]
    have hVersion := ((hInert.inherit s p ((s.part p).endpos + c.length)).trans
        (Keeps.updateCounts _ p
          ((s.part p).endpos + c.length)
          ((s.part p).endpos + lineLength c) 1
          hInert.counts)).trans (Keeps.setPart _ s.parts.length fun newp =>
              hInert.info newp
                { newp.toMimeInfo with
                    mimeVersion := (s.part p).mimeVersion })
    exact (hVersion.same k).trans (hInert.append hLess _ k)

theorem dolineSection (hInert : Inert v) {p : Nat} (hLess : p < s.parts.length)
    (c : List Byte) (bit8 : Bool) (k : Nat) :
    v ((dolineSection s c bit8 p).part k) = v ((s.flagged bit8 (.section p)).part k) := by
  have hFlag := hInert.flagHeader s bit8 p
  unfold Rfc2045.dolineSection St.flagged
  simp only []
  split
  · split
    · have hBegun := hFlag.trans ((hInert.dolineDoHeader _ p).trans (hInert.startBody _ c p))
      exact (hInert.enterBody (hBegun.length ▸ hLess) k).trans (hBegun.same k)
    · exact (hFlag.trans ((Keeps.updateCounts _ p _ _ 1 hInert.counts).trans
          (hInert.collectHeader _ c p))).same k
  · exact ((Keeps.scanBody _ c p hInert.scan).trans
      (Keeps.updateCounts _ p _ _ 1 hInert.counts)).same k

theorem dolineAt (hInert : Inert v) {c : List Byte} {place : Place} (hTree : Tree s)
    (hFound : Found s c s.openPath place) (bit8 : Bool) (k : Nat) :
    v ((dolineAt s c bit8 place).part k) = v ((s.flagged bit8 place).part k) := by
  cases place with
  | leftover p => exact (Keeps.updateCounts s p _ _ 1 hInert.counts).same k
  | boundary p last final => exact hInert.dolineBoundary (hFound.lt_length hTree) c last final k
  | «section» p => exact hInert.dolineSection (hFound.section_lt_length hTree) c bit8 k

end Inert

theorem inert_informdata : Inert Part.informdata :=
  ⟨fun _ _ => rfl, fun _ _ => rfl, fun _ _ => rfl, fun _ _ => rfl, fun _ _ => rfl, fun _ _ => rfl,
    fun _ _ => rfl, fun _ => rfl, fun _ => rfl⟩

theorem informdata_flagged (s : St) (bit8 : Bool) (place : Place) :
    Keeps Part.informdata s (s.flagged bit8 place) := by
  cases place with
  | leftover p => exact Keeps.refl s
  | boundary p last final => exact Keeps.refl s
  | «section» p =>
    unfold St.flagged
    simp only []
    split
    · exact Keeps.refl s
    · exact Keeps.flagContent s bit8 p fun _ _ => rfl

/- No step but the look-ahead clears or sets the flag. -/
theorem informdata_dolineAt {s : St} {c : List Byte} {place : Place} (hTree : Tree s)
    (hFound : Found s c s.openPath place) (bit8 : Bool) (k : Nat) :
    ((dolineAt s c bit8 place).part k).informdata = (s.part k).informdata :=
  (inert_informdata.dolineAt hTree hFound bit8 k).trans ((informdata_flagged s bit8 place).same k)

end Wmail.Rfc2045
