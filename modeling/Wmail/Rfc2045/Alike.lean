import Wmail.Rfc2045.LineStep

/-
  Parser states that give the same tree of parts.

  The look-ahead flag, the results of the scan and the flag
  for eight-bit contents do not influence how the parser
  builds the tree.

  Key theorems include:
    * `Alike.locate`
    * `Alike.dolineAt`
-/

namespace Wmail.Rfc2045

open Links

/- A part without what does not influence the tree. -/
def Part.bare (p : Part) : Part :=
  { p with
      toPartScan := Part.alloc.toPartScan
      informdata := false
      rfcviolation :=
        { p.rfcviolation with err8bitcontent := false } }

/- The same parts, besides what does not influence the tree. -/
structure Alike (s t : St) : Prop extends Keeps Part.bare s t where
  numparts : t.numparts = s.numparts
  inReformime : t.inReformime = s.inReformime

theorem inReformime_setUpward (s : St) (i : Nat) (f : Part → Part) :
    (s.setUpward i f).inReformime = s.inReformime := by
  unfold St.setUpward
  generalize s.upward i = places
  induction places generalizing s with
  | nil => rfl
  | cons j rest ih => exact ih (s.setPart j f)

namespace Alike

variable {s t u : St}

theorem refl (s : St) : Alike s s :=
  ⟨Keeps.refl s, rfl, rfl⟩

theorem trans (hFirst : Alike s t) (hSecond : Alike t u) : Alike s u :=
  ⟨hFirst.toKeeps.trans hSecond.toKeeps, hSecond.numparts.trans hFirst.numparts,
    hSecond.inReformime.trans hFirst.inReformime⟩

theorem symm (hAlike : Alike s t) : Alike t s :=
  ⟨hAlike.toKeeps.symm, hAlike.numparts.symm, hAlike.inReformime.symm⟩

theorem of_parts_eq (hParts : t.parts = s.parts) (hNumparts : t.numparts = s.numparts)
    (hReformime : t.inReformime = s.inReformime) : Alike s t :=
  ⟨Keeps.of_parts_eq hParts, hNumparts, hReformime⟩

theorem links (hAlike : Alike s t) : SameLinks s t :=
  hAlike.toKeeps.map Part.toPartLinks

theorem openPath (hAlike : Alike s t) : t.openPath = s.openPath :=
  hAlike.links.openPath

theorem counts (hAlike : Alike s t) (k : Nat) : (t.part k).toPartCounts = (s.part k).toPartCounts :=
  (hAlike.toKeeps.map Part.toPartCounts).same k

theorem endpos (hAlike : Alike s t) (k : Nat) : (t.part k).endpos = (s.part k).endpos :=
  congrArg PartCounts.endpos (hAlike.counts k)

theorem info (hAlike : Alike s t) (k : Nat) : (t.part k).toMimeInfo = (s.part k).toMimeInfo :=
  (hAlike.toKeeps.map Part.toMimeInfo).same k

theorem boundary (hAlike : Alike s t) (k : Nat) : (t.part k).boundary = (s.part k).boundary :=
  congrArg MimeInfo.boundary (hAlike.info k)

theorem contentType (hAlike : Alike s t) (k : Nat) :
    (t.part k).contentType = (s.part k).contentType :=
  congrArg MimeInfo.contentType (hAlike.info k)

theorem workinheader (hAlike : Alike s t) (k : Nat) :
    (t.part k).workinheader = (s.part k).workinheader :=
  (hAlike.toKeeps.map Part.workinheader).same k

theorem header (hAlike : Alike s t) (k : Nat) : (t.part k).header = (s.part k).header :=
  (hAlike.toKeeps.map Part.header).same k

theorem err8bitheader (hAlike : Alike s t) (k : Nat) : (t.part k).rfcviolation.err8bitheader =
      (s.part k).rfcviolation.err8bitheader :=
  (hAlike.toKeeps.map fun p => p.rfcviolation.err8bitheader).same k

theorem parentType (hAlike : Alike s t) (p : Nat) : t.parentType p = s.parentType p := by
  unfold St.parentType
  rw [hAlike.links.parent]
  cases (s.part p).parent with
  | none => rfl
  | some q => exact hAlike.contentType q

theorem bodyLength (hAlike : Alike s t) (c : List Byte) (p : Nat) :
    bodyLength t c p = bodyLength s c p := by
  unfold Rfc2045.bodyLength
  rw [hAlike.parentType]

/- The drill down ends at the same place. -/
theorem locate (hAlike : Alike s t) (c : List Byte) (path : List Nat) :
    locate t c path = locate s c path :=
  locate_congr hAlike.links.lastpart hAlike.boundary hAlike.workinheader c path

variable {f : Part → Part}

/- The same assignment on both sides. -/
theorem setPart (hAlike : Alike s t) (i : Nat) (hBare : ∀ p, (f p).bare = f p.bare) :
    Alike (s.setPart i f) (t.setPart i f) := by
  refine ⟨⟨?_, ?_⟩, hAlike.numparts, hAlike.inReformime⟩
  · rw [St.length_setPart, St.length_setPart]
    exact hAlike.length
  · intro k
    rw [St.part_setPart, St.part_setPart, hAlike.length]
    split
    · rw [hBare, hBare, hAlike.same]
    · exact hAlike.same k

/- An assignment on one side that does not matter. -/
theorem setPart_right (hAlike : Alike s t) (i : Nat) (hBare : ∀ p, (f p).bare = p.bare) :
    Alike s (t.setPart i f) :=
  hAlike.trans ⟨Keeps.setPart t i hBare, rfl, rfl⟩

theorem setUpward (hAlike : Alike s t) (i : Nat) (hBare : ∀ p, (f p).bare = f p.bare) :
    Alike (s.setUpward i f) (t.setUpward i f) := by
  unfold St.setUpward
  rw [hAlike.links.upward]
  generalize s.upward i = places
  induction places generalizing s t with
  | nil => exact hAlike
  | cons j rest ih => exact ih (hAlike.setPart j hBare)

theorem updateCounts (hAlike : Alike s t) (i newcnt newendcnt nlines : Nat) :
    Alike (updateCounts s i newcnt newendcnt nlines) (updateCounts t i newcnt newendcnt nlines) :=
  hAlike.setUpward i fun _ => rfl

theorem flagContent (s : St) (bit8 : Bool) (p : Nat) : Alike s (flagContent s bit8 p) := by
  unfold Rfc2045.flagContent
  split
  · exact ⟨Keeps.setUpward s p fun _ => rfl,
      St.numparts_setUpward s p _, inReformime_setUpward s p _⟩
  · exact refl s

theorem sectionContents (s : St) (c : List Byte) : Alike s (sectionContents s c) := by
  refine ⟨Keeps.sectionContents s c fun _ _ => rfl, numparts_sectionContents s c, ?_⟩
  unfold Rfc2045.sectionContents
  rcases s.rfc2045acptr with _ | ⟨_ | i, pos, state, char⟩
  · rfl
  · rfl
  · rfl

theorem scanBody (s : St) (c : List Byte) (p : Nat) : Alike s (scanBody s c p) := by
  unfold Rfc2045.scanBody
  split
  · exact refl s
  · exact sectionContents s c

theorem scanPartial (s : St) (p l : Nat) : Alike s (scanPartial s p l) := by
  unfold Rfc2045.scanPartial
  split
  · exact sectionContents s _
  · exact refl s

theorem startSection (s : St) (p : Nat) : Alike s (startSection s p) :=
  of_parts_eq rfl rfl rfl

theorem flagHeader (hAlike : Alike s t) (bit8 : Bool) (p : Nat) :
    Alike (flagHeader s bit8 p) (flagHeader t bit8 p) := by
  unfold Rfc2045.flagHeader
  rw [hAlike.err8bitheader]
  split
  · exact hAlike.setUpward p fun _ => rfl
  · exact hAlike

theorem dolineDoHeader (hAlike : Alike s t) (p : Nat) :
    Alike (dolineDoHeader s p) (dolineDoHeader t p) := by
  have hOuter : (fun q => (t.part q).boundary) = fun q => (s.part q).boundary :=
    funext hAlike.boundary
  unfold Rfc2045.dolineDoHeader
  rw [hAlike.inReformime, hAlike.links.upward, hAlike.header, hAlike.info, hOuter]
  simp only []
  split
  · refine setPart (setPart hAlike p ?_) 0 ?_
    all_goals exact fun _ => rfl
  · exact hAlike.setPart p fun _ => rfl

theorem startBody (hAlike : Alike s t) (c : List Byte) (p : Nat) :
    Alike (startBody s c p) (startBody t c p) := by
  unfold Rfc2045.startBody
  simp only []
  rw [hAlike.endpos]
  have hCounted :=
    (hAlike.setPart p (f := fun q =>
      { q with
          workinheader := false
          startbody := (s.part p).endpos + c.length })
      fun _ => rfl).updateCounts p ((s.part p).endpos + c.length) ((s.part p).endpos + c.length) 1
  rw [hCounted.parentType]
  exact hCounted.setPart p fun _ => rfl

theorem part_concat (s : St) (new : Part) (k : Nat) :
    ({ s with parts := s.parts ++ [new] } : St).part k =
      if k = s.parts.length then new else s.part k := by
  unfold St.part
  rcases Nat.lt_trichotomy k s.parts.length with hBelow | hSame | hAbove
  · rw [List.getD_append _ _ _ _ hBelow, if_neg (Nat.ne_of_lt hBelow)]
  · subst hSame
    rw [List.getD_append_right _ _ _ _ (Nat.le_refl _), Nat.sub_self, if_pos rfl]
    rfl
  · rw [if_neg (Nat.ne_of_gt hAbove), List.getD_eq_default, List.getD_eq_default]
    · exact Nat.le_of_lt hAbove
    · rw [List.length_append, List.length_singleton]
      exact hAbove

theorem newPart (hAlike : Alike s t) (p startpos : Nat) :
    newPart t p startpos = newPart s p startpos := by
  have hIndex : ∀ k, (t.part k).pindex = (s.part k).pindex := fun k =>
    congrArg PartLinks.pindex (hAlike.links.same k)
  unfold Rfc2045.newPart
  rw [hAlike.links.lastpart]
  cases (s.part p).lastpart with
  | none => rfl
  | some last => simp only [hIndex]

theorem appendPartNoinherit (hAlike : Alike s t) (p startpos : Nat) :
    Alike (appendPartNoinherit s p startpos) (appendPartNoinherit t p startpos) := by
  unfold Rfc2045.appendPartNoinherit
  rw [hAlike.newPart, hAlike.length]
  have hSet := hAlike.setPart p (f := fun q =>
    { q with lastpart := some s.parts.length }) fun _ => rfl
  refine ⟨⟨?_, ?_⟩, congrArg (· + 1) hSet.numparts, hSet.inReformime⟩
  · simp only [List.length_append]
    rw [hSet.length]
  · intro k
    have hLeft := part_concat (s.setPart p fun q => { q with lastpart := some s.parts.length })
      (Rfc2045.newPart s p startpos) k
    have hRight := part_concat (t.setPart p fun q => { q with lastpart := some s.parts.length })
      (Rfc2045.newPart s p startpos) k
    rw [hSet.length] at hRight
    refine (congrArg Part.bare hRight).trans (Eq.trans ?_ (congrArg Part.bare hLeft).symm)
    split
    · rfl
    · exact hSet.same k

theorem appendPart (hAlike : Alike s t) (p startpos : Nat) :
    Alike (appendPart s p startpos) (appendPart t p startpos) := by
  unfold Rfc2045.appendPart
  rw [hAlike.length, hAlike.info]
  exact (hAlike.appendPartNoinherit p startpos).setPart s.parts.length fun _ => rfl

theorem enterBody (hAlike : Alike s t) (p : Nat) : Alike (enterBody s p) (enterBody t p) := by
  unfold Rfc2045.enterBody
  rw [hAlike.info, hAlike.counts, hAlike.length]
  split
  · exact hAlike.appendPartNoinherit p _
  · split
    · exact (hAlike.appendPart p _).setPart s.parts.length fun _ => rfl
    · exact (startSection s p).symm.trans (hAlike.trans (startSection t p))

theorem collectHeader (hAlike : Alike s t) (c : List Byte) (p : Nat) :
    Alike (collectHeader s c p) (collectHeader t c p) := by
  unfold Rfc2045.collectHeader
  simp only []
  split
  · exact hAlike.setPart p fun _ => rfl
  · exact (hAlike.dolineDoHeader p).setPart p fun _ => rfl

theorem dolineLeftover (hAlike : Alike s t) (c : List Byte) (p : Nat) :
    Alike (dolineLeftover s c p) (dolineLeftover t c p) := by
  unfold Rfc2045.dolineLeftover
  rw [hAlike.endpos]
  exact hAlike.updateCounts p _ _ 1

theorem dolineBoundary (hAlike : Alike s t) (c : List Byte) (p last : Nat) (final : Bool) :
    Alike (dolineBoundary s c p last final) (dolineBoundary t c p last final) := by
  unfold Rfc2045.dolineBoundary
  simp only []
  rw [hAlike.endpos, hAlike.length, hAlike.info]
  split
  · refine updateCounts (setPart hAlike last ?_) p _ _ 1
    exact fun _ => rfl
  · refine setPart ?_ s.parts.length fun _ => rfl
    exact (hAlike.appendPart p _).updateCounts p _ _ 1

/- Two lines of a body that count the same. -/
theorem dolineBody (hAlike : Alike s t) (c : List Byte) (bit8 : Bool) (p : Nat) :
    Alike (Rfc2045.updateCounts s p ((s.part p).endpos + c.length)
        ((s.part p).endpos + Rfc2045.bodyLength s c p) 1)
      (dolineBody t c bit8 p) := by
  unfold Rfc2045.dolineBody
  simp only []
  rw [hAlike.endpos, hAlike.bodyLength]
  have hScan := hAlike.trans ((flagContent t bit8 p).trans (scanBody _ c p))
  exact hScan.updateCounts p _ _ 1

theorem dolineSection (hAlike : Alike s t) (c : List Byte) (bit8 : Bool) (p : Nat) :
    Alike (dolineSection s c bit8 p) (dolineSection t c bit8 p) := by
  have hFlag := hAlike.flagHeader bit8 p
  unfold Rfc2045.dolineSection
  rw [hAlike.workinheader]
  split
  · split
    · exact ((hFlag.dolineDoHeader p).startBody c p).enterBody p
    · unfold dolineHeader
      simp only []
      rw [hFlag.endpos]
      exact (hFlag.updateCounts p _ _ 1).collectHeader c p
  · exact (dolineBody (refl s) c bit8 p).symm.trans (hAlike.dolineBody c bit8 p)

/- Alike states stay so. -/
theorem dolineAt (hAlike : Alike s t) (c : List Byte) (bit8 : Bool) (place : Place) :
    Alike (dolineAt s c bit8 place) (dolineAt t c bit8 place) := by
  cases place with
  | leftover p => exact hAlike.dolineLeftover c p
  | boundary p last final => exact hAlike.dolineBoundary c p last final
  | «section» p => exact hAlike.dolineSection c bit8 p

/- The look-ahead changes nothing that matters. -/
theorem start (s : St) : Alike s s.start.1 := by
  unfold St.start
  rcases lookAhead s s.openPath with _ | _ | ⟨p, rest⟩
  · exact refl s
  · exact refl s
  · exact (refl s).setPart_right p fun _ => rfl

end Alike

end Wmail.Rfc2045
