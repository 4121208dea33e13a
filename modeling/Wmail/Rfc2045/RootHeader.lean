import Wmail.Rfc2045.EndPositions

/-
  The header of a message, line by line, and what is left of
  it when the rest of the message is read.

  Key theorems include:
    * `profile_doline`
    * `headerRead_kept`
-/

namespace Wmail.Rfc2045

open Rfc822 Links

/- The root is the only part, and its header is being read. -/
structure InRootHeader (s : St) : Prop where
  alone : s.parts.length = 1
  parent : (s.part 0).parent = none
  lastpart : (s.part 0).lastpart = none
  inHeader : (s.part 0).workinheader = true
  few : s.numparts ≤ maxParts

/- What of a part is about its header. -/
def Part.headed (p : Part) : PartLinks × Bool × List Byte × MimeInfo :=
  (p.toPartLinks, p.workinheader, p.header, p.toMimeInfo)

/- A step that does nothing about the headers. -/
structure SameHeaders (s t : St) : Prop extends Keeps Part.headed s t where
  numparts : t.numparts = s.numparts
  inReformime : t.inReformime = s.inReformime

namespace SameHeaders

variable {s t : St}

theorem trans {u : St} (hFirst : SameHeaders s t) (hSecond : SameHeaders t u) : SameHeaders s u :=
  ⟨hFirst.toKeeps.trans hSecond.toKeeps, hSecond.numparts.trans hFirst.numparts,
    hSecond.inReformime.trans hFirst.inReformime⟩

theorem header (hSame : SameHeaders s t) (k : Nat) : (t.part k).header = (s.part k).header :=
  congrArg (fun v => v.2.2.1) (hSame.same k)

theorem info (hSame : SameHeaders s t) (k : Nat) : (t.part k).toMimeInfo = (s.part k).toMimeInfo :=
  congrArg (fun v => v.2.2.2) (hSame.same k)

theorem flagHeader (s : St) (bit8 : Bool) (p : Nat) : SameHeaders s (flagHeader s bit8 p) := by
  refine ⟨Keeps.flagHeader s bit8 p fun _ _ => rfl, ?_, ?_⟩
  all_goals
    unfold Rfc2045.flagHeader
    split
  · exact St.numparts_setUpward _ _ _
  · rfl
  · exact inReformime_setUpward _ _ _
  · rfl

theorem updateCounts (s : St) (i newcnt newendcnt nlines : Nat) :
    SameHeaders s (updateCounts s i newcnt newendcnt nlines) :=
  ⟨Keeps.updateCounts s i _ _ _ fun _ _ => rfl, numparts_updateCounts _ _ _ _ _,
    inReformime_updateCounts _ _ _ _ _⟩

end SameHeaders

theorem InRootHeader.same {s t : St} (hRoot : InRootHeader s) (hSame : SameHeaders s t) :
    InRootHeader t := by
  have hLinks := congrArg Prod.fst (hSame.same 0)
  have hHeader := congrArg (fun v => v.2.1) (hSame.same 0)
  exact ⟨hSame.length.trans hRoot.alone, (congrArg PartLinks.parent hLinks).trans hRoot.parent,
    (congrArg PartLinks.lastpart hLinks).trans hRoot.lastpart,
    hHeader.trans hRoot.inHeader,
    hSame.numparts ▸ hRoot.few⟩

variable {s : St}

/- The line belongs to the root. -/
theorem InRootHeader.doline_eq (hRoot : InRootHeader s) :
    doline s = dolineSection s (cleanLine s.workbuf) (s.workbuf.any fun b => 128 ≤ b) 0 := by
  have hNone : s.openLast 0 = none := by
    unfold St.openLast
    rw [hRoot.lastpart]
  have hPath : s.openPath = [0] := by
    unfold St.openPath
    rw [hRoot.alone, follow, hNone]
  have hStart : s.start = (s, [0]) := by
    unfold St.start
    rw [hPath]
    rfl
  have hPlace : ∀ c, locate s c [0] = .section 0 := by
    intro c
    rw [locate, hRoot.lastpart]
    rfl
  unfold doline
  rw [if_neg (Nat.not_lt.mpr hRoot.few), hStart]
  dsimp only
  rw [hPlace]
  rfl

/- The fields that the complete header line of a part sets. -/
theorem toMimeInfo_dolineDoHeader {p : Nat} (hLess : p < s.parts.length) :
    ((dolineDoHeader s p).part p).toMimeInfo =
      (doHeader s.inReformime
        ((s.upward p).tail.filterMap fun q => (s.part q).boundary)
        (s.part p).header (s.part p).toMimeInfo).1 := by
  unfold dolineDoHeader
  simp only []
  split
  · have hFlag := fun u => (Keeps.setPart (v := Part.toMimeInfo) u 0 (f := fun root =>
        { root with rfcviolation :=
          { root.rfcviolation with errbadboundary := true } })
      fun _ => rfl).same p
    rw [hFlag, St.part_setPart_self hLess]
  · rw [St.part_setPart_self hLess]

theorem numparts_dolineDoHeader (s : St) (p : Nat) : (dolineDoHeader s p).numparts = s.numparts ∧
      (dolineDoHeader s p).inReformime = s.inReformime := by
  unfold dolineDoHeader
  simp only []
  split <;> exact ⟨rfl, rfl⟩

/- The fields that the line of the root has set. -/
def rootInfo (s : St) : MimeInfo :=
  (doHeader s.inReformime [] (s.part 0).header
    (s.part 0).toMimeInfo).1

theorem rootInfo_same {s t : St} (hSame : SameHeaders s t) : rootInfo t = rootInfo s := by
  unfold rootInfo
  rw [hSame.inReformime, hSame.header, hSame.info]

theorem InRootHeader.complete (hRoot : InRootHeader s) : InRootHeader (dolineDoHeader s 0) ∧
      ((dolineDoHeader s 0).part 0).toMimeInfo = rootInfo s := by
  have hLess : 0 < s.parts.length := by
    rw [hRoot.alone]
    exact Nat.one_pos
  have hKeeps := Keeps.dolineDoHeader (v := fun p => (p.toPartLinks, p.workinheader)) s 0
    (fun _ _ => rfl) fun _ _ => rfl
  have hLinks := congrArg Prod.fst (hKeeps.same 0)
  refine ⟨⟨hKeeps.length.trans hRoot.alone, (congrArg PartLinks.parent hLinks).trans hRoot.parent,
    (congrArg PartLinks.lastpart hLinks).trans hRoot.lastpart,
    (congrArg Prod.snd (hKeeps.same 0)).trans hRoot.inHeader,
    ?_⟩, toMimeInfo_dolineDoHeader hLess⟩
  rw [(numparts_dolineDoHeader s 0).1]
  exact hRoot.few

/- A line of the header, which ends the line before it. -/
theorem InRootHeader.headerLine (hRoot : InRootHeader s) {line : List Byte}
    (hWork : s.workbuf = line ++ [nl]) (hZero : 0 ∉ line) (hReturn : cr ∉ line)
    (hStart : isspace ((line ++ [nl]).headD 0) = false) :
    InRootHeader (doline s) ∧ ((doline s).part 0).header = line ∧
      ((doline s).part 0).toMimeInfo = rootInfo s ∧
      (doline s).inReformime = s.inReformime := by
  have hClean : cleanLine (line ++ [nl]) = line ++ [nl] := by
    refine (List.map_congr_left ?_).trans (List.map_id _)
    intro b hMem
    rw [if_neg]
    · rfl
    rintro rfl
    rcases List.mem_append.mp hMem with hIn | hIn
    · exact hZero hIn
    · exact absurd (List.mem_singleton.mp hIn) (by decide)
  have hLength : lineLength (line ++ [nl]) = line.length := by
    rw [lineLength_concat, if_neg]
    exact fun hLast => hReturn (List.mem_of_getLast? hLast)
  have hSome : line.length ≠ 0 := by
    intro hNone
    rw [List.length_eq_zero_iff.mp hNone] at hStart
    cases hStart
  rw [hRoot.doline_eq, hWork, hClean]
  generalize (line ++ [nl]).any (fun b => 128 ≤ b) = bit8
  unfold dolineSection
  rw [if_pos hRoot.inHeader, hLength, if_neg hSome]
  have hSame := (SameHeaders.flagHeader s bit8 0).trans
    (SameHeaders.updateCounts (flagHeader s bit8 0) 0
      (((flagHeader s bit8 0).part 0).endpos + (line ++ [nl]).length)
      (((flagHeader s bit8 0).part 0).endpos + line.length) 1)
  unfold dolineHeader collectHeader
  simp only []
  rw [hLength, List.take_left, if_neg (Bool.eq_false_iff.mp hStart)]
  generalize updateCounts (flagHeader s bit8 0) 0 _ _ 1 = u at hSame ⊢
  rcases (hRoot.same hSame).complete with ⟨hRoot', hInfo⟩
  have hOthers := numparts_dolineDoHeader u 0
  generalize dolineDoHeader u 0 = w at hRoot' hInfo hOthers ⊢
  have hLess : 0 < w.parts.length := by
    rw [hRoot'.alone]
    exact Nat.one_pos
  have hSet := St.part_setPart_self hLess fun q => { q with header := line }
  refine ⟨⟨?_, ?_, ?_, ?_, hRoot'.few⟩, ?_, ?_, ?_⟩
  · rw [St.length_setPart, hRoot'.alone]
  · rw [hSet]
    exact hRoot'.parent
  · rw [hSet]
    exact hRoot'.lastpart
  · rw [hSet]
    exact hRoot'.inHeader
  · rw [hSet]
  · rw [hSet]
    exact hInfo.trans (rootInfo_same hSame)
  · exact hOthers.2.trans hSame.inReformime

/- What the end of its header makes of a part. -/
theorem profile_startBody_self {u : St} {p : Nat} (hLess : p < u.parts.length) (c : List Byte) :
    ((startBody u c p).part p).workinheader = false ∧
      ((startBody u c p).part p).toMimeInfo = (u.part p).toMimeInfo.endHeader (u.parentType p) := by
  have hSet := Keeps.setPart (v := fun q => (q.parent, q.toMimeInfo)) u p (f := fun q =>
      { q with
          workinheader := false
          startbody := (u.part p).endpos + c.length })
    fun _ => rfl
  have hIn := St.part_setPart_self hLess fun q =>
    { q with
        workinheader := false
        startbody := (u.part p).endpos + c.length }
  unfold startBody
  simp only []
  generalize (u.setPart p fun q =>
    { q with
        workinheader := false
        startbody := (u.part p).endpos + c.length }) = v
    at hSet hIn ⊢
  have hCount := Keeps.updateCounts (v := fun q => (q.parent, q.toMimeInfo, q.workinheader)) v p
    ((u.part p).endpos + c.length)
    ((u.part p).endpos + c.length) 1 fun _ _ => rfl
  generalize updateCounts v p _ _ 1 = w at hCount ⊢
  have hInfo : ∀ k, (w.part k).toMimeInfo = (u.part k).toMimeInfo := fun k =>
    (congrArg (fun v => v.2.1) (hCount.same k)).trans (congrArg Prod.snd (hSet.same k))
  have hParent : (w.part p).parent = (u.part p).parent :=
    (congrArg Prod.fst (hCount.same p)).trans (congrArg Prod.fst (hSet.same p))
  have hType : w.parentType p = u.parentType p := by
    unfold St.parentType
    rw [hParent]
    cases (u.part p).parent with
    | none => rfl
    | some q => exact congrArg MimeInfo.contentType (hInfo q)
  rw [St.part_setPart_self (by
    rw [hCount.length, hSet.length]
    exact hLess), hType]
  refine ⟨?_, ?_⟩
  · refine (congrArg (fun v => v.2.2) (hCount.same p)).trans ?_
    show (v.part p).workinheader = false
    rw [hIn]
  · show (w.part p).toMimeInfo.endHeader _ = _
    rw [hInfo p]

/- The blank line ends the header, and the last line in it. -/
theorem InRootHeader.headerEnd (hRoot : InRootHeader s) (hWork : s.workbuf = [nl]) :
    ((doline s).part 0).workinheader = false ∧
      ((doline s).part 0).toMimeInfo = (rootInfo s).endHeader none := by
  have hClean : cleanLine [nl] = [nl] := rfl
  have hLength : lineLength [nl] = 0 := rfl
  rw [hRoot.doline_eq, hWork, hClean]
  generalize [nl].any (fun b => 128 ≤ b) = bit8
  unfold dolineSection
  rw [if_pos hRoot.inHeader, if_pos hLength]
  have hSame := SameHeaders.flagHeader s bit8 0
  rcases (hRoot.same hSame).complete with ⟨hDone, hInfo⟩
  rw [rootInfo_same hSame] at hInfo
  unfold dolineHeaderEnd
  generalize dolineDoHeader (flagHeader s bit8 0) 0 = u at hDone hInfo ⊢
  have hLess : 0 < u.parts.length := by
    rw [hDone.alone]
    exact Nat.one_pos
  have hBegun : (startBody u [nl] 0).parts.length =
      u.parts.length := (links_startBody u [nl] 0).length
  have hEnter := profile_enterBody (hBegun ▸ hLess) (hBegun ▸ hLess)
  have hType : u.parentType 0 = none := by
    unfold St.parentType
    rw [hDone.parent]
  rcases profile_startBody_self hLess [nl] with ⟨hStarted, hFields⟩
  rw [hInfo, hType] at hFields
  exact ⟨(congrArg (fun v => v.2.2.1) hEnter).trans hStarted,
    (congrArg (fun v => v.2.1) hEnter).trans hFields⟩

/- A whole line is processed. -/
theorem foldl_parseByte_line (hWork : s.workbuf = []) {line : List Byte} (hLine : nl ∉ line) :
    (line ++ [nl]).foldl parseByte s =
      { doline { s with workbuf := line ++ [nl] } with
        workbuf := [] } := by
  rw [List.foldl_append, parseBytes_wait s hLine, hWork,
    List.nil_append, List.foldl_cons, List.foldl_nil]
  unfold parseByte
  rw [if_pos rfl]

theorem InRootHeader.readLine (hRoot : InRootHeader s) (hWork : s.workbuf = [])
    {line : List Byte} (hLine : nl ∉ line) (hZero : 0 ∉ line) (hReturn : cr ∉ line)
    (hStart : isspace ((line ++ [nl]).headD 0) = false) {t : St}
    (hRead : (line ++ [nl]).foldl parseByte s = t) :
    InRootHeader t ∧ t.workbuf = [] ∧ (t.part 0).header = line ∧
      (t.part 0).toMimeInfo = rootInfo s ∧
      t.inReformime = s.inReformime := by
  have hWait : InRootHeader { s with workbuf := line ++ [nl] } :=
    ⟨hRoot.alone, hRoot.parent, hRoot.lastpart, hRoot.inHeader, hRoot.few⟩
  rcases hWait.headerLine rfl hZero hReturn hStart with ⟨hDone, hHeader, hInfo, hReformime⟩
  rw [← hRead, foldl_parseByte_line hWork hLine]
  exact ⟨⟨hDone.alone, hDone.parent, hDone.lastpart,
    hDone.inHeader, hDone.few⟩, rfl, hHeader, hInfo, hReformime⟩

theorem newParser_inRootHeader (rewriting inReformime : Bool) :
    InRootHeader (newParser rewriting inReformime) := by
  cases rewriting <;> exact ⟨rfl, rfl, rfl, rfl, Nat.zero_le _⟩

/- Behind its header, no line changes what a part is. -/
theorem profile_doline {t : St} (hTree : Tree t) {k : Nat} (hOld : k < t.parts.length)
    (hBody : (t.part k).workinheader = false) :
    ((doline t).part k).profile = (t.part k).profile := by
  have hStart : Keeps Part.profile t t.start.1 := Keeps.start t fun _ _ => rfl
  have hTreeStart := hTree.of_sameLinks (Keeps.start t fun _ _ => rfl)
  have hFound := hTree.found (cleanLine t.workbuf)
  unfold doline
  split
  · refine Keeps.same (Keeps.setPart t 0 ?_) k
    exact fun _ => rfl
  · simp only []
    generalize (t.workbuf.any fun b => 128 ≤ b) = bit8
    generalize locate t.start.1 (cleanLine t.workbuf) t.start.2 = place at hFound ⊢
    refine Eq.trans ?_ (hStart.same k)
    by_cases hHere : place = .section k
    · have hIn : (t.start.1.part k).workinheader = false :=
        (congrArg (fun v => v.2.2.1) (hStart.same k)).trans hBody
      rw [hHere]
      show ((dolineSection t.start.1 _ bit8 k).part k).profile = _
      unfold dolineSection
      rw [hIn, if_neg Bool.false_ne_true]
      refine ((Keeps.flagContent t.start.1 bit8 k ?_).trans ((Keeps.scanBody _ _ k ?_).trans
          (Keeps.updateCounts _ k _ _ 1 ?_))).same k
      all_goals exact fun _ _ => rfl
    · exact profile_dolineAt hTreeStart hFound bit8 (hStart.length ▸ hOld) hHere

/- The header of a part has been read, with these results. -/
structure HeaderRead (k : Nat) (info : MimeInfo) (s : St) (fed : List Byte) : Prop where
  watched : Watched s fed
  old : k < s.parts.length
  done : (s.part k).workinheader = false
  info : (s.part k).toMimeInfo = info

theorem HeaderRead.of_profile {k : Nat} {info : MimeInfo} {s t : St} {fed more : List Byte}
    (hRead : HeaderRead k info s fed) (hWatched : Watched t more)
    (hOld : s.parts.length ≤ t.parts.length)
    (hSame : (t.part k).profile = (s.part k).profile) : HeaderRead k info t more :=
  ⟨hWatched, Nat.lt_of_lt_of_le hRead.old hOld,
    (congrArg (fun v => v.2.2.1) hSame).trans hRead.done,
    (congrArg (fun v => v.2.1) hSame).trans hRead.info⟩

theorem headerRead_kept (k : Nat) (info : MimeInfo) :
    Kept fun fed s => HeaderRead k info s fed where
  byte := by
    intro fed s hRead b
    have hWatched := parseByte_watched hRead.watched b
    by_cases hNl : b = nl
    · have hTree : Tree { s with workbuf := s.workbuf ++ [b] } :=
        hRead.watched.tree.of_sameLinks (Keeps.of_parts_eq rfl)
      have hLine : parseByte s b =
          { doline { s with workbuf := s.workbuf ++ [b] } with
            workbuf := [] } :=
        if_pos hNl
      have hAfter : Tree (doline { s with workbuf := s.workbuf ++ [b] }) := by
        refine hWatched.tree.of_sameLinks ?_
        rw [hLine]
        exact Keeps.of_parts_eq rfl
      refine hRead.of_profile hWatched ?_ ?_
      · rw [hLine]
        exact length_doline hTree hAfter
      · rw [hLine]
        exact profile_doline hTree hRead.old hRead.done
    · have hWait : parseByte s b = { s with workbuf := s.workbuf ++ [b] } := if_neg hNl
      refine hRead.of_profile hWatched (Nat.le_of_eq (by rw [hWait])) ?_
      rw [hWait]
      rfl
  rest := by
    intro fed s hRead
    have hProfile : Keeps Part.profile s (parsePartial s) :=
      Keeps.parsePartial s (fun _ _ => rfl) (fun _ _ => rfl) fun _ _ => rfl
    exact hRead.of_profile (parsePartial_watched hRead.watched)
      (Nat.le_of_eq hProfile.length.symm) (hProfile.same k)

end Wmail.Rfc2045
