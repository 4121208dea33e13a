import Wmail.Core.Chunking
import Wmail.Rfc2045.ContentFlag

/-
  Messages that arrive in pieces.

  A line of more than 1025 bytes may be processed in
  fragments.  Whether the tree of parts depends on the pieces
  is a matter of such lines only.

  Key theorems include:
    * `follows_feed`
    * `run_eq_of_chunkSafe`
-/

namespace Wmail.Rfc2045

open Links

/- What the tree says about a part. -/
structure PartReport extends PartCounts, MimeInfo where
  parent : Option Nat
  pindex : Nat
  isdummy : Bool
  rfcviolation : Violation
deriving DecidableEq, Repr

def Part.report (p : Part) : PartReport where
  toPartCounts := p.toPartCounts
  toMimeInfo := p.toMimeInfo
  parent := p.parent
  pindex := p.pindex
  isdummy := p.isdummy
  rfcviolation := p.rfcviolation

/- The tree, as the list of its parts. -/
def St.report (s : St) : List PartReport :=
  s.parts.map Part.report

/-
  Calls of `rfc2045_parse`, and the `rfc2045_parse_partial`
  that finishes them.
-/
def mimeParser (rewriting inReformime : Bool) : Transducer Byte St (List PartReport) where
  init := newParser rewriting inReformime
  feed := parse
  finish := fun s => (parsePartial s).report

/-
  The line that ends at some newline of the message, and the
  state in which a single call processes it.
-/
def LineCall (s : St) (msg : List Byte) (t : St) : Prop :=
  ∃ front after, msg = front ++ nl :: after ∧ t = lineState (front.foldl parseByte s)

/- No header line is longer than 1024 bytes. -/
def ShortHeaders (s : St) (msg : List Byte) : Prop :=
  ∀ t, LineCall s msg t → HeaderLine t → t.workbuf.length ≤ 1024

/- Fragments of long lines are not mistaken for lines. -/
def SafeLines (s : St) (msg : List Byte) : Prop :=
  ∀ t, LineCall s msg t → 1025 < t.workbuf.length → LineSafe t

/-
  Fragments of long lines are not mistaken for lines, and a
  flag that a long line raises is also raised by a short one.
-/
structure ChunkSafe (s : St) (msg : List Byte) : Prop where
  lines : SafeLines s msg
  flags : ∀ t, LineCall s msg t → 1025 < t.workbuf.length → Raises t →
        ∃ u, LineCall s msg u ∧ u.workbuf.length ≤ 1025 ∧ Raises u ∧ t.inner ∈ u.openPath

variable {s t : St}

theorem LineCall.append {msg : List Byte} (hLine : LineCall s msg t) (more : List Byte) :
    LineCall s (msg ++ more) t := by
  rcases hLine with ⟨front, after, rfl, hState⟩
  refine ⟨front, after ++ more, ?_, hState⟩
  rw [List.append_assoc, List.cons_append]

theorem LineCall.newline (s : St) (front after : List Byte) :
    LineCall s (front ++ nl :: after) (lineState (front.foldl parseByte s)) :=
  ⟨front, after, rfl, rfl⟩

/- The lines of a message, and one more byte. -/
theorem lineCall_concat {msg : List Byte} {b : Byte} (hLine : LineCall s (msg ++ [b]) t) :
    LineCall s msg t ∨ (b = nl ∧ t = lineState (msg.foldl parseByte s)) := by
  rcases hLine with ⟨front, after, hMsg, hState⟩
  rcases List.eq_nil_or_concat after with rfl | ⟨more, c, rfl⟩
  · rcases List.append_inj' hMsg rfl with ⟨rfl, hByte⟩
    cases hByte
    exact Or.inr ⟨rfl, hState⟩
  · rw [List.concat_eq_append, ← List.cons_append, ← List.append_assoc] at hMsg
    rcases List.append_inj' hMsg rfl with ⟨rfl, _⟩
    exact Or.inl ⟨front, more, rfl, hState⟩

/- What holds of the run that processes whole lines. -/
structure Reference (s : St) (fed : List Byte) : Prop where
  watched : Watched (fed.foldl parseByte s) fed
  still : Still (fed.foldl parseByte s)
  closed : Closed (fed.foldl parseByte s)
  raised : ∀ k, Flagged (fed.foldl parseByte s) k →
      ∃ u, LineCall s fed u ∧ Raises u ∧ k ∈ u.openPath
  parents : ∀ u k j, LineCall s fed u → (u.part k).parent = some j →
        ((fed.foldl parseByte s).part k).parent = some j
  lines : ∀ u, LineCall s fed u → Tree u

theorem lineState_tree {s : St} (hTree : Tree s) : Tree (lineState s) :=
  hTree.of_sameLinks (Keeps.of_parts_eq rfl)

/- What the end of a line does to the flags. -/
theorem flagged_newline {s : St} (hTree : Tree s) (hClosed : Closed s) (k : Nat) :
    Flagged (parseByte s nl) k ↔ Flagged s k ∨ (Raises (lineState s) ∧ k ∈ s.openPath) :=
  @flagged_doline (lineState s) (lineState_tree hTree) hClosed k

theorem flagged_byte (s : St) {b : Byte} (hByte : b ≠ nl) (k : Nat) :
    Flagged (parseByte s b) k ↔ Flagged s k := by
  unfold parseByte
  rw [if_neg hByte]
  exact Iff.rfl

theorem newParser_not_flagged (rewriting inReformime : Bool) (k : Nat) :
    ¬ Flagged (newParser rewriting inReformime) k := by
  intro hFlag
  unfold Flagged at hFlag
  rw [newParser_part] at hFlag
  cases hFlag

theorem newParser_reference (rewriting inReformime : Bool) :
    Reference (newParser rewriting inReformime) [] := by
  have hNone : ∀ u, ¬ LineCall (newParser rewriting inReformime) [] u := by
    rintro u ⟨front, after, hMsg, _⟩
    cases front <;> cases hMsg
  have hFlags := newParser_not_flagged rewriting inReformime
  refine ⟨newParser_watched rewriting inReformime, ?_, ?_, ?_, ?_, ?_⟩
  · intro _ i hMem q hParent
    have hTree := (newParser_watched rewriting inReformime).tree
    change i ∈ (newParser rewriting inReformime).openPath at hMem
    rw [newParser_openPath] at hMem
    rw [List.mem_singleton.mp hMem] at hParent
    cases hTree.root.symm.trans hParent
  · intro k j hFlag
    exact absurd hFlag (hFlags k)
  · intro k hFlag
    exact absurd hFlag (hFlags k)
  · intro u k j hLine
    exact absurd hLine (hNone u)
  · intro u hLine
    exact absurd hLine (hNone u)

theorem Reference.byte {s : St} {fed : List Byte} (hRef : Reference s fed) (b : Byte) :
    Reference s (fed ++ [b]) := by
  have hTree := hRef.watched.tree
  have hWatched := parseByte_watched hRef.watched b
  have hClosed := parseByte_closed hTree hRef.closed b
  constructor
  · rw [List.foldl_concat]
    exact hWatched
  · rw [List.foldl_concat]
    by_cases hByte : b = nl
    · subst hByte
      exact still_newline hTree hRef.watched.calm
    · unfold parseByte
      rw [if_neg hByte]
      exact hRef.still
  · rw [List.foldl_concat]
    exact hClosed
  · intro k hFlag
    rw [List.foldl_concat] at hFlag
    have hOld : Flagged (fed.foldl parseByte s) k →
          ∃ u, LineCall s (fed ++ [b]) u ∧ Raises u ∧ k ∈ u.openPath := by
      intro hThere
      rcases hRef.raised k hThere with ⟨u, hLine, hRest⟩
      exact ⟨u, hLine.append [b], hRest⟩
    by_cases hByte : b = nl
    · subst hByte
      rw [flagged_newline hTree hRef.closed] at hFlag
      rcases hFlag with hThere | ⟨hRaises, hMem⟩
      · exact hOld hThere
      · exact ⟨_, LineCall.newline s fed [], hRaises, hMem⟩
    · rw [flagged_byte _ hByte] at hFlag
      exact hOld hFlag
  · intro u k j hLine hParent
    rw [List.foldl_concat]
    have hStep : ((fed.foldl parseByte s).part k).parent = some j →
          ((parseByte (fed.foldl parseByte s) b).part k).parent = some j := by
      intro hThere
      by_cases hByte : b = nl
      · subst hByte
        exact @parent_some_doline (lineState (fed.foldl parseByte s))
          (lineState_tree hTree) k j hThere
      · unfold parseByte
        rw [if_neg hByte]
        exact hThere
    rcases lineCall_concat hLine with hOld | ⟨_, rfl⟩
    · exact hStep (hRef.parents u k j hOld hParent)
    · exact hStep hParent
  · intro u hLine
    rcases lineCall_concat hLine with hOld | ⟨_, rfl⟩
    · exact hRef.lines u hOld
    · exact lineState_tree hTree

theorem reference (rewriting inReformime : Bool) (fed : List Byte) :
    Reference (newParser rewriting inReformime) fed := by
  induction fed using List.reverseRecOn with
  | nil => exact newParser_reference rewriting inReformime
  | append_singleton fed b ih => exact ih.byte b

/- A run in pieces, next to the reference run. -/
structure Follows (s : St) (fed : List Byte) (t : St) : Prop where
  behind : ∃ f, Behind (fed.foldl parseByte s) f t
  watched : Watched t fed
  closed : Closed t
  fewer : ∀ k, Flagged t k → Flagged (fed.foldl parseByte s) k
  short : ∀ u k, LineCall s fed u → u.workbuf.length ≤ 1025 →
      Raises u → k ∈ u.openPath → Flagged t k

section Behind

variable {r t : St} {f : Nat}

/- A line raises the flag whenever the rest of it does. -/
theorem raises_of_behind (hBehind : Behind r f t) (hTree : Tree r) (hStill : Still r)
    (hOther : Tree t) (hCalm : t.numparts ≤ maxParts → Calm t)
    (hSafe : 1025 < (lineState r).workbuf.length → LineSafe (lineState r))
    (hRaises : Raises (lineState t)) : Raises (lineState r) := by
  rcases hRaises with ⟨hFew, h8bit, p, hPlace, hBody, hNone⟩
  have hFewRef : r.numparts ≤ maxParts := by
    rw [← hBehind.numparts]
    exact hFew
  have hWork : (lineState t).workbuf = r.workbuf.drop f ++ [nl] :=
    congrArg (· ++ [nl]) hBehind.workbuf
  refine ⟨hFewRef, ?_, p, ?_, (hBehind.workinheader p).symm.trans hBody,
    (congrArg MimeInfo.content8bit (hBehind.info p)).symm.trans hNone⟩
  · rw [List.any_eq_true] at h8bit ⊢
    rcases h8bit with ⟨b, hMem, hHigh⟩
    refine ⟨b, ?_, hHigh⟩
    rw [hWork] at hMem
    show b ∈ r.workbuf ++ [nl]
    rcases List.mem_append.mp hMem with hIn | hLast
    · exact List.mem_append_left _ (List.mem_of_mem_drop hIn)
    · exact List.mem_append_right _ hLast
  · rw [hStill.start hTree hFewRef, ← behind_place hBehind hTree hOther hCalm hFewRef hSafe]
    exact hPlace

/- And a short line raises it in both runs. -/
theorem raises_of_level (hBehind : Behind r 0 t) (hTree : Tree r) (hStill : Still r)
    (hOther : Tree t) (hRaises : Raises (lineState r)) : Raises (lineState t) := by
  rcases hRaises with ⟨hFew, h8bit, p, hPlace, hBody, hNone⟩
  rcases hBehind.level rfl with ⟨_, hQuiet⟩
  have hOtherFew : t.numparts ≤ maxParts := by
    rw [hBehind.numparts]
    exact hFew
  have hWork : (lineState t).workbuf = (lineState r).workbuf := by
    show t.workbuf ++ [nl] = r.workbuf ++ [nl]
    rw [hBehind.workbuf, List.drop_zero]
  refine ⟨hOtherFew, ?_, p, ?_, (hBehind.workinheader p).trans hBody,
    (congrArg MimeInfo.content8bit (hBehind.info p)).trans hNone⟩
  · rw [hWork]
    exact h8bit
  · rw [hStill.start hTree hFew, locate_lineState] at hPlace
    rw [hQuiet.start hOther hOtherFew, locate_lineState,
      hBehind.locate, hBehind.sameLinks.openPath, hWork]
    exact hPlace

end Behind

/- One more byte. -/
theorem Follows.byte {fed : List Byte} (hFollows : Follows s fed t) (hRef : Reference s fed)
    (b : Byte) (hHeaders : ShortHeaders s (fed ++ [b]))
    (hLines : SafeLines s (fed ++ [b])) : Follows s (fed ++ [b]) (parseByte t b) := by
  rcases hFollows.behind with ⟨f, hBehind⟩
  have hTree := hRef.watched.tree
  have hOther := hFollows.watched.tree
  have hWatched := parseByte_watched hFollows.watched b
  have hClosed := parseByte_closed hOther hFollows.closed b
  by_cases hByte : b = nl
  · subst hByte
    have hHere := LineCall.newline s fed []
    have hSafe := hLines _ hHere
    have hRaised := raises_of_behind hBehind hTree hRef.still hOther hFollows.watched.calm hSafe
    refine ⟨⟨0, ?_⟩, hWatched, hClosed, ?_, ?_⟩
    · rw [List.foldl_concat]
      exact behind_newline hBehind hTree hRef.still hOther
        hFollows.watched.calm (hHeaders _ hHere) hSafe
    · intro k hFlag
      rw [List.foldl_concat, flagged_newline hTree hRef.closed]
      rw [flagged_newline hOther hFollows.closed] at hFlag
      rcases hFlag with hThere | ⟨hRaises, hMem⟩
      · exact Or.inl (hFollows.fewer k hThere)
      · rw [hBehind.sameLinks.openPath] at hMem
        exact Or.inr ⟨hRaised hRaises, hMem⟩
    · intro u k hLine hShort hRaises hMem
      rw [flagged_newline hOther hFollows.closed]
      rcases lineCall_concat hLine with hOld | ⟨_, rfl⟩
      · exact Or.inl (hFollows.short u k hOld hShort hRaises hMem)
      · right
        have hZero : f = 0 := by
          rcases hBehind.cut with hZero | hCut
          · exact hZero
          · have hLong := hCut.1
            have hSize : (lineState (fed.foldl parseByte s)).workbuf.length
                  = (fed.foldl parseByte s).workbuf.length + 1 :=
              List.length_append
            omega
        subst hZero
        rw [hBehind.sameLinks.openPath]
        exact ⟨raises_of_level hBehind hTree hRef.still hOther hRaises, hMem⟩
  · refine ⟨⟨f, ?_⟩, hWatched, hClosed, ?_, ?_⟩
    · rw [List.foldl_concat]
      exact hBehind.byte hByte
    · intro k hFlag
      rw [List.foldl_concat, flagged_byte _ hByte]
      rw [flagged_byte _ hByte] at hFlag
      exact hFollows.fewer k hFlag
    · intro u k hLine hShort hRaises hMem
      rw [flagged_byte _ hByte]
      rcases lineCall_concat hLine with hOld | ⟨hNl, _⟩
      · exact hFollows.short u k hOld hShort hRaises hMem
      · exact absurd hNl hByte

/- A long beginning of a line is processed in part. -/
theorem Follows.parsePartial {fed : List Byte} (hFollows : Follows s fed t)
    (hRef : Reference s fed) (hLong : 1024 < t.workbuf.length) :
    Follows s fed (parsePartial t) := by
  rcases hFollows.behind with ⟨f, hBehind⟩
  refine ⟨⟨_, hBehind.parsePartial hRef.watched.tree hFollows.watched.tree hLong⟩,
    parsePartial_watched hFollows.watched,
    closed_parsePartial hFollows.closed, ?_, ?_⟩
  · intro k hFlag
    rw [flagged_parsePartial] at hFlag
    exact hFollows.fewer k hFlag
  · intro u k hLine hShort hRaises hMem
    rw [flagged_parsePartial]
    exact hFollows.short u k hLine hShort hRaises hMem

theorem newParser_follows (rewriting inReformime : Bool) :
    Follows (newParser rewriting inReformime) [] (newParser rewriting inReformime) := by
  have hRef := newParser_reference rewriting inReformime
  refine ⟨⟨0, ?_⟩, hRef.watched, hRef.closed, fun _ => id, ?_⟩
  · exact ⟨rfl, Or.inl rfl, fun _ => ⟨Alike.refl _, hRef.still⟩, fun hSome => absurd rfl hSome⟩
  · rintro u k ⟨front, after, hMsg, _⟩
    cases front <;> cases hMsg

/- Messages whose lines are safe. -/
def Readable (s : St) (msg : List Byte) : Prop :=
  ShortHeaders s msg ∧ SafeLines s msg

theorem Readable.beginning {s : St} {msg more : List Byte}
    (hReadable : Readable s (msg ++ more)) : Readable s msg :=
  ⟨fun t hLine => hReadable.1 t (hLine.append more),
    fun t hLine => hReadable.2 t (hLine.append more)⟩

theorem mimeParser_represents (rewriting inReformime : Bool) :
    (mimeParser rewriting inReformime).Represents
      (Readable (newParser rewriting inReformime))
      (Follows (newParser rewriting inReformime)) := by
  refine ⟨fun _ _ => Readable.beginning, newParser_follows rewriting inReformime, ?_⟩
  intro fed t piece hReadable hFollows
  have hBytes : Follows (newParser rewriting inReformime)
      (fed ++ piece) (piece.foldl parseByte t) := by
    induction piece using List.reverseRecOn with
    | nil =>
      rw [List.append_nil]
      exact hFollows
    | append_singleton piece b ih =>
      rw [← List.append_assoc] at hReadable ⊢
      rw [List.foldl_concat]
      exact (ih hReadable.beginning).byte (reference rewriting inReformime _) b hReadable.1
        hReadable.2
  show Follows _ _ (parse t piece)
  unfold parse
  simp only []
  split
  · rename_i hLong
    exact hBytes.parsePartial (reference rewriting inReformime _) hLong
  · exact hBytes

theorem Part.report_eq {p q : Part} (hBare : q.bare = p.bare)
    (hFlag : q.rfcviolation.err8bitcontent = p.rfcviolation.err8bitcontent) :
    q.report = p.report := by
  have hParts : ∀ x : Part, x.report =
        { x.bare.report with
            rfcviolation :=
              { x.bare.rfcviolation with
                  err8bitcontent :=
                    x.rfcviolation.err8bitcontent } } :=
    fun _ => rfl
  rw [hParts q, hParts p, hBare, hFlag]

theorem report_getElem? (s : St) (k : Nat) : s.report[k]? =
      if k < s.parts.length then some (s.part k).report else none := by
  unfold St.report St.part
  rw [List.getElem?_map, List.getD_eq_getElem?_getD]
  by_cases hLess : k < s.parts.length
  · rw [if_pos hLess, List.getElem?_eq_getElem hLess]
    rfl
  · rw [if_neg hLess, List.getElem?_eq_none (Nat.le_of_not_lt hLess)]
    rfl

/- States that are alike, flags included, report the same. -/
theorem report_eq (hAlike : Alike s t) (hFlags : ∀ k, Flagged t k ↔ Flagged s k) :
    t.report = s.report := by
  apply List.ext_getElem?
  intro k
  rw [report_getElem?, report_getElem?, hAlike.length]
  split
  · rw [Part.report_eq (hAlike.same k) (Bool.eq_iff_iff.mpr (hFlags k))]
  · rfl

/- Every flag that the message raises is raised in pieces. -/
theorem Follows.flagged {msg : List Byte} (hFollows : Follows s msg t)
    (hRef : Reference s msg) (hSafe : ChunkSafe s msg) {k : Nat}
    (hFlag : Flagged (msg.foldl parseByte s) k) : Flagged t k := by
  rcases hRef.raised k hFlag with ⟨u, hLine, hRaises, hMem⟩
  by_cases hShort : u.workbuf.length ≤ 1025
  · exact hFollows.short u k hLine hShort hRaises hMem
  · rcases hSafe.flags u hLine (Nat.lt_of_not_le hShort)
      hRaises with ⟨other, hOther, hFew, hAlso, hInner⟩
    have hThere := hFollows.short other u.inner hOther hFew hAlso hInner
    have hTree := hRef.lines u hLine
    rcases hTree.openPath_inner with ⟨front, hPath⟩
    rcases hFollows.behind with ⟨f, hBehind⟩
    have hDescent : IsDescent (fun q => (t.part q).parent) u.openPath := by
      refine IsDescent.mono ?_ hTree.openPath_isDescent
      intro i j hParent
      rw [hBehind.sameLinks.parent]
      exact hRef.parents u i j hLine hParent
    rw [hPath] at hDescent hMem
    exact hFollows.closed.up hDescent hThere hMem

/- A safe message gives one tree, whatever the pieces. -/
theorem run_eq_of_chunkSafe (rewriting inReformime : Bool) (pieces : List (List Byte))
    (hHeaders : ShortHeaders (newParser rewriting inReformime) pieces.flatten)
    (hSafe : ChunkSafe (newParser rewriting inReformime) pieces.flatten) :
    (mimeParser rewriting inReformime).run pieces =
      (parsePartial
        (pieces.flatten.foldl parseByte (newParser rewriting inReformime))).report := by
  have hRef := reference rewriting inReformime pieces.flatten
  have hFollows :=
    (mimeParser_represents rewriting inReformime).rel_feedAll pieces ⟨hHeaders, hSafe.lines⟩
  rcases hFollows.behind with ⟨f, hBehind⟩
  apply report_eq (behind_finish hBehind hRef.watched.tree)
  intro k
  rw [flagged_parsePartial, flagged_parsePartial]
  exact ⟨hFollows.fewer k, hFollows.flagged hRef hSafe⟩

end Wmail.Rfc2045
