import Wmail.Sqwebmail.HtmlWatch

/-
  What the filter does with text, with comments and with the
  characters of a tag: what a character does in each state, and
  what follows for the whole input.

  Key theorems include:
    * `textKept_iff`
    * `htmlExact_iff`
-/

------------
-- One Character
------------

namespace Wmail.Sqwebmail

/- What a character is to do to the output and to the tags. -/
structure StepHolds (cfg : Config) (s : Filter) (pend : List Byte) (w : Watch) (c : Byte) :
    Prop where
  output : ∀ s' pend' out, s.pendStep cfg pend c = some (s', pend', out) →
      out ++ s'.flush pend' = s.flush pend ++ w.piece c (s.said cfg c)
  tag : ∀ tag, tag ∈ w.ended c → OwnTag s tag

/- What a character comes to, in the two ways of telling it. -/
structure Stepwise (cfg : Config) (s : Filter) (pend : List Byte) (w : Watch) (c : Byte) :
    Prop where
  holds : StepHolds cfg s pend w c ↔ StepFine s w c
  next : (∀ tag, tag ∈ w.ended c → OwnTag s tag) →
    ∀ s' pend' out, s.pendStep cfg pend c = some (s', pend', out) → Follows s' (w.step c)

variable {s : Filter}

theorem flush_textual (pend : List Byte) (hTextual : s.curState.textual = true) :
    s.flush pend = s.unstyled pend := by
  rw [flush_eq, if_pos hTextual]

theorem flush_tag (pend : List Byte) (hTag : s.curState.textual = false) : s.flush pend = [] := by
  rw [flush_eq, hTag]
  rfl

theorem flush_nil (s : Filter) : s.flush [] = [] := by
  rw [flush_eq]
  unfold Filter.unstyled
  split
  · split
    · rfl
    · rfl
  · rfl

theorem unstyled_eq {w : Watch} (hFollows : Follows s w) (text : List Byte) :
    s.unstyled text = if w.styled then [] else text := by
  unfold Filter.unstyled
  rw [hFollows.style]
  unfold styleCount
  cases w.styled with
  | true => rfl
  | false => rfl

variable {cfg : Config} {s s' : Filter} {w : Watch} {pend pend' out : List Byte} {c : Byte}

/- A character that ends no tag. -/
theorem stepwise_quiet (hStep : s.pendStep cfg pend c = some (s', pend', out))
    (hEnded : w.ended c = [])
    (hOutput : out ++ s'.flush pend' = s.flush pend ++ w.piece c (s.said cfg c) ↔ StepFine s w c)
    (hNext : Follows s' (w.step c)) : Stepwise cfg s pend w c := by
  have hSame : ∀ t q o, s.pendStep cfg pend c = some (t, q, o) → t = s' ∧ q = pend' ∧ o = out := by
    intro t q o hOther
    rw [hStep] at hOther
    cases hOther
    exact ⟨rfl, rfl, rfl⟩
  refine ⟨⟨?_, ?_⟩, ?_⟩
  · intro hHolds
    exact hOutput.mp (hHolds.output s' pend' out hStep)
  · intro hFine
    constructor
    · intro t q o hOther
      rcases hSame t q o hOther with ⟨rfl, rfl, rfl⟩
      exact hOutput.mpr hFine
    · intro tag hMem
      rw [hEnded] at hMem
      cases hMem
  · intro _ t q o hOther
    rcases hSame t q o hOther with ⟨rfl, rfl, rfl⟩
    exact hNext

/- Where nothing can go wrong. -/
theorem stepFine_quiet (s : Filter) (hEnded : w.ended c = [])
    (hStray : ¬ (w.reader.curState = .intext ∧ c = chr '>'))
    (hComment : ¬ (w.reader.curState = .seenltbangdash ∧ c = chr '-')) : StepFine s w c := by
  refine ⟨?_, ?_, ?_⟩
  · intro hState hEnd
    exact absurd ⟨hState, hEnd⟩ hStray
  · intro hState hDash
    exact absurd ⟨hState, hDash⟩ hComment
  · intro tag hMem
    rw [hEnded] at hMem
    cases hMem

theorem stepwise_fine (hStep : s.pendStep cfg pend c = some (s', pend', out))
    (hEnded : w.ended c = [])
    (hOutput : out ++ s'.flush pend' = s.flush pend ++ w.piece c (s.said cfg c))
    (hStray : ¬ (w.reader.curState = .intext ∧ c = chr '>'))
    (hComment : ¬ (w.reader.curState = .seenltbangdash ∧ c = chr '-'))
    (hNext : Follows s' (w.step c)) : Stepwise cfg s pend w c :=
  stepwise_quiet hStep hEnded (iff_of_true hOutput (stepFine_quiet s hEnded hStray hComment)) hNext

/- The watch after a character that ends no tag. -/
theorem watch_quiet {r : Reader} (hStep : w.reader.step c = (r, [])) :
    (w.step c).reader = r ∧ (w.step c).styled = w.styled ∧ w.ended c = [] := by
  unfold Watch.step Watch.ended
  rw [hStep]
  exact ⟨rfl, rfl, rfl⟩

/- Outside of a tag only the state matters. -/
theorem follows_textual (hTextual : s.curState.textual = true)
    (hState : w.reader.curState = s.curState)
    (hStyle : s.instyletag = styleCount w.styled) : Follows s w := by
  refine ⟨hState, hStyle, ?_, ?_⟩
  · intro hTag
    rw [hTextual] at hTag
    cases hTag
  · intro hTag
    rw [hTextual] at hTag
    cases hTag

/- A character that stays in the text that is pending. -/
theorem stepwise_kept (s' : Filter) (hFollows : Follows s w)
    (hTextual : s.curState.textual = true) (hNext : s'.curState.textual = true)
    (hStyle : s'.instyletag = s.instyletag)
    (hStep : s.pendStep cfg pend c = some (s', pend ++ [c], []))
    (hReader : w.reader.step c = ({ w.reader with curState := s'.curState }, []))
    (hPiece : w.piece c (s.said cfg c) = if w.styled then [] else [c])
    (hStray : ¬ (w.reader.curState = .intext ∧ c = chr '>')) : Stepwise cfg s pend w c := by
  rcases watch_quiet hReader with ⟨hState, hSame, hEnded⟩
  have hAfter : Follows s' (w.step c) := by
    apply follows_textual hNext
    · rw [hState]
    · rw [hSame, hStyle]
      exact hFollows.style
  apply stepwise_fine hStep hEnded
  · rw [flush_textual _ hTextual, flush_textual _ hNext,
      unstyled_eq hFollows, unstyled_eq hAfter, hSame, hPiece]
    split
    · rfl
    · rfl
  · exact hStray
  · rintro ⟨hDash, _⟩
    rw [hFollows.state] at hDash
    rw [hDash] at hTextual
    cases hTextual
  · exact hAfter

theorem stepwise_intext (hFollows : Follows s w) (hState : s.curState = .intext)
    (pend : List Byte) (c : Byte) : Stepwise cfg s pend w c := by
  have hReader : w.reader.curState = .intext := hFollows.state.trans hState
  have hTextual : s.curState.textual = true := by
    rw [hState]
    rfl
  by_cases hEnd : c = chr '>'
  · have hStep : s.pendStep cfg pend c = some (s, [], pend ++ bytes "&nbsp;") := by
      apply pendStep_of_reset
      unfold Filter.htmlStep
      simp only [hState, if_pos hEnd, chunkPart_pend]
    have hSame : w.reader.step c = (w.reader, []) := by
      unfold Reader.step
      rw [hReader, hEnd]
      rfl
    rcases watch_quiet hSame with ⟨hAfter, hStyle, hEnded⟩
    have hPiece : w.piece c (s.said cfg c) = if w.styled then [] else bytes "&nbsp;" := by
      unfold Watch.piece
      rw [hReader, hEnd]
      rfl
    apply stepwise_quiet hStep hEnded
    · -- in a stylesheet the pending text is put out all the same
      rw [flush_nil, flush_textual _ hTextual, unstyled_eq hFollows, hPiece, List.append_nil]
      cases hStyled : w.styled with
      | true =>
        constructor
        · intro hOut
          simp [bytes] at hOut
        · intro hFine
          have hOut := hFine.stray hReader hEnd
          rw [hStyled] at hOut
          cases hOut
      | false =>
        refine iff_of_true rfl ⟨fun _ _ => hStyled, ?_, ?_⟩
        · intro hDash
          rw [hReader] at hDash
          cases hDash
        · intro tag hMem
          rw [hEnded] at hMem
          cases hMem
    · apply follows_textual hTextual
      · rw [hAfter]
        exact hFollows.state
      · rw [hStyle]
        exact hFollows.style
  by_cases hOpen : c = chr '<'
  · have hStep : s.pendStep cfg pend c = some ({ s with curState := .seenlt, tagbuflen := 0 },
          pend ++ [c], s.unstyled pend) := by
      apply pendStep_of_kept
      unfold Filter.htmlStep
      simp only [hState, if_neg hEnd, if_pos hOpen, chunkPart_pend]
    have hTag : w.reader.step c = (⟨.seenlt, []⟩, []) := by
      unfold Reader.step
      rw [hReader, hOpen]
      rfl
    rcases watch_quiet hTag with ⟨hAfter, hStyle, hEnded⟩
    apply stepwise_fine hStep hEnded
    · have hPiece : w.piece c (s.said cfg c) = [] := by
        unfold Watch.piece
        rw [hReader]
        simp only [if_pos hOpen, ite_self]
      rw [flush_tag _ rfl, flush_textual _ hTextual, hPiece]
    · exact fun hBoth => hEnd hBoth.2
    · rintro ⟨hDash, _⟩
      rw [hReader] at hDash
      cases hDash
    · refine ⟨?_, ?_, ?_, ?_⟩
      · rw [hAfter]
      · rw [hStyle]
        exact hFollows.style
      · intro _
        exact Nat.zero_le _
      · intro _ _
        rw [hAfter]
        exact ⟨rfl, rfl⟩
  · apply stepwise_kept s hFollows hTextual hTextual rfl
    · apply pendStep_of_kept
      unfold Filter.htmlStep
      simp only [hState, if_neg hEnd, if_neg hOpen]
    · unfold Reader.step
      rw [hReader]
      simp only [if_neg hOpen]
      rw [hState, ← hReader]
    · unfold Watch.piece
      rw [hReader]
      simp only [if_neg hOpen, if_neg hEnd]
    · exact fun hBoth => hEnd hBoth.2

/- What is put out in a tag, whatever has been pending. -/
theorem output_in_tag (hFollows : Follows s w) (hTag : s.curState.textual = false)
    (hComment : ¬ (w.reader.curState = .seenltbangdash ∧ c = chr '-'))
    (hStyled : w.styled = true → out = [])
    (hStep : ∀ pend, ∃ pend',
      s.pendStep cfg pend c = some (s', pend', out)) (hFlush : s'.flush pend' = []) :
    out ++ s'.flush pend' = s.flush pend ++ w.piece c (s.said cfg c) := by
  have hSaid : s.said cfg c = out := by
    rcases hStep [] with ⟨rest, hEmpty⟩
    unfold Filter.said
    rw [hEmpty]
  have hState := hFollows.state
  rw [hFlush, flush_tag _ hTag, List.append_nil, List.nil_append, hSaid]
  unfold Watch.piece
  cases hInside : w.styled with
  | true => exact hStyled hInside
  | false =>
    simp only [Bool.false_eq_true, if_false]
    split
    · rename_i hReader
      rw [← hState, hReader] at hTag
      cases hTag
    · rename_i hReader
      rw [if_neg fun hDash => hComment ⟨hReader, hDash⟩]
    · rename_i hReader
      rw [← hState, hReader] at hTag
      cases hTag
    · rename_i hReader
      rw [← hState, hReader] at hTag
      cases hTag
    · rename_i hReader
      rw [← hState, hReader] at hTag
      cases hTag
    · rfl
    · rfl
    · rfl

/- A character in a tag that does not end it. -/
theorem stepwise_in_tag (s' : Filter) (next : List Byte → List Byte) (out : List Byte)
    (hFollows : Follows s w) (hTag : s.curState.textual = false)
    (hComment : ¬ (w.reader.curState = .seenltbangdash ∧ c = chr '-'))
    (hStyled : w.styled = true → out = [])
    (hStep : ∀ pend, s.pendStep cfg pend c = some (s', next pend, out))
    (hFlush : ∀ pend, s'.flush (next pend) = []) (hEnded : w.ended c = [])
    (hNext : Follows s' (w.step c)) (pend : List Byte) : Stepwise cfg s pend w c := by
  apply stepwise_fine (hStep pend) hEnded
  · exact output_in_tag hFollows hTag hComment hStyled
      (fun pend => ⟨next pend, hStep pend⟩) (hFlush pend)
  · rintro ⟨hText, _⟩
    rw [hFollows.state] at hText
    rw [hText] at hTag
    cases hTag
  · exact hComment
  · exact hNext

/- A character that goes into the buffer. -/
theorem stepwise_added (state : HtmlState) (hFollows : Follows s w)
    (hTag : s.curState.textual = false) (hNew : state.textual = false)
    (hComment : ¬ (w.reader.curState = .seenltbangdash ∧ c = chr '-'))
    (hReader : w.reader.step c = (⟨state, w.reader.tag ++ [c]⟩, []))
    (hStep : ∀ pend, s.pendStep cfg pend c =
      some ({ s.addtagbuf c with curState := state }, pend ++ [c], [])) (pend : List Byte) :
    Stepwise cfg s pend w c := by
  apply stepwise_in_tag { s.addtagbuf c with curState := state }
    (· ++ [c]) [] hFollows hTag hComment (fun _ => rfl) hStep
  · exact fun pend => flush_tag _ hNew
  · exact (watch_quiet hReader).2.2
  · exact hFollows.added state hTag hReader

/- The end of a tag, whatever has been pending. -/
theorem pendStep_tag_end
    (hHtml : s.htmlStep cfg (pend ++ [c]) pend.length 0 c =
      s.doIntag cfg pend.length 0 c) (hEnd : c = chr '>') :
    s.pendStep cfg pend c = (Filter.filteredTag cfg { s with curState := .intext }).map
        fun r => (r.1, [], r.2) := by
  unfold Filter.pendStep
  rw [hHtml]
  unfold Filter.doIntag
  rw [if_pos hEnd, Option.map_map]
  congr 1
  funext r
  simp only [Function.comp_apply, Prod.mk.injEq, and_true, true_and]
  apply List.drop_of_length_le
  exact Nat.le_of_eq List.length_append

/- After a tag of its own the filter is where the watch is. -/
theorem follows_tag_end {r : Filter × List Byte} (hFollows : Follows s w)
    (hOwn : OwnTag s w.reader.tag)
    (hLast : w.reader.step c = ({ w.reader with curState := .intext }, [w.reader.tag]))
    (hTurns : Alternate w.styled [w.reader.tag])
    (hFiltered : Filter.filteredTag cfg
      { s with curState := .intext } = some r) : Follows r.1 (w.step c) := by
  have hHere : OwnTag { s with curState := .intext }
      w.reader.tag := by
    unfold OwnTag
    rw [addtagbuf_curState]
    exact hOwn
  rcases filteredTag_mode hHere hFollows.style hTurns.1 hTurns.2.1 hFiltered with ⟨hText, hStyle⟩
  apply follows_textual
  · rw [hText]
    rfl
  · unfold Watch.step
    rw [hLast, hText]
  · unfold Watch.step
    rw [hLast, hStyle]
    rfl

/- The end of a tag. -/
theorem stepwise_tag_end (hFollows : Follows s w) (hTag : s.curState.textual = false)
    (hComment : ¬ (w.reader.curState = .seenltbangdash ∧ c = chr '-'))
    (hLast : w.reader.step c = ({ w.reader with curState := .intext }, [w.reader.tag]))
    (hStep : ∀ pend, s.pendStep cfg pend c =
      (Filter.filteredTag cfg { s with curState := .intext }).map
        fun r => (r.1, [], r.2)) (hTurns : Alternate w.styled (w.ended c)) (pend : List Byte) :
    Stepwise cfg s pend w c := by
  have hEnded : w.ended c = [w.reader.tag] := congrArg Prod.snd hLast
  have hInside : ¬ w.reader.curState = .intext := by
    intro hText
    rw [hFollows.state] at hText
    rw [hText] at hTag
    cases hTag
  have hFound : ∀ s' pend' out, s.pendStep cfg pend c = some (s', pend', out) →
        pend' = [] ∧ Filter.filteredTag cfg { s with curState := .intext } = some (s', out) := by
    intro s' pend' out hOut
    rw [hStep, Option.map_eq_some_iff] at hOut
    rcases hOut with ⟨r, hFiltered, hSame⟩
    cases hSame
    exact ⟨rfl, hFiltered⟩
  have hOwnIff := hFollows.own_iff hTag
  refine ⟨⟨?_, ?_⟩, ?_⟩
  · intro hHolds
    refine ⟨?_, ?_, ?_⟩
    · exact fun hText => absurd hText hInside
    · exact fun hDash hSame => absurd ⟨hDash, hSame⟩ hComment
    · intro tag hMem
      have hOwn := hHolds.tag tag hMem
      rw [hEnded, List.mem_singleton] at hMem
      rw [hMem] at hOwn ⊢
      exact hOwnIff.mp hOwn
  · intro hFine
    constructor
    · intro s' pend' out hOut
      rcases hFound s' pend' out hOut with ⟨rfl, hFiltered⟩
      apply output_in_tag hFollows hTag hComment
      · intro hStyled
        apply filteredTag_styled _ hFiltered
        rw [hFollows.style, hStyled]
        decide
      · intro pend
        refine ⟨[], ?_⟩
        rw [hStep, hFiltered]
        rfl
      · exact flush_nil s'
    · intro tag hMem
      have hTagFine := hFine.tag tag hMem
      rw [hEnded, List.mem_singleton] at hMem
      rw [hMem] at hTagFine ⊢
      exact hOwnIff.mpr hTagFine
  · intro hOwn s' pend' out hOut
    rw [hEnded] at hTurns hOwn
    exact follows_tag_end hFollows (hOwn w.reader.tag (List.mem_singleton_self _)) hLast hTurns
      (hFound s' pend' out hOut).2

/- A character of a tag, which may be its end. -/
theorem stepwise_doIntag (hFollows : Follows s w) (hTag : s.curState.textual = false)
    (hComment : ¬ (w.reader.curState = .seenltbangdash ∧ c = chr '-'))
    (hReader : w.reader.step c = w.reader.intag c)
    (hHtml : ∀ pend, s.htmlStep cfg (pend ++ [c]) pend.length 0 c = s.doIntag cfg pend.length 0 c)
    (hTurns : Alternate w.styled (w.ended c)) (pend : List Byte) : Stepwise cfg s pend w c := by
  by_cases hEnd : c = chr '>'
  · apply stepwise_tag_end hFollows hTag hComment
    · rw [hReader]
      exact if_pos hEnd
    · exact fun pend => pendStep_tag_end (hHtml pend) hEnd
    · exact hTurns
  · apply stepwise_added .intag hFollows hTag rfl hComment
    · rw [hReader]
      exact if_neg hEnd
    · intro pend
      apply pendStep_of_kept
      rw [hHtml]
      unfold Filter.doIntag
      rw [if_neg hEnd, addtagbuf_curState]

theorem stepwise_seenlt (hFollows : Follows s w) (hState : s.curState = .seenlt)
    (pend : List Byte) (c : Byte) : Stepwise cfg s pend w c := by
  have hReader : w.reader.curState = .seenlt := hFollows.state.trans hState
  have hTag : s.curState.textual = false := by
    rw [hState]
    rfl
  have hComment : ¬ (w.reader.curState = .seenltbangdash ∧ c = chr '-') := by
    rintro ⟨hDash, _⟩
    rw [hReader] at hDash
    cases hDash
  by_cases hEnd : c = chr '>'
  · have hNext : w.reader.step c = ({ w.reader with curState := .intext }, []) := by
      unfold Reader.step
      rw [hReader]
      exact if_pos hEnd
    rcases watch_quiet hNext with ⟨hAfter, hStyle, hEnded⟩
    refine stepwise_in_tag { s with curState := .intext }
      (fun _ => []) (s.unstyled (bytes "<>")) hFollows hTag hComment
      ?_ ?_ ?_ hEnded ?_ pend
    · intro hStyled
      rw [unstyled_eq hFollows, if_pos hStyled]
    · intro pend
      apply pendStep_of_reset
      unfold Filter.htmlStep
      simp only [hState, if_pos hEnd]
    · exact fun _ => flush_nil _
    · apply follows_textual rfl
      · rw [hAfter]
      · rw [hStyle]
        exact hFollows.style
  by_cases hSpace : isspace c = true
  · have hNext : w.reader.step c = (w.reader, []) := by
      unfold Reader.step
      rw [hReader]
      simp only [if_neg hEnd, if_pos hSpace]
    rcases watch_quiet hNext with ⟨hAfter, hStyle, hEnded⟩
    refine stepwise_in_tag s (· ++ [c]) [] hFollows hTag hComment
      (fun _ => rfl) ?_ ?_ hEnded ?_ pend
    · intro pend
      apply pendStep_of_kept
      unfold Filter.htmlStep
      simp only [hState, if_neg hEnd, if_pos hSpace]
    · exact fun pend => flush_tag _ hTag
    · refine ⟨?_, ?_, ?_, ?_⟩
      · rw [hAfter]
        exact hFollows.state
      · rw [hStyle]
        exact hFollows.style
      · rw [hAfter]
        exact hFollows.short
      · rw [hAfter]
        exact hFollows.text
  by_cases hBang : c = chr '!'
  · apply stepwise_added .seenltbang hFollows hTag rfl hComment
    · unfold Reader.step
      rw [hReader]
      simp only [if_neg hEnd, if_neg hSpace, if_pos hBang]
    · intro pend
      apply pendStep_of_kept
      unfold Filter.htmlStep
      simp only [hState, if_neg hEnd, if_neg hSpace, if_pos hBang, addtagbuf_curState]
  by_cases hOther : (decide (c ≠ chr '/') && !isalpha c) = true
  · have hNext : w.reader.step c = ({ w.reader with curState := .intext }, []) := by
      unfold Reader.step
      rw [hReader]
      simp only [if_neg hEnd, if_neg hSpace, if_neg hBang, if_pos hOther]
    rcases watch_quiet hNext with ⟨hAfter, hStyle, hEnded⟩
    refine stepwise_in_tag { s with curState := .intext }
      (fun _ => []) [] hFollows hTag hComment (fun _ => rfl) ?_ ?_
      hEnded ?_ pend
    · intro pend
      apply pendStep_of_reset
      unfold Filter.htmlStep
      simp only [hState, if_neg hEnd, if_neg hSpace, if_neg hBang, if_pos hOther]
    · exact fun _ => flush_nil _
    · apply follows_textual rfl
      · rw [hAfter]
      · rw [hStyle]
        exact hFollows.style
  · apply stepwise_added .intag hFollows hTag rfl hComment
    · unfold Reader.step
      rw [hReader]
      simp only [if_neg hEnd, if_neg hSpace, if_neg hBang, if_neg hOther]
    · intro pend
      apply pendStep_of_kept
      unfold Filter.htmlStep
      simp only [hState, if_neg hEnd, if_neg hSpace, if_neg hBang,
        if_neg hOther, addtagbuf_curState]

theorem stepwise_seenltbang (hFollows : Follows s w) (hState : s.curState = .seenltbang)
    (hTurns : Alternate w.styled (w.ended c)) (pend : List Byte) : Stepwise cfg s pend w c := by
  have hReader : w.reader.curState = .seenltbang := hFollows.state.trans hState
  have hTag : s.curState.textual = false := by
    rw [hState]
    rfl
  have hComment : ¬ (w.reader.curState = .seenltbangdash ∧ c = chr '-') := by
    rintro ⟨hDash, _⟩
    rw [hReader] at hDash
    cases hDash
  by_cases hDash : c = chr '-'
  · apply stepwise_added .seenltbangdash hFollows hTag rfl hComment
    · unfold Reader.step
      rw [hReader]
      exact if_neg (not_not.mpr hDash)
    · intro pend
      apply pendStep_of_kept
      unfold Filter.htmlStep
      simp only [hState, if_neg (not_not.mpr hDash)]
  · apply stepwise_doIntag hFollows hTag hComment
    · unfold Reader.step
      rw [hReader]
      exact if_pos hDash
    · intro pend
      unfold Filter.htmlStep
      simp only [hState, if_pos hDash]
    · exact hTurns

/- Only what has been read tells how the comment was opened. -/
theorem opened_comment (opened : List Byte) :
    bytes "<!--" = opened ++ [chr '-'] ↔
      opened = bytes "<!-" := by
  have hSplit : bytes "<!--" = bytes "<!-" ++ [chr '-'] := by
    decide
  rw [hSplit, List.append_left_inj]
  exact eq_comm

theorem stepwise_seenltbangdash (hFollows : Follows s w)
    (hState : s.curState = .seenltbangdash) (hTurns : Alternate w.styled (w.ended c))
    (pend : List Byte) : Stepwise cfg s pend w c := by
  have hReader : w.reader.curState = .seenltbangdash := hFollows.state.trans hState
  have hTag : s.curState.textual = false := by
    rw [hState]
    rfl
  by_cases hDash : c = chr '-'
  · have hStep : s.pendStep cfg pend c = some ({ s with curState := .incomment }, [],
          s.unstyled (bytes "<!--")) := by
      apply pendStep_of_reset
      unfold Filter.htmlStep
      simp only [hState, if_neg (not_not.mpr hDash)]
    have hNext : w.reader.step c = ({ w.reader with curState := .incomment }, []) := by
      unfold Reader.step
      rw [hReader]
      exact if_neg (not_not.mpr hDash)
    rcases watch_quiet hNext with ⟨hAfter, hStyle, hEnded⟩
    have hPiece : w.piece c (s.said cfg c) = if w.styled then [] else w.opened ++ [c] := by
      unfold Watch.piece
      rw [hReader]
      simp only [if_pos hDash]
    have hOther : ∀ tag, tag ∈ w.ended c → s.tagbufsize < tagbufLimit ∧ 0 ∉ tag := by
      intro tag hMem
      rw [hEnded] at hMem
      cases hMem
    have hInside : ¬ w.reader.curState = .intext := by
      rw [hReader]
      exact HtmlState.noConfusion
    apply stepwise_quiet hStep hEnded
    · -- the comment is always put out as if nothing were between
      rw [flush_nil, flush_tag _ hTag, unstyled_eq hFollows, hPiece,
        List.append_nil, List.nil_append, hDash]
      cases hStyled : w.styled with
      | true =>
        refine iff_of_true rfl ⟨?_, ?_, ?_⟩
        · exact fun hText => absurd hText hInside
        · intro _ _ hNone
          rw [hStyled] at hNone
          cases hNone
        · exact hDash ▸ hOther
      | false =>
        simp only [Bool.false_eq_true, if_false, opened_comment]
        constructor
        · intro hOpened
          exact ⟨fun hText => absurd hText hInside, fun _ _ _ => hOpened, hDash ▸ hOther⟩
        · intro hFine
          exact hFine.comment hReader rfl hStyled
    · apply follows_textual rfl
      · rw [hAfter]
      · rw [hStyle]
        exact hFollows.style
  · apply stepwise_doIntag hFollows hTag (fun hBoth => hDash hBoth.2)
    · unfold Reader.step
      rw [hReader]
      exact if_pos hDash
    · intro pend
      unfold Filter.htmlStep
      simp only [hState, if_pos hDash]
    · exact hTurns

theorem piece_comment (hComment : w.reader.curState.comment = true) (said : List Byte) :
    w.piece c said = if w.styled then [] else [c] := by
  unfold Watch.piece
  cases hState : w.reader.curState with
  | incomment | incommentseendash | incommentseendashdash => rfl
  | intext | seenlt | seenltbang | seenltbangdash | intag =>
    rw [hState] at hComment
    cases hComment

/- A comment goes on. -/
theorem stepwise_comment (state : HtmlState) (hFollows : Follows s w)
    (hComment : s.curState.comment = true) (hNext : state.textual = true)
    (hStep : s.pendStep cfg pend c = some ({ s with curState := state }, pend ++ [c], []))
    (hReader : w.reader.step c =
      ({ w.reader with curState := state }, [])) : Stepwise cfg s pend w c := by
  apply stepwise_kept { s with curState := state } hFollows
    (textual_of_comment hComment) hNext rfl hStep hReader
  · apply piece_comment
    rw [hFollows.state]
    exact hComment
  · rintro ⟨hText, _⟩
    rw [hFollows.state] at hText
    rw [hText] at hComment
    cases hComment

theorem stepwise_comment_end (hFollows : Follows s w)
    (hState : s.curState = .incommentseendashdash) (pend : List Byte) (c : Byte) :
    Stepwise cfg s pend w c := by
  have hReader : w.reader.curState = .incommentseendashdash := hFollows.state.trans hState
  have hComment : s.curState.comment = true := by
    rw [hState]
    rfl
  by_cases hDash : c = chr '-'
  · apply stepwise_comment .incommentseendashdash hFollows hComment
      rfl
    · apply pendStep_of_kept
      unfold Filter.htmlStep
      simp only [hState, if_pos hDash]
      rw [← hState]
    · unfold Reader.step
      rw [hReader]
      simp only [if_pos hDash]
      rw [← hReader]
  by_cases hEnd : c = chr '>'
  · have hStep : s.pendStep cfg pend c = some ({ s with curState := .intext }, [],
          s.unstyled (pend ++ [c])) := by
      have hWhole := chunkPart_whole (pend ++ [c])
      rw [List.length_append, List.length_singleton] at hWhole
      apply pendStep_of_reset
      unfold Filter.htmlStep
      simp only [hState, if_neg hDash, if_neg (not_not.mpr hEnd), hWhole]
    have hNext : w.reader.step c = ({ w.reader with curState := .intext }, []) := by
      unfold Reader.step
      rw [hReader]
      simp only [if_neg hDash, if_neg (not_not.mpr hEnd)]
    rcases watch_quiet hNext with ⟨hAfter, hStyle, hEnded⟩
    have hPiece := piece_comment (w := w) (c := c) (hFollows.state ▸ hComment) (s.said cfg c)
    apply stepwise_fine hStep hEnded
    · rw [flush_nil, flush_textual _ (textual_of_comment hComment), unstyled_eq hFollows,
        unstyled_eq hFollows, hPiece, List.append_nil]
      split
      · rfl
      · rfl
    · rintro ⟨hText, _⟩
      rw [hReader] at hText
      cases hText
    · rintro ⟨hOpen, _⟩
      rw [hReader] at hOpen
      cases hOpen
    · apply follows_textual rfl
      · rw [hAfter]
      · rw [hStyle]
        exact hFollows.style
  · apply stepwise_comment .incomment hFollows hComment rfl
    · apply pendStep_of_kept
      unfold Filter.htmlStep
      simp only [hState, if_neg hDash, if_pos hEnd]
    · unfold Reader.step
      rw [hReader]
      simp only [if_neg hDash, if_pos hEnd]

/- One character, whatever the state. -/
theorem Follows.stepwise (cfg : Config) (hFollows : Follows s w)
    (hTurns : Alternate w.styled (w.ended c)) (pend : List Byte) : Stepwise cfg s pend w c := by
  have hReader := hFollows.state
  cases hState : s.curState with
  | intext => exact stepwise_intext hFollows hState pend c
  | seenlt => exact stepwise_seenlt hFollows hState pend c
  | intag =>
    rw [hState] at hReader
    apply stepwise_doIntag hFollows
    · rw [hState]
      rfl
    · rintro ⟨hDash, _⟩
      rw [hReader] at hDash
      cases hDash
    · unfold Reader.step
      rw [hReader]
    · intro pend
      unfold Filter.htmlStep
      simp only [hState]
    · exact hTurns
  | seenltbang => exact stepwise_seenltbang hFollows hState hTurns pend
  | seenltbangdash => exact stepwise_seenltbangdash hFollows hState hTurns pend
  | incomment =>
    rw [hState] at hReader
    apply stepwise_comment (if c = chr '-' then .incommentseendash else .incomment) hFollows
    · rw [hState]
      rfl
    · split
      · rfl
      · rfl
    · apply pendStep_of_kept
      unfold Filter.htmlStep
      simp only [hState]
    · unfold Reader.step
      rw [hReader]
  | incommentseendash =>
    rw [hState] at hReader
    apply stepwise_comment (if c = chr '-' then
        .incommentseendashdash
      else
        .incomment)
      hFollows
    · rw [hState]
      rfl
    · split
      · rfl
      · rfl
    · apply pendStep_of_kept
      unfold Filter.htmlStep
      simp only [hState]
    · unfold Reader.step
      rw [hReader]
  | incommentseendashdash => exact stepwise_comment_end hFollows hState pend c

------------
-- The Whole Input
------------

/- What holds at every character that is read. -/
def AllSteps (cfg : Config) (P : Filter → List Byte → Watch → Byte → Prop) :
    List Byte → Filter → List Byte → Watch → Prop
  | [], _, _, _ => True
  | c :: rest, s, pend, w =>
    P s pend w c ∧ ∀ s' pend' out, s.pendStep cfg pend c = some (s', pend', out) →
          AllSteps cfg P rest s' pend' (w.step c)

variable {P Q : Filter → List Byte → Watch → Byte → Prop}

/- The first character of what has been read. -/
theorem pendLoop_cons {front : List Byte} {found : Filter × List Byte}
    (hLoop : (s.pendLoop cfg (c :: front) pend).2 = some found) :
    ∃ s' pend' out, s.pendStep cfg pend c = some (s', pend', out) ∧
      (s'.pendLoop cfg front pend').2 = some found ∧
      (s.pendLoop cfg (c :: front) pend).1 = out ++ (s'.pendLoop cfg front pend').1 := by
  rw [Filter.pendLoop] at hLoop ⊢
  cases hStep : s.pendStep cfg pend c with
  | none =>
    rw [hStep] at hLoop
    cases hLoop
  | some r =>
    rw [hStep] at hLoop
    exact ⟨r.1, r.2.1, r.2.2, rfl, hLoop, rfl⟩

theorem pendLoop_step (hStep : s.pendStep cfg pend c = some (s', pend', out))
    (front : List Byte) :
    s.pendLoop cfg (c :: front) pend = (out ++ (s'.pendLoop cfg front pend').1,
        (s'.pendLoop cfg front pend').2) := by
  rw [Filter.pendLoop, hStep]

/- Every character is read behind some front of the input. -/
theorem allSteps_iff (html : List Byte) (s : Filter) (pend : List Byte) (w : Watch) :
    AllSteps cfg P html s pend w ↔ ∀ front c s' pend', front ++ [c] <+: html →
        (s.pendLoop cfg front pend).2 = some (s', pend') → P s' pend' (w.read front) c := by
  induction html generalizing s pend w with
  | nil =>
    refine iff_of_true trivial ?_
    intro front c s' pend' hFront
    rw [List.prefix_nil, List.append_eq_nil_iff] at hFront
    cases hFront.2
  | cons b rest ih =>
    rw [AllSteps]
    constructor
    · rintro ⟨hFirst, hRest⟩ front c s' pend' hFront hLoop
      cases front with
      | nil =>
        rw [List.nil_append, List.cons_prefix_cons] at hFront
        cases hLoop
        rw [hFront.1]
        exact hFirst
      | cons d front =>
        rw [List.cons_append, List.cons_prefix_cons] at hFront
        rw [hFront.1] at hLoop ⊢
        rcases pendLoop_cons hLoop with ⟨t, q, out, hStep, hMore, _⟩
        exact (ih t q (w.step b)).mp (hRest t q out hStep) front c s' pend' hFront.2 hMore
    · intro hAll
      constructor
      · exact hAll [] b s pend (List.prefix_append [b] rest) rfl
      · intro s' pend' out hStep
        apply (ih s' pend' (w.step b)).mpr
        intro front c t q hFront hLoop
        apply hAll (b :: front) c t q
        · rw [List.cons_append, List.cons_prefix_cons]
          exact ⟨rfl, hFront⟩
        · rw [pendLoop_step hStep]
          exact hLoop

theorem allSteps_and (html : List Byte) (s : Filter) (pend : List Byte) (w : Watch) :
    AllSteps cfg (fun s pend w c => P s pend w c ∧ Q s pend w c) html s pend w ↔
      AllSteps cfg P html s pend w ∧ AllSteps cfg Q html s pend w := by
  simp only [allSteps_iff]
  constructor
  · intro hBoth
    exact ⟨fun front c s' pend' hFront hLoop =>
        (hBoth front c s' pend' hFront hLoop).1,
      fun front c s' pend' hFront hLoop => (hBoth front c s' pend' hFront hLoop).2⟩
  · intro hBoth front c s' pend' hFront hLoop
    exact ⟨hBoth.1 front c s' pend' hFront hLoop, hBoth.2 front c s' pend' hFront hLoop⟩

/- The output grows as it is to grow. -/
def StepKept (cfg : Config) (s : Filter) (pend : List Byte) (w : Watch) (c : Byte) : Prop :=
  ∀ s' pend' out, s.pendStep cfg pend c = some (s', pend', out) →
    out ++ s'.flush pend' = s.flush pend ++ w.piece c (s.said cfg c)

theorem wanted_cons (hStep : s.pendStep cfg pend c = some (s', pend', out))
    (front : List Byte) (w : Watch) :
    wanted cfg (c :: front) s w = w.piece c (s.said cfg c) ++ wanted cfg front s' (w.step c) := by
  have hNext : s.next cfg c = some s' := by
    rw [← next_eq cfg s pend c, hStep]
    rfl
  rw [wanted, hNext]

/- So it is right when it grows rightly at every character. -/
theorem textKept_steps (html : List Byte) (s : Filter) (pend : List Byte) (w : Watch) :
    (∀ front s' pend', front <+: html →
      (s.pendLoop cfg front pend).2 = some (s', pend') →
        (s.pendLoop cfg front pend).1 ++ s'.flush pend' = s.flush pend ++ wanted cfg front s w) ↔
      AllSteps cfg (StepKept cfg) html s pend w := by
  have hEmpty : ∀ (s : Filter) pend w, (s.pendLoop cfg [] pend).1 ++ s.flush pend =
        s.flush pend ++ wanted cfg [] s w := by
    intro s pend w
    exact (List.append_nil _).symm
  induction html generalizing s pend w with
  | nil =>
    refine iff_of_true ?_ trivial
    intro front s' pend' hFront hLoop
    rw [List.prefix_nil.mp hFront] at hLoop ⊢
    cases hLoop
    exact hEmpty s pend w
  | cons b rest ih =>
    rw [AllSteps]
    constructor
    · intro hAll
      have hFirst : StepKept cfg s pend w b := by
        intro s' pend' out hStep
        have hOne := hAll [b] s' pend' (List.prefix_append [b] rest)
          (by rw [pendLoop_step hStep]; rfl)
        rw [pendLoop_step hStep, wanted_cons hStep, wanted, List.append_nil] at hOne
        simpa [Filter.pendLoop] using hOne
      refine ⟨hFirst, ?_⟩
      intro s' pend' out hStep
      apply (ih s' pend' (w.step b)).mp
      intro front t q hFront hLoop
      have hMore := hAll (b :: front) t q (List.cons_prefix_cons.mpr ⟨rfl, hFront⟩)
        (by rw [pendLoop_step hStep]; exact hLoop)
      rw [pendLoop_step hStep, wanted_cons hStep, ← List.append_assoc, ← hFirst s' pend' out hStep,
        List.append_assoc, List.append_assoc, List.append_right_inj] at hMore
      exact hMore
    · rintro ⟨hFirst, hRest⟩ front s' pend' hFront hLoop
      cases front with
      | nil =>
        cases hLoop
        exact hEmpty s pend w
      | cons d front =>
        rw [List.cons_prefix_cons] at hFront
        rw [hFront.1] at hLoop ⊢
        rcases pendLoop_cons hLoop with ⟨t, q, out, hStep, hMore, hOut⟩
        have hThere := (ih t q (w.step b)).mpr (hRest t q out hStep) front s' pend' hFront.2 hMore
        rw [hOut, wanted_cons hStep, ← List.append_assoc, ← hFirst t q out hStep, List.append_assoc,
          hThere, List.append_assoc]

theorem alternate_append (styled : Bool) (tags more : List (List Byte)) :
    Alternate styled (tags ++ more) ↔ Alternate styled tags ∧
        Alternate (tags.foldl styledBy styled) more := by
  induction tags generalizing styled with
  | nil => exact (iff_of_eq (true_and _)).symm
  | cons tag tags ih =>
    rw [List.cons_append, Alternate, Alternate, ih, List.foldl_cons]
    simp only [and_assoc]

/-
  As long as all tags are analysed on their own characters the
  filter follows the watch, and what goes wrong first is one
  of the three things.
-/
theorem Follows.allSteps (cfg : Config) (html : List Byte) {w : Watch}
    (hFollows : Follows s w) (hAlternate : Alternate w.styled (w.reader.read html).2)
    (pend : List Byte) :
    AllSteps cfg (StepHolds cfg) html s pend w ↔
      AllSteps cfg (fun s _ w c => StepFine s w c) html s pend w := by
  induction html generalizing s pend w with
  | nil => exact Iff.rfl
  | cons c rest ih =>
    rw [Reader.read, alternate_append] at hAlternate
    rcases hAlternate with ⟨hTurns, hLater⟩
    have hStepwise := hFollows.stepwise cfg hTurns pend
    rw [AllSteps, AllSteps, hStepwise.holds]
    refine and_congr_right ?_
    intro hFine
    have hOwn := (hStepwise.holds.mpr hFine).tag
    have hRest : ∀ s' pend' out, s.pendStep cfg pend c = some (s', pend', out) →
          (AllSteps cfg (StepHolds cfg) rest s' pend' (w.step c) ↔
            AllSteps cfg (fun s _ w c => StepFine s w c) rest s' pend' (w.step c)) := by
      intro s' pend' out hStep
      exact ih (hStepwise.next hOwn s' pend' out hStep) hLater pend'
    constructor
    · intro hHolds s' pend' out hStep
      exact (hRest s' pend' out hStep).mp (hHolds s' pend' out hStep)
    · intro hHolds s' pend' out hStep
      exact (hRest s' pend' out hStep).mpr (hHolds s' pend' out hStep)

/- What the call tells about the fronts of its input. -/
theorem htmlfilter_steps {R : Filter → Watch → Byte → Prop} (s : Filter) (html : List Byte) :
    (∀ front c s', front ++ [c] <+: html →
      (s.htmlfilter cfg front).2 = some s' → R s' (newWatch.read front) c) ↔
      AllSteps cfg (fun s _ w c => R s w c) html s [] newWatch := by
  rw [allSteps_iff]
  constructor
  · intro hAll front c s' pend' hFront hLoop
    apply hAll front c s' hFront
    rw [htmlfilter_eq_pendLoop, hLoop]
    rfl
  · intro hAll front c s' hFront hRun
    rw [htmlfilter_eq_pendLoop, Option.map_eq_some_iff] at hRun
    rcases hRun with ⟨found, hLoop, hSame⟩
    rw [← hSame]
    exact hAll front c found.1 found.2 hFront hLoop

theorem textKept_iff (s : Filter) (html : List Byte) :
    TextKept cfg s html ↔ AllSteps cfg (StepKept cfg) html s [] newWatch := by
  rw [← textKept_steps]
  constructor
  · intro hKept front s' pend' hFront hLoop
    have hOut := hKept front s' hFront (by
      rw [htmlfilter_eq_pendLoop, hLoop]
      rfl)
    rw [htmlfilter_eq_pendLoop, hLoop] at hOut
    rw [flush_nil, List.nil_append]
    exact hOut
  · intro hSteps front s' hFront hRun
    rw [htmlfilter_eq_pendLoop, Option.map_eq_some_iff] at hRun
    rcases hRun with ⟨found, hLoop, hSame⟩
    have hOut := hSteps front found.1 found.2 hFront hLoop
    rw [flush_nil, List.nil_append] at hOut
    rw [htmlfilter_eq_pendLoop, hLoop]
    exact hOut

/-
  The filter keeps the text and the comments, and analyses
  every tag on its own characters, if and only if every
  character is read as it is to be.
-/
theorem htmlExact_iff (cfg : Config) (s : Filter) (html : List Byte)
    (hAlternate : Alternate false (readTags html)) :
    TextKept cfg s.htmlfilterInit html ∧ TagsOwn cfg s.htmlfilterInit html ↔
      StepsFine cfg s.htmlfilterInit html := by
  have hTags : TagsOwn cfg s.htmlfilterInit html ↔ AllSteps cfg
        (fun s _ w c => ∀ tag, tag ∈ w.ended c → OwnTag s tag)
        html s.htmlfilterInit [] newWatch := by
    rw [← htmlfilter_steps]
    unfold TagsOwn
    constructor
    · exact fun hOwn front c s' hFront hRun tag hMem => hOwn front c s' tag hFront hRun hMem
    · exact fun hOwn front c s' tag hFront hRun hMem => hOwn front c s' hFront hRun tag hMem
  have hFine := (follows_new s).allSteps cfg html hAlternate []
  unfold StepsFine
  rw [htmlfilter_steps, ← hFine, textKept_iff, hTags, ← allSteps_and]
  simp only [allSteps_iff]
  constructor
  · intro hBoth front c s' pend' hFront hLoop
    rcases hBoth front c s' pend' hFront hLoop with ⟨hOut, hOwn⟩
    exact ⟨hOut, hOwn⟩
  · intro hHolds front c s' pend' hFront hLoop
    have hStep := hHolds front c s' pend' hFront hLoop
    exact ⟨hStep.output, hStep.tag⟩

instance decAlternate : (styled : Bool) → (tags : List (List Byte)) →
      Decidable (Alternate styled tags)
  | _, [] => inferInstanceAs (Decidable True)
  | styled, tag :: tags =>
    have _ := decAlternate (styledBy styled tag) tags
    inferInstanceAs (Decidable (_ ∧ _ ∧ _))

/- A stylesheet, and text behind it. -/
theorem htmlExact_style : TextKept plainConfig freshFilter.htmlfilterInit
          (bytes "<STYLE>p</STYLE>a>b") ∧
        TagsOwn plainConfig freshFilter.htmlfilterInit (bytes "<STYLE>p</STYLE>a>b") ↔
      StepsFine plainConfig freshFilter.htmlfilterInit (bytes "<STYLE>p</STYLE>a>b") :=
  htmlExact_iff plainConfig freshFilter (bytes "<STYLE>p</STYLE>a>b") (by decide +kernel)

/- In a stylesheet a child selector is put out. -/
theorem not_htmlExact : ¬ ∀ (cfg : Config) (s : Filter) (html : List Byte),
      (∀ tag, tag ∈ readTags html → tag.length < 1000) →
        Alternate false (readTags html) → TextKept cfg s.htmlfilterInit html ∧
            TagsOwn cfg s.htmlfilterInit html := by
  intro hExact
  have hKept := (hExact plainConfig freshFilter (bytes "<STYLE>a>b</STYLE>") (by decide +kernel)
    (by decide +kernel)).1
  have hOut : (freshFilter.htmlfilterInit.htmlfilter plainConfig
      (bytes "<STYLE>a>b</STYLE>")).1 = bytes "a&nbsp;" := by
    decide +kernel
  have hWanted : wanted plainConfig (bytes "<STYLE>a>b</STYLE>")
      freshFilter.htmlfilterInit newWatch = [] := by
    decide +kernel
  have hRun : (freshFilter.htmlfilterInit.htmlfilter plainConfig
      (bytes "<STYLE>a>b</STYLE>")).2.isSome = true := by
    decide +kernel
  rcases Option.isSome_iff_exists.mp hRun with ⟨s', hAfter⟩
  have hSame := hKept _ s' (List.prefix_refl _) hAfter
  rw [hOut, hWanted] at hSame
  exact absurd hSame (by decide)

end Wmail.Sqwebmail
