import Wmail.Sqwebmail.HtmlFilter

/-
  Runs of the filter, and its output read again.

  One reader goes through the input beside the filter, and
  knows the tag that the filter has in its buffer.  Another one
  goes through the output: it is in text when the filter is in
  text or in a tag, and in a comment when the filter is in one
  that is passed along.

  Key theorems include:
    * `Tracks.htmlfilterAll`
    * `runFits_safe`
-/

namespace Wmail.Sqwebmail

/- The filter after one more character of the input. -/
def Filter.next (cfg : Config) (s : Filter) (c : Byte) : Option Filter :=
  (s.pendStep cfg [] c).map Prod.fst

/- What is pending makes no difference to the filter. -/
theorem next_eq (cfg : Config) (s : Filter) (pend : List Byte) (c : Byte) :
    (s.pendStep cfg pend c).map Prod.fst = s.next cfg c := by
  unfold Filter.next
  cases s.turn cfg c with
  | lost hTextual hNone => rw [hNone, hNone]
  | kept s' hStep hTextual hStyle =>
    rw [hStep, hStep]
    rfl
  | tag s' out hTextual hStep => rw [hStep, hStep]
  | before s' hTextual hNext hStep =>
    rw [hStep, hStep]
    rfl
  | comment s' hTextual hStyle hStep =>
    rw [hStep, hStep]
    rfl
  | stray hState hStray hStep =>
    rw [hStep, hStep]
    rfl

/-
  Every tag of the input can be handled, in the state that the
  filter is in when it ends.
-/
def RunFits (cfg : Config) (rule : LinkRule) : List Byte → Filter → Reader → Prop
  | [], _, _ => True
  | c :: rest, s, r =>
    (∀ tag, tag ∈ (r.step c).2 → TagFits cfg rule (s.instyletag ≠ 0) tag) ∧
      match s.next cfg c with
      | none => True
      | some s => RunFits cfg rule rest s (r.step c).1

variable {cfg : Config} {policy : Policy cfg}

/- What a reader of the output is in. -/
def Shown (s : Filter) (pend : List Byte) (r : Reader) : Prop :=
  match s.curState with
  | .intext => r.curState = .intext ∧ chr '<' ∉ pend
  | .seenlt | .seenltbang | .seenltbangdash | .intag => r.curState = .intext
  | .incomment | .incommentseendash | .incommentseendashdash =>
    if s.instyletag = 0 then
      ∃ r', r.read pend = (r', []) ∧ r'.curState = s.curState
    else
      r.curState = .intext

/- What has been put out is safe, and is read as shown. -/
def OutputSafe (policy : Policy cfg) (s : Filter) (pend out : List Byte) : Prop :=
  (∀ tag, tag ∈ readTags out → TagSafe policy tag) ∧ Shown s pend (newReader.read out).1

/- The filter beside a reader of its input. -/
structure Tracks (policy : Policy cfg) (s : Filter) (r : Reader) (pend out : List Byte) : Prop where
  state : r.curState = s.curState
  sound : r.Sound
  multiple : 256 ∣ s.tagbufsize
  written : s.curState.textual = false → s.Written r.tag
  size : (s.curState.textual = false → r.tag.length ≤ tagLimit) → s.tagbufsize ≤ tagLimit
  output : OutputSafe policy s pend out

/- More output. -/
theorem OutputSafe.more {s : Filter} {pend out more : List Byte}
    (hTags : ∀ tag, tag ∈ readTags out → TagSafe policy tag)
    (hMore : ∀ tag, tag ∈ ((newReader.read out).1.read more).2 →
      TagSafe policy tag) (hShown : Shown s pend ((newReader.read out).1.read more).1) :
    OutputSafe policy s pend (out ++ more) := by
  unfold OutputSafe readTags
  rw [read_append]
  refine ⟨?_, hShown⟩
  intro tag hMem
  rcases List.mem_append.mp hMem with hHere | hThere
  · exact hTags tag hHere
  · exact hMore tag hThere

theorem not_mem_nil_tags (policy : Policy cfg) :
    ∀ tag, tag ∈ ([] : List (List Byte)) → TagSafe policy tag := by
  intro tag hMem
  cases hMem

/- Text is passed along while the reader is in text. -/
theorem OutputSafe.text {s s' : Filter} {pend pend' out more : List Byte}
    (hOutput : OutputSafe policy s pend out)
    (hState : (newReader.read out).1.curState = .intext) (hSafe : TextSafe policy more)
    (hShown : ∀ r : Reader, r.curState = .intext →
      Shown s' pend' r) : OutputSafe policy s' pend' (out ++ more) := by
  rcases hSafe _ hState with ⟨hEnd, hTags⟩
  exact OutputSafe.more hOutput.1 hTags (hShown _ hEnd)

theorem Reader.step_sound {r : Reader} (hSound : r.Sound) (c : Byte) : (r.step c).1.Sound :=
  (hSound.step c).1

theorem textSafe_unstyled {s : Filter} {text : List Byte} (hSafe : TextSafe policy text) :
    TextSafe policy (s.unstyled text) := by
  unfold Filter.unstyled
  split
  · exact hSafe
  · exact textSafe_plain policy List.not_mem_nil

/- What a step is to establish. -/
def Stepped (policy : Policy cfg) (s : Filter) (r : Reader) (pend out : List Byte)
    (c : Byte) : Prop :=
  ∃ s' pend' more, s.pendStep cfg pend c = some (s', pend', more) ∧
    Tracks policy s' (r.step c).1 pend' (out ++ more)

variable {s : Filter} {r : Reader} {pend out : List Byte}

theorem step_intext (hTracks : Tracks policy s r pend out) (hState : s.curState = .intext)
    (c : Byte) : Stepped policy s r pend out c := by
  have hReader := hTracks.state.trans hState
  have hSound := Reader.step_sound hTracks.sound c
  have hSize := hTracks.size (fun hTag => by
    rw [hState] at hTag
    cases hTag)
  have hShown := hTracks.output.2
  unfold Shown at hShown
  rw [hState] at hShown
  rcases hShown with ⟨hOut, hPlain⟩
  by_cases hEnd : c = chr '>'
  · have hStep : s.pendStep cfg pend c = some (s, [], pend ++ bytes "&nbsp;") := by
      apply pendStep_of_reset
      unfold Filter.htmlStep
      simp only [hState, if_pos hEnd, chunkPart_pend]
    have hSame : r.step c = (r, []) := by
      unfold Reader.step
      rw [hReader, hEnd]
      rfl
    rw [hSame] at hSound
    refine ⟨s, [], _, hStep, ?_⟩
    rw [hSame]
    refine ⟨hTracks.state, hSound, hTracks.multiple, hTracks.written, fun _ => hSize, ?_⟩
    apply hTracks.output.text hOut
    · exact (textSafe_plain policy hPlain).append (textSafe_plain policy (by decide))
    · intro r' hText
      unfold Shown
      rw [hState]
      exact ⟨hText, List.not_mem_nil⟩
  by_cases hOpen : c = chr '<'
  · have hStep : s.pendStep cfg pend c = some ({ s with curState := .seenlt, tagbuflen := 0 },
          pend ++ [c], s.unstyled pend) := by
      apply pendStep_of_kept
      unfold Filter.htmlStep
      simp only [hState, if_neg hEnd, if_pos hOpen, chunkPart_pend]
    have hNext : r.step c = (⟨.seenlt, []⟩, []) := by
      unfold Reader.step
      rw [hReader, hOpen]
      rfl
    rw [hNext] at hSound
    refine ⟨_, _, _, hStep, ?_⟩
    rw [hNext]
    refine ⟨rfl, hSound, hTracks.multiple, fun _ => ⟨hTracks.multiple, fun _ => ⟨rfl, rfl⟩⟩,
      fun _ => hSize, ?_⟩
    apply hTracks.output.text hOut
    · exact textSafe_unstyled (textSafe_plain policy hPlain)
    · intro r' hText
      exact hText
  · have hStep : s.pendStep cfg pend c = some (s, pend ++ [c], []) := by
      apply pendStep_of_kept
      unfold Filter.htmlStep
      simp only [hState, if_neg hEnd, if_neg hOpen]
    have hSame : r.step c = (r, []) := by
      unfold Reader.step
      rw [hReader]
      exact if_neg hOpen
    refine ⟨s, _, _, hStep, ?_⟩
    rw [hSame, List.append_nil]
    refine ⟨hTracks.state, hTracks.sound, hTracks.multiple,
      hTracks.written, fun _ => hSize, hTracks.output.1, ?_⟩
    unfold Shown
    rw [hState]
    refine ⟨hOut, ?_⟩
    rw [List.mem_append, List.mem_singleton, not_or]
    exact ⟨hPlain, Ne.symm hOpen⟩

/- The output is in text while the filter is in a tag. -/
theorem OutputSafe.in_tag (hOutput : OutputSafe policy s pend out)
    (hTextual : s.curState.textual = false) : (newReader.read out).1.curState = .intext := by
  have hShown := hOutput.2
  unfold Shown at hShown
  cases hState : s.curState with
  | intext =>
    rw [hState] at hTextual
    cases hTextual
  | seenlt =>
    rw [hState] at hShown
    exact hShown
  | seenltbang =>
    rw [hState] at hShown
    exact hShown
  | seenltbangdash =>
    rw [hState] at hShown
    exact hShown
  | intag =>
    rw [hState] at hShown
    exact hShown
  | incomment =>
    rw [hState] at hTextual
    cases hTextual
  | incommentseendash =>
    rw [hState] at hTextual
    cases hTextual
  | incommentseendashdash =>
    rw [hState] at hTextual
    cases hTextual

/- A character goes into the buffer. -/
theorem step_added {c : Byte} (state : HtmlState) (hTracks : Tracks policy s r pend out)
    (hTextual : s.curState.textual = false) (hNew : state.textual = false)
    (hNext : r.step c = (⟨state, r.tag ++ [c]⟩, []))
    (hStep : s.pendStep cfg pend c =
      some ({ s.addtagbuf c with curState := state }, pend ++ [c], [])) :
    Stepped policy s r pend out c := by
  have hSound := Reader.step_sound hTracks.sound c
  have hWritten := hTracks.written hTextual
  have hAdded := hWritten.addtagbuf c
  have hText := hTracks.output.in_tag hTextual
  refine ⟨_, _, _, hStep, ?_⟩
  rw [hNext, List.append_nil]
  rw [hNext] at hSound
  refine ⟨rfl, hSound, hAdded.multiple,
    fun _ => ⟨hAdded.multiple, hAdded.text⟩, ?_, hTracks.output.1,
    ?_⟩
  · intro hLength
    have hShort := hLength hNew
    rw [List.length_append, List.length_singleton] at hShort
    have hSize := hTracks.size (fun _ => Nat.le_of_succ_le hShort)
    exact hWritten.small hSize hShort c
  · unfold Shown
    cases state with
    | intext => cases hNew
    | seenlt => exact hText
    | seenltbang => exact hText
    | seenltbangdash => exact hText
    | intag => exact hText
    | incomment => cases hNew
    | incommentseendash => cases hNew
    | incommentseendashdash => cases hNew

theorem addtagbuf_curState (s : Filter) (state : HtmlState) (c : Byte) :
    Filter.addtagbuf { s with curState := state } c = { s.addtagbuf c with curState := state } := by
  unfold Filter.addtagbuf
  simp only []
  split
  · rfl
  · rfl

/- The tag of the reader, in a state of the filter. -/
theorem Tracks.sound_at {state : HtmlState} (hTracks : Tracks policy s r pend out)
    (hState : s.curState = state) : (⟨state, r.tag⟩ : Reader).Sound := by
  rw [← hTracks.state.trans hState]
  exact hTracks.sound

/- A character of a tag, which may be its end. -/
theorem step_doIntag {c : Byte} (hTracks : Tracks policy s r pend out)
    (hTextual : s.curState.textual = false) (hTag : TagText r.tag) (hNext : r.step c = r.intag c)
    (hHtml : s.htmlStep cfg (pend ++ [c]) pend.length 0 c = s.doIntag cfg pend.length 0 c)
    (hFits : ∀ tag, tag ∈ (r.step c).2 →
      TagFits cfg policy.rule (s.instyletag ≠ 0) tag) : Stepped policy s r pend out c := by
  by_cases hEnd : c = chr '>'
  · have hLast : r.step c = ({ r with curState := .intext }, [r.tag]) := by
      rw [hNext]
      exact if_pos hEnd
    have hTagFits := hFits r.tag (by
      rw [hLast]
      exact List.mem_cons_self)
    have hWritten := hTracks.written hTextual
    have hSize := hTracks.size (fun _ => Nat.le_of_lt hTagFits.1)
    have hFiltered := filteredTag_safe (s := { s with curState := .intext }) policy
      ⟨hWritten.multiple, hWritten.text⟩ hSize hTag hTagFits
    rcases hFiltered with ⟨s', more, hRun, hState, hMultiple, hSmall, hSafe⟩
    have hText : s'.curState = .intext := hState
    have hStep : s.pendStep cfg pend c = some (s', [], more) := by
      apply pendStep_of_reset
      rw [hHtml]
      unfold Filter.doIntag
      rw [if_pos hEnd, hRun]
      rfl
    refine ⟨s', [], more, hStep, ?_⟩
    rw [hLast]
    refine ⟨hText.symm, trivial, hMultiple, ?_, fun _ => hSmall, ?_⟩
    · intro hOther
      rw [hText] at hOther
      cases hOther
    · apply hTracks.output.text (hTracks.output.in_tag hTextual) hSafe
      intro r' hPlain
      unfold Shown
      rw [hText]
      exact ⟨hPlain, List.not_mem_nil⟩
  · apply step_added .intag hTracks hTextual rfl
    · rw [hNext]
      exact if_neg hEnd
    · apply pendStep_of_kept
      rw [hHtml]
      unfold Filter.doIntag
      rw [if_neg hEnd, addtagbuf_curState]

/- The text `<>` has no tag. -/
theorem textSafe_empty (policy : Policy cfg) : TextSafe policy (bytes "<>") := by
  intro r hState
  have hOpen : r.step (chr '<') = (⟨.seenlt, []⟩, []) := by
    unfold Reader.step
    rw [hState]
    rfl
  have hRead : r.read (bytes "<>") = (⟨.intext, []⟩, []) := by
    have hSplit : bytes "<>" = [chr '<', chr '>'] := by decide
    rw [hSplit, Reader.read, hOpen]
    rfl
  rw [hRead]
  exact ⟨rfl, not_mem_nil_tags policy⟩

theorem step_seenlt (hTracks : Tracks policy s r pend out) (hState : s.curState = .seenlt)
    (c : Byte) : Stepped policy s r pend out c := by
  have hReader := hTracks.state.trans hState
  have hTextual : s.curState.textual = false := by
    rw [hState]
    rfl
  have hTag : r.tag = [] := hTracks.sound_at hState
  have hSize := hTracks.size (fun _ => by
    rw [hTag]
    exact Nat.zero_le _)
  have hText := hTracks.output.in_tag hTextual
  have hBack : ∀ (s' : Filter) (r' : Reader) (more : List Byte),
      s' = { s with curState := .intext } →
        r' = { r with curState := .intext } → TextSafe policy more →
            Tracks policy s' r' [] (out ++ more) := by
    intro s' r' more hFilter hNew hSafe
    rw [hFilter, hNew]
    refine ⟨rfl, trivial, hTracks.multiple, ?_, fun _ => hSize, ?_⟩
    · intro hOther
      cases hOther
    · apply hTracks.output.text hText hSafe
      intro r' hPlain
      exact ⟨hPlain, List.not_mem_nil⟩
  by_cases hEnd : c = chr '>'
  · refine ⟨{ s with curState := .intext }, [], s.unstyled (bytes "<>"), ?_, hBack _ _ _ rfl ?_ ?_⟩
    · apply pendStep_of_reset
      unfold Filter.htmlStep
      simp only [hState, if_pos hEnd]
    · unfold Reader.step
      rw [hReader]
      simp only [if_pos hEnd]
    · exact textSafe_unstyled (textSafe_empty policy)
  by_cases hBlank : isspace c = true
  · have hSame : r.step c = (r, []) := by
      unfold Reader.step
      rw [hReader]
      simp only [if_neg hEnd, if_pos hBlank]
    refine ⟨s, pend ++ [c], [], ?_, ?_⟩
    · apply pendStep_of_kept
      unfold Filter.htmlStep
      simp only [hState, if_neg hEnd, if_pos hBlank]
    · rw [hSame, List.append_nil]
      refine ⟨hTracks.state, hTracks.sound, hTracks.multiple,
        hTracks.written, hTracks.size, hTracks.output.1, ?_⟩
      unfold Shown
      rw [hState]
      exact hText
  by_cases hBang : c = chr '!'
  · apply step_added .seenltbang hTracks hTextual rfl
    · unfold Reader.step
      rw [hReader]
      simp only [if_neg hEnd, if_neg hBlank, if_pos hBang]
    · apply pendStep_of_kept
      unfold Filter.htmlStep
      simp only [hState, if_neg hEnd, if_neg hBlank, if_pos hBang, addtagbuf_curState]
  by_cases hLetter : (c ≠ chr '/' && !isalpha c) = true
  · refine ⟨{ s with curState := .intext }, [], [], ?_,
      hBack _ _ _ rfl ?_ (textSafe_plain policy List.not_mem_nil)⟩
    · apply pendStep_of_reset
      unfold Filter.htmlStep
      simp only [hState, if_neg hEnd, if_neg hBlank, if_neg hBang, if_pos hLetter]
    · unfold Reader.step
      rw [hReader]
      simp only [if_neg hEnd, if_neg hBlank, if_neg hBang, if_pos hLetter]
  · apply step_added .intag hTracks hTextual rfl
    · unfold Reader.step
      rw [hReader]
      simp only [if_neg hEnd, if_neg hBlank, if_neg hBang, if_neg hLetter]
    · apply pendStep_of_kept
      unfold Filter.htmlStep
      simp only [hState, if_neg hEnd, if_neg hBlank, if_neg hBang,
        if_neg hLetter, addtagbuf_curState]

theorem step_seenltbang (hTracks : Tracks policy s r pend out)
    (hState : s.curState = .seenltbang) (c : Byte)
    (hFits : ∀ tag, tag ∈ (r.step c).2 →
      TagFits cfg policy.rule (s.instyletag ≠ 0) tag) : Stepped policy s r pend out c := by
  have hReader := hTracks.state.trans hState
  have hTextual : s.curState.textual = false := by
    rw [hState]
    rfl
  have hTag : r.tag = [chr '!'] := hTracks.sound_at hState
  by_cases hDash : c ≠ chr '-'
  · apply step_doIntag hTracks hTextual _ _ _ hFits
    · rw [hTag]
      exact tagText_bang
    · unfold Reader.step
      rw [hReader]
      exact if_pos hDash
    · unfold Filter.htmlStep
      simp only [hState, if_pos hDash]
  · apply step_added .seenltbangdash hTracks hTextual rfl
    · unfold Reader.step
      rw [hReader]
      exact if_neg hDash
    · apply pendStep_of_kept
      unfold Filter.htmlStep
      simp only [hState, if_neg hDash]

/- The start of a comment. -/
theorem read_comment (q : Reader) (hState : q.curState = .intext) :
    q.read (bytes "<!--") =
      (⟨.incomment, [chr '!', chr '-']⟩, []) := by
  have hOpen : q.step (chr '<') = (⟨.seenlt, []⟩, []) := by
    unfold Reader.step
    rw [hState]
    rfl
  have hSplit : bytes "<!--" =
      [chr '<', chr '!', chr '-', chr '-'] := by
    decide
  rw [hSplit, Reader.read, hOpen]
  rfl

theorem step_seenltbangdash (hTracks : Tracks policy s r pend out)
    (hState : s.curState = .seenltbangdash) (c : Byte)
    (hFits : ∀ tag, tag ∈ (r.step c).2 →
      TagFits cfg policy.rule (s.instyletag ≠ 0) tag) : Stepped policy s r pend out c := by
  have hReader := hTracks.state.trans hState
  have hTextual : s.curState.textual = false := by
    rw [hState]
    rfl
  have hTag : r.tag = [chr '!', chr '-'] := hTracks.sound_at hState
  by_cases hDash : c ≠ chr '-'
  · apply step_doIntag hTracks hTextual _ _ _ hFits
    · rw [hTag]
      exact tagText_dash
    · unfold Reader.step
      rw [hReader]
      exact if_pos hDash
    · unfold Filter.htmlStep
      simp only [hState, if_pos hDash]
  · have hNext : r.step c = ({ r with curState := .incomment }, []) := by
      unfold Reader.step
      rw [hReader]
      exact if_neg hDash
    have hSize := hTracks.size (fun _ => by
      rw [hTag]
      decide)
    have hText := hTracks.output.in_tag hTextual
    refine ⟨{ s with curState := .incomment }, [],
      s.unstyled (bytes "<!--"), ?_, ?_⟩
    · apply pendStep_of_reset
      unfold Filter.htmlStep
      simp only [hState, if_neg hDash]
    · rw [hNext]
      refine ⟨rfl, trivial, hTracks.multiple, ?_, fun _ => hSize, ?_⟩
      · intro hOther
        cases hOther
      · unfold Filter.unstyled
        by_cases hStyle : s.instyletag = 0
        · rw [if_pos hStyle]
          have hRead := read_comment _ hText
          apply OutputSafe.more hTracks.output.1
          · rw [hRead]
            exact not_mem_nil_tags policy
          · unfold Shown
            simp only [if_pos hStyle, hRead]
            exact ⟨_, rfl, rfl⟩
        · rw [if_neg hStyle, List.append_nil]
          refine ⟨hTracks.output.1, ?_⟩
          unfold Shown
          simp only [if_neg hStyle]
          exact hText

/- The states of a comment. -/
def HtmlState.comment : HtmlState → Bool
  | .incomment | .incommentseendash | .incommentseendashdash => true
  | .intext | .seenlt | .seenltbang | .seenltbangdash | .intag => false

theorem textual_of_comment {state : HtmlState} (hComment : state.comment = true) :
    state.textual = true := by
  cases state with
  | incomment => rfl
  | incommentseendash => rfl
  | incommentseendashdash => rfl
  | intext => cases hComment
  | seenlt => cases hComment
  | seenltbang => cases hComment
  | seenltbangdash => cases hComment
  | intag => cases hComment

theorem shown_comment {q : Reader} (hComment : s.curState.comment = true) : Shown s pend q ↔
      if s.instyletag = 0 then
        ∃ q', q.read pend = (q', []) ∧ q'.curState = s.curState
      else
        q.curState = .intext := by
  unfold Shown
  cases hState : s.curState with
  | incomment => rfl
  | incommentseendash => rfl
  | incommentseendashdash => rfl
  | intext =>
    rw [hState] at hComment
    cases hComment
  | seenlt =>
    rw [hState] at hComment
    cases hComment
  | seenltbang =>
    rw [hState] at hComment
    cases hComment
  | seenltbangdash =>
    rw [hState] at hComment
    cases hComment
  | intag =>
    rw [hState] at hComment
    cases hComment

/- A character of a comment. -/
theorem step_comment {c : Byte} (state : HtmlState) (hTracks : Tracks policy s r pend out)
    (hComment : s.curState.comment = true) (hNew : state.comment = true)
    (hNext : ∀ q : Reader, q.curState = s.curState →
      q.step c = ({ q with curState := state }, []))
    (hHtml : s.htmlStep cfg (pend ++ [c]) pend.length 0 c =
      some ({ s with curState := state }, 0, [])) : Stepped policy s r pend out c := by
  have hSound := Reader.step_sound hTracks.sound c
  have hTextual := textual_of_comment hNew
  have hOld := textual_of_comment hComment
  have hSize := hTracks.size (fun hOther => by
    rw [hOld] at hOther
    cases hOther)
  refine ⟨_, _, _, pendStep_of_kept hHtml, ?_⟩
  rw [hNext r hTracks.state] at hSound ⊢
  rw [List.append_nil]
  refine ⟨rfl, hSound, hTracks.multiple, ?_, fun _ => hSize, hTracks.output.1, ?_⟩
  · intro hOther
    rw [hTextual] at hOther
    cases hOther
  · have hShown := (shown_comment hComment).mp hTracks.output.2
    rw [shown_comment hNew]
    by_cases hStyle : s.instyletag = 0
    · simp only [if_pos hStyle] at hShown ⊢
      rcases hShown with ⟨q, hRead, hState⟩
      refine ⟨{ q with curState := state }, ?_, rfl⟩
      rw [read_append, hRead]
      simp only [Reader.read, hNext q hState, List.append_nil]
    · simp only [if_neg hStyle] at hShown ⊢
      exact hShown

/- The end of a comment. -/
theorem step_comment_end {c : Byte} (hTracks : Tracks policy s r pend out)
    (hState : s.curState = .incommentseendashdash) (hDash : c ≠ chr '-')
    (hEnd : c = chr '>') : Stepped policy s r pend out c := by
  have hComment : s.curState.comment = true := by
    rw [hState]
    rfl
  have hSize := hTracks.size (fun hOther => by
    rw [hState] at hOther
    cases hOther)
  have hOther : ¬ c ≠ chr '>' := Decidable.not_not.mpr hEnd
  have hNext : ∀ q : Reader, q.curState = .incommentseendashdash →
      q.step c = ({ q with curState := .intext }, []) := by
    intro q hReader
    unfold Reader.step
    rw [hReader]
    simp only [if_neg hDash, if_neg hOther]
  have hReader := hTracks.state.trans hState
  refine ⟨{ s with curState := .intext }, [], s.unstyled (pend ++ [c]), ?_, ?_⟩
  · have hWhole := chunkPart_whole (pend ++ [c])
    rw [List.length_append, List.length_singleton] at hWhole
    apply pendStep_of_reset
    unfold Filter.htmlStep
    simp only [hState, if_neg hDash, if_neg hOther, hWhole]
  · rw [hNext r hReader]
    refine ⟨rfl, trivial, hTracks.multiple, ?_, fun _ => hSize, ?_⟩
    · intro hOther
      cases hOther
    · have hShown := (shown_comment hComment).mp hTracks.output.2
      unfold Filter.unstyled
      by_cases hStyle : s.instyletag = 0
      · rw [if_pos hStyle] at hShown ⊢
        rcases hShown with ⟨q, hRead, hInside⟩
        rw [hState] at hInside
        have hMore : (newReader.read out).1.read (pend ++ [c]) =
            ({ q with curState := .intext }, []) := by
          rw [read_append, hRead]
          simp only [Reader.read, hNext q hInside, List.append_nil]
        apply OutputSafe.more hTracks.output.1
        · rw [hMore]
          exact not_mem_nil_tags policy
        · rw [hMore]
          exact ⟨rfl, List.not_mem_nil⟩
      · rw [if_neg hStyle] at hShown ⊢
        rw [List.append_nil]
        exact ⟨hTracks.output.1, hShown, List.not_mem_nil⟩

/- One character of the input. -/
theorem Tracks.step (hTracks : Tracks policy s r pend out) (c : Byte)
    (hFits : ∀ tag, tag ∈ (r.step c).2 →
      TagFits cfg policy.rule (s.instyletag ≠ 0) tag) : Stepped policy s r pend out c := by
  cases hState : s.curState with
  | intext => exact step_intext hTracks hState c
  | seenlt => exact step_seenlt hTracks hState c
  | seenltbang => exact step_seenltbang hTracks hState c hFits
  | seenltbangdash => exact step_seenltbangdash hTracks hState c hFits
  | intag =>
    have hReader := hTracks.state.trans hState
    have hSound : Settled r.tag := hTracks.sound_at hState
    apply step_doIntag hTracks _ hSound.1 _ _ hFits
    · rw [hState]
      rfl
    · unfold Reader.step
      rw [hReader]
    · unfold Filter.htmlStep
      simp only [hState]
  | incomment =>
    apply step_comment (if c = chr '-' then .incommentseendash else .incomment) hTracks
    · rw [hState]
      rfl
    · split
      · rfl
      · rfl
    · intro q hReader
      rw [hState] at hReader
      unfold Reader.step
      rw [hReader]
    · unfold Filter.htmlStep
      simp only [hState]
  | incommentseendash =>
    apply step_comment (if c = chr '-' then .incommentseendashdash else .incomment) hTracks
    · rw [hState]
      rfl
    · split
      · rfl
      · rfl
    · intro q hReader
      rw [hState] at hReader
      unfold Reader.step
      rw [hReader]
    · unfold Filter.htmlStep
      simp only [hState]
  | incommentseendashdash =>
    by_cases hDash : c = chr '-'
    · apply step_comment .incommentseendashdash hTracks
      · rw [hState]
        rfl
      · rfl
      · intro q hReader
        rw [hState] at hReader
        unfold Reader.step
        rw [hReader]
        simp only [if_pos hDash]
        rw [← hReader]
      · unfold Filter.htmlStep
        simp only [hState, if_pos hDash]
        rw [← hState]
    by_cases hEnd : c = chr '>'
    · exact step_comment_end hTracks hState hDash hEnd
    · apply step_comment .incomment hTracks
      · rw [hState]
        rfl
      · rfl
      · intro q hReader
        rw [hState] at hReader
        unfold Reader.step
        rw [hReader]
        simp only [if_neg hDash, if_pos hEnd]
      · unfold Filter.htmlStep
        simp only [hState, if_neg hDash, if_pos hEnd]

/- A part of the input that is handled. -/
theorem Tracks.pendLoop (input rest : List Byte) (hTracks : Tracks policy s r pend out)
    (hFits : RunFits cfg policy.rule (input ++ rest) s r) :
    ∃ s' r' pend', (s.pendLoop cfg input pend).2 = some (s', pend') ∧
      Tracks policy s' r' pend' (out ++ (s.pendLoop cfg input pend).1) ∧
      RunFits cfg policy.rule rest s' r' := by
  induction input generalizing s r pend out with
  | nil =>
    refine ⟨s, r, pend, rfl, ?_, hFits⟩
    rw [Filter.pendLoop, List.append_nil]
    exact hTracks
  | cons c input ih =>
    rcases hFits with ⟨hHere, hLater⟩
    rcases hTracks.step c hHere with ⟨s', pend', more, hStep, hNext⟩
    have hSame := next_eq cfg s pend c
    rw [hStep, Option.map_some] at hSame
    rw [← hSame] at hLater
    rcases ih hNext hLater with ⟨last, r', pend'', hRun, hLast, hRest⟩
    refine ⟨last, r', pend'', ?_, ?_, hRest⟩
    · rw [Filter.pendLoop, hStep]
      exact hRun
    · rw [Filter.pendLoop, hStep, ← List.append_assoc]
      exact hLast

/- The end of a chunk. -/
theorem Tracks.flush (hTracks : Tracks policy s r pend out) :
    Tracks policy s r [] (out ++ s.flush pend) := by
  refine ⟨hTracks.state, hTracks.sound, hTracks.multiple, hTracks.written, hTracks.size, ?_⟩
  have hOutput := hTracks.output
  rw [flush_eq]
  cases hTextual : s.curState.textual with
  | false =>
    have hText := hOutput.in_tag hTextual
    rw [if_neg Bool.false_ne_true, List.append_nil]
    refine ⟨hOutput.1, ?_⟩
    have hShown := hOutput.2
    unfold Shown at hShown ⊢
    cases hState : s.curState with
    | intext => exact ⟨hText, List.not_mem_nil⟩
    | seenlt => exact hText
    | seenltbang => exact hText
    | seenltbangdash => exact hText
    | intag => exact hText
    | incomment =>
      rw [hState] at hTextual
      cases hTextual
    | incommentseendash =>
      rw [hState] at hTextual
      cases hTextual
    | incommentseendashdash =>
      rw [hState] at hTextual
      cases hTextual
  | true =>
    rw [if_pos rfl]
    cases hComment : s.curState.comment with
    | true =>
      have hShown := (shown_comment hComment).mp hOutput.2
      unfold Filter.unstyled
      by_cases hStyle : s.instyletag = 0
      · rw [if_pos hStyle] at hShown ⊢
        rcases hShown with ⟨q, hRead, hState⟩
        apply OutputSafe.more hOutput.1
        · rw [hRead]
          exact not_mem_nil_tags policy
        · rw [shown_comment hComment, if_pos hStyle, hRead]
          exact ⟨q, rfl, hState⟩
      · rw [if_neg hStyle] at hShown ⊢
        rw [List.append_nil]
        refine ⟨hOutput.1, ?_⟩
        rw [shown_comment hComment, if_neg hStyle]
        exact hShown
    | false =>
      have hState : s.curState = .intext := by
        cases hCase : s.curState with
        | intext => rfl
        | seenlt =>
          rw [hCase] at hTextual
          cases hTextual
        | seenltbang =>
          rw [hCase] at hTextual
          cases hTextual
        | seenltbangdash =>
          rw [hCase] at hTextual
          cases hTextual
        | intag =>
          rw [hCase] at hTextual
          cases hTextual
        | incomment =>
          rw [hCase] at hComment
          cases hComment
        | incommentseendash =>
          rw [hCase] at hComment
          cases hComment
        | incommentseendashdash =>
          rw [hCase] at hComment
          cases hComment
      have hShown := hOutput.2
      unfold Shown at hShown
      rw [hState] at hShown
      apply hOutput.text hShown.1
      · exact textSafe_unstyled (textSafe_plain policy hShown.2)
      · intro q hText
        unfold Shown
        rw [hState]
        exact ⟨hText, List.not_mem_nil⟩

/- All chunks. -/
theorem Tracks.htmlfilterAll (chunks : List (List Byte)) (hTracks : Tracks policy s r [] out)
    (hFits : RunFits cfg policy.rule chunks.flatten s r) :
    ∀ tag, tag ∈ readTags (out ++ Sqwebmail.htmlfilterAll cfg chunks (some s)) →
      TagSafe policy tag := by
  induction chunks generalizing s r out with
  | nil =>
    rw [Sqwebmail.htmlfilterAll, List.append_nil]
    exact hTracks.output.1
  | cons p chunks ih =>
    rw [List.flatten_cons] at hFits
    rcases hTracks.pendLoop p chunks.flatten hFits with ⟨s', r', pend', hRun, hNext, hRest⟩
    have hMore := ih hNext.flush hRest
    rw [Sqwebmail.htmlfilterAll, htmlfilter_eq_pendLoop, hRun]
    simp only [Option.map_some, flushed, List.append_assoc] at hMore ⊢
    exact hMore

/-
  In a run whose tags can all be handled, whatever the chunks,
  every tag of the output is as the policy wants it.
-/
theorem runFits_safe (policy : Policy cfg) (chunks : List (List Byte))
    (hFits : RunFits cfg policy.rule chunks.flatten freshFilter.htmlfilterInit newReader) :
    ∀ tag, tag ∈ readTags (htmlfilterAll cfg chunks (some freshFilter.htmlfilterInit)) →
      TagSafe policy tag := by
  have hStart : Tracks policy freshFilter.htmlfilterInit newReader [] [] :=
    ⟨rfl, trivial, Nat.dvd_zero 256, fun hOther => Bool.noConfusion hOther,
      fun _ => Nat.zero_le tagLimit,
      fun tag hMem => not_mem_nil_tags policy tag hMem,
      rfl, List.not_mem_nil⟩
  have hSafe := hStart.htmlfilterAll chunks hFits
  rw [List.nil_append] at hSafe
  exact hSafe

end Wmail.Sqwebmail
