import Wmail.Sqwebmail.Html

/-
  The filter on HTML text that arrives in chunks.

  Text is passed along at the end of a chunk, so what the
  filter has still to pass on depends on the chunks.  What it
  does depend on beside that is its state and the input.

  Key theorems include:
    * `htmlfilterAll_eq`
    * `chunks_agree_iff`
-/

------------
-- Pending Text
------------

namespace Wmail.Sqwebmail

variable {cfg : Config}

/-
  One turn of the loop, where `pend` is what has been read of
  the chunk from `start` on.
-/
def Filter.pendStep (cfg : Config) (s : Filter) (pend : List Byte) (c : Byte) :
    Option (Filter × List Byte × List Byte) :=
  (s.htmlStep cfg (pend ++ [c]) pend.length 0 c).map fun r =>
    (r.1, (pend ++ [c]).drop r.2.1, r.2.2)

/- The loop, without what is passed along at its end. -/
def Filter.pendLoop (cfg : Config) :
    List Byte → Filter → List Byte → List Byte × Option (Filter × List Byte)
  | [], s, pend => ([], some (s, pend))
  | c :: rest, s, pend =>
    match s.pendStep cfg pend c with
    | none => ([], none)
    | some (s, pend, out) =>
      let more := s.pendLoop cfg rest pend
      (out ++ more.1, more.2)

/- What is passed along at the end of a chunk. -/
def Filter.flush (s : Filter) (pend : List Byte) : List Byte :=
  s.chunkEnd pend pend.length 0

/- Likewise, if the filter is still there. -/
def flushed (found : Option (Filter × List Byte)) : List Byte :=
  match found with
  | none => []
  | some (s, pend) => s.flush pend

theorem chunkPart_front (front rest : List Byte) (start : Nat) :
    chunkPart (front ++ rest) start front.length = front.drop start := by
  unfold chunkPart
  rw [List.drop_append, List.take_append_of_le_length]
  · rw [List.take_of_length_le]
    exact Nat.le_of_eq List.length_drop
  · exact Nat.le_of_eq List.length_drop.symm

theorem chunkPart_whole (pend : List Byte) : chunkPart pend 0 pend.length = pend := by
  have hOut := chunkPart_front pend [] 0
  rw [List.append_nil, List.drop_zero] at hOut
  exact hOut

variable {c : Byte}

/-
  Of its chunk a turn of the loop sees only the part that has
  not been passed on, and it keeps that part or drops it.
-/
theorem htmlStep_local (cfg : Config) (s : Filter) {p q : List Byte} {l start k first : Nat}
    (hPart : chunkPart p start l = chunkPart q first k)
    (hNext : chunkPart p start (l + 1) = chunkPart q first (k + 1)) :
    (s.htmlStep cfg p l start c = none ∧ s.htmlStep cfg q k first c = none) ∨
      ∃ s' out, (s.htmlStep cfg p l start c = some (s', start, out) ∧
            s.htmlStep cfg q k first c = some (s', first, out)) ∨
          (s.htmlStep cfg p l start c = some (s', l + 1, out) ∧
            s.htmlStep cfg q k first c = some (s', k + 1, out)) := by
  have hIntag : ∀ s : Filter, (s.doIntag cfg l start c = none ∧ s.doIntag cfg k first c = none) ∨
        ∃ s' out, (s.doIntag cfg l start c = some (s', start, out) ∧
              s.doIntag cfg k first c = some (s', first, out)) ∨
            (s.doIntag cfg l start c = some (s', l + 1, out) ∧
              s.doIntag cfg k first c = some (s', k + 1, out)) := by
    intro s
    unfold Filter.doIntag
    split
    · cases Filter.filteredTag cfg { s with curState := .intext } with
      | none => exact Or.inl ⟨rfl, rfl⟩
      | some r => exact Or.inr ⟨r.1, r.2, Or.inr ⟨rfl, rfl⟩⟩
    · exact Or.inr ⟨_, _, Or.inl ⟨rfl, rfl⟩⟩
  unfold Filter.htmlStep
  cases s.curState with
  | intext =>
    simp only [hPart]
    split
    · exact Or.inr ⟨_, _, Or.inr ⟨rfl, rfl⟩⟩
    split
    · exact Or.inr ⟨_, _, Or.inl ⟨rfl, rfl⟩⟩
    · exact Or.inr ⟨_, _, Or.inl ⟨rfl, rfl⟩⟩
  | seenlt =>
    simp only []
    split
    · exact Or.inr ⟨_, _, Or.inr ⟨rfl, rfl⟩⟩
    split
    · exact Or.inr ⟨_, _, Or.inl ⟨rfl, rfl⟩⟩
    split
    · exact Or.inr ⟨_, _, Or.inl ⟨rfl, rfl⟩⟩
    split
    · exact Or.inr ⟨_, _, Or.inr ⟨rfl, rfl⟩⟩
    · exact Or.inr ⟨_, _, Or.inl ⟨rfl, rfl⟩⟩
  | intag => exact hIntag s
  | seenltbang =>
    simp only []
    split
    · exact hIntag s
    · exact Or.inr ⟨_, _, Or.inl ⟨rfl, rfl⟩⟩
  | seenltbangdash =>
    simp only []
    split
    · exact hIntag s
    · exact Or.inr ⟨_, _, Or.inr ⟨rfl, rfl⟩⟩
  | incomment => exact Or.inr ⟨_, _, Or.inl ⟨rfl, rfl⟩⟩
  | incommentseendash => exact Or.inr ⟨_, _, Or.inl ⟨rfl, rfl⟩⟩
  | incommentseendashdash =>
    simp only [hNext]
    split
    · exact Or.inr ⟨_, _, Or.inl ⟨rfl, rfl⟩⟩
    split
    · exact Or.inr ⟨_, _, Or.inl ⟨rfl, rfl⟩⟩
    · exact Or.inr ⟨_, _, Or.inr ⟨rfl, rfl⟩⟩

theorem chunkEnd_front (s : Filter) (front : List Byte) (start : Nat) :
    s.chunkEnd front front.length start = s.flush (front.drop start) := by
  have hPart := chunkPart_front front [] start
  rw [List.append_nil] at hPart
  unfold Filter.flush Filter.chunkEnd
  rw [hPart, chunkPart_whole]

/- The loop over a chunk, told by the pending text. -/
theorem htmlLoop_eq_pendLoop (front rest : List Byte) (s : Filter) {start : Nat}
    (hStart : start ≤ front.length) :
    s.htmlLoop cfg (front ++ rest) rest front.length start =
      ((s.pendLoop cfg rest (front.drop start)).1 ++
          flushed (s.pendLoop cfg rest (front.drop start)).2,
        (s.pendLoop cfg rest (front.drop start)).2.map Prod.fst) := by
  induction rest generalizing front s start with
  | nil =>
    rw [List.append_nil, Filter.htmlLoop, Filter.pendLoop, chunkEnd_front]
    rfl
  | cons c rest ih =>
    have hSplit : front ++ c :: rest = (front ++ [c]) ++ rest := by
      rw [List.append_assoc, List.singleton_append]
    have hPend : front.drop start ++ [c] = (front ++ [c]).drop start := by
      rw [List.drop_append_of_le_length hStart]
    have hLength : (front ++ [c]).length = front.length + 1 := by
      rw [List.length_append, List.length_singleton]
    have hPart : chunkPart (front ++ c :: rest) start front.length =
          chunkPart (front.drop start ++ [c]) 0 (front.drop start).length := by
      rw [chunkPart_front, chunkPart_front, List.drop_zero]
    have hNext : chunkPart (front ++ c :: rest) start (front.length + 1) =
          chunkPart (front.drop start ++ [c]) 0 ((front.drop start).length + 1) := by
      have hWhole := chunkPart_whole (front.drop start ++ [c])
      rw [List.length_append, List.length_singleton] at hWhole
      rw [hWhole, hPend, hSplit, ← hLength, chunkPart_front]
    rw [Filter.htmlLoop, Filter.pendLoop, Filter.pendStep]
    rcases htmlStep_local cfg (c := c) s hPart hNext with
      ⟨hNone, hOther⟩ | ⟨s', out, ⟨hKept, hOther⟩ | ⟨hDropped, hOther⟩⟩
    · rw [hNone, hOther]
      rfl
    · have hMore := ih (front ++ [c]) s'
        (Nat.le_trans hStart (by rw [hLength]; exact Nat.le_succ _))
      rw [hLength] at hMore
      rw [hKept, hOther, hSplit]
      simp only [Option.map_some, List.drop_zero, hPend, hMore]
      rw [List.append_assoc]
    · have hMore := ih (front ++ [c]) s' (Nat.le_refl _)
      have hNil : (front.drop start ++ [c]).drop ((front.drop start).length + 1) = [] := by
        apply List.drop_of_length_le
        exact Nat.le_of_eq List.length_append
      rw [List.drop_length, hLength] at hMore
      rw [hDropped, hOther, hSplit]
      simp only [Option.map_some, hNil, hMore]
      rw [List.append_assoc]

/- A chunk, told by the pending text. -/
theorem htmlfilter_eq_pendLoop (s : Filter) (p : List Byte) :
    s.htmlfilter cfg p = ((s.pendLoop cfg p []).1 ++ flushed (s.pendLoop cfg p []).2,
        (s.pendLoop cfg p []).2.map Prod.fst) :=
  htmlLoop_eq_pendLoop [] p s (Nat.le_refl 0)

------------
-- What a Turn of the Loop Does
------------

/- The states in which text waits to be passed along. -/
def HtmlState.textual : HtmlState → Bool
  | .intext | .incomment | .incommentseendash | .incommentseendashdash => true
  | .seenlt | .seenltbang | .seenltbangdash | .intag => false

/-
  The turns of the loop, told by what becomes of the pending
  text: it is kept, it never mattered, it is passed along
  before a tag or with the end of a comment, or it is passed
  along before a stray `>`, in which case `STYLE` does not
  matter.
-/
inductive Turn (cfg : Config) (s : Filter) (c : Byte) : Prop where
  | lost
      (hTextual : s.curState.textual = false)
      (hNone : ∀ pend, s.pendStep cfg pend c = none)
  | kept
      (s' : Filter)
      (hStep : ∀ pend, s.pendStep cfg pend c = some (s', pend ++ [c], []))
      (hTextual : s'.curState.textual = s.curState.textual)
      (hStyle : s'.instyletag = s.instyletag)
  | tag
      (s' : Filter)
      (out : List Byte)
      (hTextual : s.curState.textual = false)
      (hStep : ∀ pend, s.pendStep cfg pend c = some (s', [], out))
  | before
      (s' : Filter)
      (hTextual : s.curState.textual = true)
      (hNext : s'.curState.textual = false)
      (hStep : ∀ pend, s.pendStep cfg pend c = some (s', pend ++ [c], s.unstyled pend))
  | comment
      (s' : Filter)
      (hTextual : s.curState.textual = true)
      (hStyle : s'.instyletag = s.instyletag)
      (hStep : ∀ pend, s.pendStep cfg pend c = some (s', [], s.unstyled (pend ++ [c])))
  | stray
      (hState : s.curState = .intext)
      (hStray : c = chr '>')
      (hStep : ∀ pend, s.pendStep cfg pend c = some (s, [], pend ++ bytes "&nbsp;"))

theorem pendStep_of_kept {s s' : Filter} {pend : List Byte} {out : List Byte}
    (hStep : s.htmlStep cfg (pend ++ [c]) pend.length 0 c =
      some (s', 0, out)) : s.pendStep cfg pend c = some (s', pend ++ [c], out) := by
  unfold Filter.pendStep
  rw [hStep]
  rfl

theorem pendStep_of_reset {s s' : Filter} {pend : List Byte} {out : List Byte}
    (hStep : s.htmlStep cfg (pend ++ [c]) pend.length 0 c =
      some (s', pend.length + 1, out)) : s.pendStep cfg pend c = some (s', [], out) := by
  have hNil : (pend ++ [c]).drop (pend.length + 1) = [] := by
    apply List.drop_of_length_le
    exact Nat.le_of_eq List.length_append
  unfold Filter.pendStep
  rw [hStep]
  simp only [Option.map_some, hNil]

theorem chunkPart_pend (pend : List Byte) (c : Byte) :
    chunkPart (pend ++ [c]) 0 pend.length = pend :=
  chunkPart_front pend [c] 0

theorem curState_addtagbuf (s : Filter) (c : Byte) : (s.addtagbuf c).curState = s.curState ∧
      (s.addtagbuf c).instyletag = s.instyletag := by
  unfold Filter.addtagbuf
  split
  · exact ⟨rfl, rfl⟩
  · exact ⟨rfl, rfl⟩

variable {s : Filter}

/- A character of a tag, in a state that is no text. -/
theorem turn_doIntag (hTextual : s.curState.textual = false)
    (hStep : ∀ pend, s.htmlStep cfg (pend ++ [c]) pend.length 0 c = s.doIntag cfg pend.length 0 c) :
    Turn cfg s c := by
  unfold Filter.doIntag at hStep
  by_cases hEnd : c = chr '>'
  · simp only [if_pos hEnd] at hStep
    cases hTag : Filter.filteredTag cfg { s with curState := .intext } with
    | none =>
      apply Turn.lost hTextual
      intro pend
      unfold Filter.pendStep
      rw [hStep, hTag]
      rfl
    | some r =>
      apply Turn.tag r.1 r.2 hTextual
      intro pend
      apply pendStep_of_reset
      rw [hStep, hTag]
      rfl
  · simp only [if_neg hEnd] at hStep
    have hAdded := curState_addtagbuf { s with curState := .intag } c
    apply Turn.kept _ (fun pend => pendStep_of_kept (hStep pend))
    · rw [hAdded.1, hTextual]
      rfl
    · exact hAdded.2

theorem turn_intext (hState : s.curState = .intext) (c : Byte) : Turn cfg s c := by
  have hTextual : s.curState.textual = true := by
    rw [hState]
    rfl
  by_cases hStray : c = chr '>'
  · apply Turn.stray hState hStray
    intro pend
    apply pendStep_of_reset
    unfold Filter.htmlStep
    simp only [hState, if_pos hStray, chunkPart_pend]
  by_cases hTag : c = chr '<'
  · apply Turn.before
      { s with
        curState := .seenlt
        tagbuflen := 0 } hTextual rfl
    intro pend
    apply pendStep_of_kept
    unfold Filter.htmlStep
    simp only [hState, if_neg hStray, if_pos hTag, chunkPart_pend]
  · apply Turn.kept s _ rfl rfl
    intro pend
    apply pendStep_of_kept
    unfold Filter.htmlStep
    simp only [hState, if_neg hStray, if_neg hTag]

theorem turn_seenlt (hState : s.curState = .seenlt) (c : Byte) : Turn cfg s c := by
  have hTextual : s.curState.textual = false := by
    rw [hState]
    rfl
  by_cases hEnd : c = chr '>'
  · apply Turn.tag { s with curState := .intext } (s.unstyled (bytes "<>")) hTextual
    intro pend
    apply pendStep_of_reset
    unfold Filter.htmlStep
    simp only [hState, if_pos hEnd]
  by_cases hSpace : isspace c = true
  · apply Turn.kept s _ rfl rfl
    intro pend
    apply pendStep_of_kept
    unfold Filter.htmlStep
    simp only [hState, if_neg hEnd, if_pos hSpace]
  by_cases hBang : c = chr '!'
  · have hAdded := curState_addtagbuf { s with curState := .seenltbang } c
    apply Turn.kept (Filter.addtagbuf { s with curState := .seenltbang } c)
    · intro pend
      apply pendStep_of_kept
      unfold Filter.htmlStep
      simp only [hState, if_neg hEnd, if_neg hSpace, if_pos hBang]
    · rw [hAdded.1, hTextual]
      rfl
    · exact hAdded.2
  by_cases hOther : (decide (c ≠ chr '/') && !isalpha c) = true
  · apply Turn.tag { s with curState := .intext } [] hTextual
    intro pend
    apply pendStep_of_reset
    unfold Filter.htmlStep
    simp only [hState, if_neg hEnd, if_neg hSpace, if_neg hBang, if_pos hOther]
  · have hAdded := curState_addtagbuf { s with curState := .intag } c
    apply Turn.kept (Filter.addtagbuf { s with curState := .intag } c)
    · intro pend
      apply pendStep_of_kept
      unfold Filter.htmlStep
      simp only [hState, if_neg hEnd, if_neg hSpace, if_neg hBang, if_neg hOther]
    · rw [hAdded.1, hTextual]
      rfl
    · exact hAdded.2

theorem turn_seenltbang (hState : s.curState = .seenltbang) (c : Byte) : Turn cfg s c := by
  have hTextual : s.curState.textual = false := by
    rw [hState]
    rfl
  by_cases hDash : c = chr '-'
  · have hAdded := curState_addtagbuf s c
    apply Turn.kept { s.addtagbuf c with curState := .seenltbangdash }
    · intro pend
      apply pendStep_of_kept
      unfold Filter.htmlStep
      simp only [hState, if_neg (not_not.mpr hDash)]
    · rw [hTextual]
      rfl
    · exact hAdded.2
  · apply turn_doIntag hTextual
    intro pend
    unfold Filter.htmlStep
    simp only [hState, if_pos hDash]

theorem turn_seenltbangdash (hState : s.curState = .seenltbangdash) (c : Byte) :
    Turn cfg s c := by
  have hTextual : s.curState.textual = false := by
    rw [hState]
    rfl
  by_cases hDash : c = chr '-'
  · apply Turn.tag { s with curState := .incomment }
      (s.unstyled (bytes "<!--")) hTextual
    intro pend
    apply pendStep_of_reset
    unfold Filter.htmlStep
    simp only [hState, if_neg (not_not.mpr hDash)]
  · apply turn_doIntag hTextual
    intro pend
    unfold Filter.htmlStep
    simp only [hState, if_pos hDash]

theorem turn_incommentseendashdash (hState : s.curState = .incommentseendashdash)
    (c : Byte) : Turn cfg s c := by
  have hTextual : s.curState.textual = true := by
    rw [hState]
    rfl
  by_cases hDash : c = chr '-'
  · apply Turn.kept s _ rfl rfl
    intro pend
    apply pendStep_of_kept
    unfold Filter.htmlStep
    simp only [hState, if_pos hDash]
  by_cases hEnd : c = chr '>'
  · apply Turn.comment { s with curState := .intext } hTextual rfl
    intro pend
    have hWhole := chunkPart_whole (pend ++ [c])
    rw [List.length_append, List.length_singleton] at hWhole
    apply pendStep_of_reset
    unfold Filter.htmlStep
    simp only [hState, if_neg hDash, if_neg (not_not.mpr hEnd), hWhole]
  · apply Turn.kept { s with curState := .incomment }
    · intro pend
      apply pendStep_of_kept
      unfold Filter.htmlStep
      simp only [hState, if_neg hDash, if_pos hEnd]
    · rw [hTextual]
      rfl
    · rfl

/- Every turn of the loop is one of these. -/
theorem Filter.turn (cfg : Config) (s : Filter) (c : Byte) : Turn cfg s c := by
  cases hState : s.curState with
  | intext => exact turn_intext hState c
  | seenlt => exact turn_seenlt hState c
  | intag =>
    apply turn_doIntag
    · rw [hState]
      rfl
    · intro pend
      unfold Filter.htmlStep
      simp only [hState]
  | seenltbang => exact turn_seenltbang hState c
  | seenltbangdash => exact turn_seenltbangdash hState c
  | incomment =>
    apply Turn.kept
      { s with
        curState :=
          if c = chr '-' then .incommentseendash else .incomment }
    · intro pend
      apply pendStep_of_kept
      unfold Filter.htmlStep
      simp only [hState]
    · rw [hState]
      simp only []
      split
      · rfl
      · rfl
    · rfl
  | incommentseendash =>
    apply Turn.kept
      { s with
        curState :=
          if c = chr '-' then .incommentseendashdash else .incomment }
    · intro pend
      apply pendStep_of_kept
      unfold Filter.htmlStep
      simp only [hState]
    · rw [hState]
      simp only []
      split
      · rfl
      · rfl
    · rfl
  | incommentseendashdash => exact turn_incommentseendashdash hState c

------------
-- Two Ways of Cutting
------------

/-
  The pending text that is lost when the filter is in a
  `STYLE` element: it is passed along before a stray `>`, but
  not at the end of a chunk.
-/
def Filter.strayInStyle (s : Filter) (pend : List Byte) (c : Byte) : Bool :=
  s.curState = .intext && c = chr '>' && s.instyletag ≠ 0 && pend ≠ []

/- In the input as one chunk a stray `>` follows such text. -/
def styleText (cfg : Config) : List Byte → Filter → List Byte → Bool
  | [], _, _ => false
  | c :: rest, s, pend =>
    s.strayInStyle pend c ||
      match s.pendStep cfg pend c with
      | none => false
      | some (s, pend, _) => styleText cfg rest s pend

/-
  What a run on chunks has put out, with `pend` pending, and
  what a run on one chunk has: text may have been passed along
  early, and in `STYLE` it may have been lost.
-/
def Behind (s : Filter) (pend out whole wholeOut : List Byte) : Prop :=
  if s.curState.textual then
    if s.instyletag = 0 then out ++ pend = wholeOut ++ whole else out = wholeOut ∧ pend <:+ whole
  else
    out = wholeOut

theorem Behind.refl (s : Filter) (pend out : List Byte) : Behind s pend out pend out := by
  unfold Behind
  split
  · split
    · rfl
    · exact ⟨rfl, List.suffix_refl pend⟩
  · rfl

/- Two runs that the rest of the input leads to one output. -/
def Together (found wholeFound : List Byte × Option (Filter × List Byte))
    (out wholeOut : List Byte) : Prop :=
  match found.2, wholeFound.2 with
  | none, none => out ++ found.1 = wholeOut ++ wholeFound.1
  | some (s, pend), some (s', whole) =>
    s = s' ∧ Behind s pend (out ++ found.1) whole (wholeOut ++ wholeFound.1)
  | _, _ => False

variable {pend out whole wholeOut : List Byte}

/- A turn of the loop keeps the two runs together. -/
theorem Behind.step (cfg : Config) (hBehind : Behind s pend out whole wholeOut)
    (hStray : s.strayInStyle whole c = false) :
    (s.pendStep cfg pend c = none ∧ s.pendStep cfg whole c = none ∧ out = wholeOut) ∨
      ∃ s' pend' out' whole' wholeOut', s.pendStep cfg pend c = some (s', pend', out') ∧
          s.pendStep cfg whole c = some (s', whole', wholeOut') ∧
          Behind s' pend' (out ++ out') whole' (wholeOut ++ wholeOut') := by
  unfold Behind at hBehind
  cases s.turn cfg c with
  | lost hTextual hNone =>
    rw [hTextual] at hBehind
    exact Or.inl ⟨hNone pend, hNone whole, hBehind⟩
  | kept s' hStep hTextual hStyle =>
    refine Or.inr ⟨s', _, _, _, _, hStep pend, hStep whole, ?_⟩
    unfold Behind
    rw [hTextual, hStyle, List.append_nil, List.append_nil]
    cases hState : s.curState.textual with
    | false =>
      rw [hState] at hBehind
      exact hBehind
    | true =>
      rw [hState] at hBehind
      simp only [if_true] at hBehind ⊢
      split
      · rename_i hZero
        rw [if_pos hZero] at hBehind
        rw [← List.append_assoc, hBehind, List.append_assoc]
      · rename_i hZero
        rw [if_neg hZero] at hBehind
        rcases hBehind with ⟨hOut, lost, hLost⟩
        exact ⟨hOut, lost, by rw [← List.append_assoc, hLost]⟩
  | tag s' text hTextual hStep =>
    refine Or.inr ⟨s', _, _, _, _, hStep pend, hStep whole, ?_⟩
    rw [hTextual] at hBehind
    rw [show out = wholeOut from hBehind]
    exact Behind.refl s' [] _
  | before s' hTextual hNext hStep =>
    refine Or.inr ⟨s', _, _, _, _, hStep pend, hStep whole, ?_⟩
    unfold Behind Filter.unstyled
    rw [hTextual] at hBehind
    rw [hNext]
    simp only [if_true, Bool.false_eq_true, if_false] at hBehind ⊢
    split
    · rename_i hZero
      rw [if_pos hZero] at hBehind
      exact hBehind
    · rename_i hZero
      rw [if_neg hZero] at hBehind
      rw [hBehind.1]
  | comment s' hTextual hStyle hStep =>
    refine Or.inr ⟨s', _, _, _, _, hStep pend, hStep whole, ?_⟩
    have hOut : out ++ s.unstyled (pend ++ [c]) = wholeOut ++ s.unstyled (whole ++ [c]) := by
      unfold Filter.unstyled
      rw [hTextual] at hBehind
      simp only [if_true] at hBehind
      split
      · rename_i hZero
        rw [if_pos hZero] at hBehind
        rw [← List.append_assoc, hBehind, List.append_assoc]
      · rename_i hZero
        rw [if_neg hZero] at hBehind
        rw [hBehind.1]
    rw [hOut]
    exact Behind.refl s' [] _
  | stray hState hEnd hStep =>
    refine Or.inr ⟨s, _, _, _, _, hStep pend, hStep whole, ?_⟩
    have hOut : out ++ pend = wholeOut ++ whole := by
      rw [hState] at hBehind
      simp only [HtmlState.textual, if_true] at hBehind
      unfold Filter.strayInStyle at hStray
      split at hBehind
      · exact hBehind
      · rename_i hStyle
        rw [hState, hEnd] at hStray
        simp only [decide_true, Bool.true_and, ne_eq, hStyle, not_false_eq_true,
          decide_eq_false_iff_not, not_not] at hStray
        have hPend : pend = [] := List.suffix_nil.mp (hStray ▸ hBehind.2)
        rw [hBehind.1, hStray, hPend]
    rw [← List.append_assoc, hOut, List.append_assoc]
    exact Behind.refl s [] _

/- The rest of a chunk keeps the two runs together. -/
theorem Behind.pendLoop (cfg : Config) (rest : List Byte)
    (hBehind : Behind s pend out whole wholeOut) (hStyle : styleText cfg rest s whole = false) :
    Together (s.pendLoop cfg rest pend) (s.pendLoop cfg rest whole)
      out wholeOut := by
  induction rest generalizing s pend out whole wholeOut with
  | nil =>
    unfold Together Filter.pendLoop
    rw [List.append_nil, List.append_nil]
    exact ⟨rfl, hBehind⟩
  | cons c rest ih =>
    rw [styleText, Bool.or_eq_false_iff] at hStyle
    rcases hBehind.step cfg hStyle.1 with
      ⟨hNone, hWhole, hOut⟩ | ⟨s', pend', out', whole', wholeOut', hStep, hWhole, hNext⟩
    · unfold Together
      rw [Filter.pendLoop, Filter.pendLoop, hNone, hWhole]
      exact congrArg (· ++ []) hOut
    · rw [hWhole] at hStyle
      have hMore := ih hNext hStyle.2
      unfold Together at hMore ⊢
      rw [Filter.pendLoop, Filter.pendLoop, hStep, hWhole]
      simp only [List.append_assoc] at hMore ⊢
      exact hMore

theorem flush_eq (s : Filter) (pend : List Byte) : s.flush pend =
      if s.curState.textual then s.unstyled pend else [] := by
  unfold Filter.flush Filter.chunkEnd
  rw [chunkPart_whole]
  cases s.curState with
  | intext | incomment | incommentseendash | incommentseendashdash => rfl
  | seenlt | seenltbang | seenltbangdash | intag => rfl

/- So does the end of a chunk. -/
theorem Behind.chunkEnd (hBehind : Behind s pend out whole wholeOut) :
    Behind s [] (out ++ s.flush pend) whole wholeOut := by
  rw [flush_eq]
  unfold Filter.unstyled
  unfold Behind at hBehind ⊢
  cases hState : s.curState.textual with
  | true =>
    rw [hState] at hBehind
    simp only [if_true, List.append_nil] at hBehind ⊢
    split
    · rename_i hZero
      rw [if_pos hZero] at hBehind
      exact hBehind
    · rename_i hZero
      rw [if_neg hZero] at hBehind
      rw [List.append_nil]
      exact ⟨hBehind.1, List.nil_suffix⟩
  | false =>
    rw [hState] at hBehind
    simp only [Bool.false_eq_true, if_false, List.append_nil] at hBehind ⊢
    exact hBehind

/- At the end of the input nothing is pending. -/
theorem Behind.flushed {out whole wholeOut : List Byte}
    (hBehind : Behind s [] out whole wholeOut) : out = wholeOut ++ s.flush whole := by
  rw [flush_eq]
  unfold Filter.unstyled
  unfold Behind at hBehind
  cases hState : s.curState.textual with
  | true =>
    rw [hState] at hBehind
    simp only [if_true, List.append_nil] at hBehind ⊢
    split
    · rename_i hZero
      rw [if_pos hZero] at hBehind
      exact hBehind
    · rename_i hZero
      rw [if_neg hZero] at hBehind
      rw [List.append_nil]
      exact hBehind.1
  | false =>
    rw [hState] at hBehind
    simp only [Bool.false_eq_true, if_false, List.append_nil] at hBehind ⊢
    exact hBehind

theorem pendLoop_append (front rest : List Byte) (s : Filter) (pend : List Byte) :
    s.pendLoop cfg (front ++ rest) pend =
      match (s.pendLoop cfg front pend).2 with
      | none => ((s.pendLoop cfg front pend).1, none)
      | some (s', pend') =>
        ((s.pendLoop cfg front pend).1 ++ (s'.pendLoop cfg rest pend').1,
          (s'.pendLoop cfg rest pend').2) := by
  induction front generalizing s pend with
  | nil => rfl
  | cons c front ih =>
    rw [List.cons_append, Filter.pendLoop, Filter.pendLoop]
    cases hStep : s.pendStep cfg pend c with
    | none => rfl
    | some r =>
      rcases r with ⟨s', pend', out⟩
      simp only [ih]
      split
      · rfl
      · rw [List.append_assoc]

theorem styleText_append (front rest : List Byte) (s : Filter) (pend : List Byte) :
    styleText cfg (front ++ rest) s pend = (styleText cfg front s pend ||
        match (s.pendLoop cfg front pend).2 with
        | none => false
        | some (s', pend') => styleText cfg rest s' pend') := by
  induction front generalizing s pend with
  | nil => rfl
  | cons c front ih =>
    rw [List.cons_append, styleText, styleText, Filter.pendLoop]
    cases hStep : s.pendStep cfg pend c with
    | none => simp
    | some r =>
      rcases r with ⟨s', pend', out⟩
      simp only [ih, Bool.or_assoc]

theorem htmlfilterAll_none (chunks : List (List Byte)) : htmlfilterAll cfg chunks none = [] := by
  cases chunks with
  | nil => rfl
  | cons p chunks => rfl

/- All chunks keep the two runs together. -/
theorem Behind.htmlfilterAll (cfg : Config) (chunks : List (List Byte))
    {out whole wholeOut : List Byte} (hBehind : Behind s [] out whole wholeOut)
    (hStyle : styleText cfg chunks.flatten s whole = false) :
    out ++ htmlfilterAll cfg chunks (some s) =
      wholeOut ++ ((s.pendLoop cfg chunks.flatten whole).1 ++
        Sqwebmail.flushed (s.pendLoop cfg chunks.flatten whole).2) := by
  induction chunks generalizing s out whole wholeOut with
  | nil =>
    have hOut := hBehind.flushed
    rw [List.flatten_nil, Sqwebmail.htmlfilterAll,
      Filter.pendLoop, List.append_nil, List.nil_append]
    exact hOut
  | cons p chunks ih =>
    rw [List.flatten_cons, styleText_append, Bool.or_eq_false_iff] at hStyle
    have hChunk := hBehind.pendLoop cfg p hStyle.1
    rw [List.flatten_cons, pendLoop_append, Sqwebmail.htmlfilterAll, htmlfilter_eq_pendLoop]
    unfold Together at hChunk
    cases hFound : (s.pendLoop cfg p []).2 with
    | none =>
      cases hWhole : (s.pendLoop cfg p whole).2 with
      | none =>
        rw [hFound, hWhole] at hChunk
        simp only [Option.map_none, htmlfilterAll_none, Sqwebmail.flushed, List.append_nil]
        exact hChunk
      | some r =>
        rw [hFound, hWhole] at hChunk
        exact hChunk.elim
    | some r =>
      rcases r with ⟨s', pend'⟩
      cases hWhole : (s.pendLoop cfg p whole).2 with
      | none =>
        rw [hFound, hWhole] at hChunk
        exact hChunk.elim
      | some r =>
        rcases r with ⟨s'', whole'⟩
        rw [hFound, hWhole] at hChunk
        rcases hChunk with ⟨hSame, hNext⟩
        rw [← hSame] at hWhole ⊢
        rw [hWhole] at hStyle
        have hMore := ih hNext.chunkEnd hStyle.2
        simp only [Option.map_some, Sqwebmail.flushed, List.append_assoc] at hMore ⊢
        exact hMore

/- The place of a stray `>` after text that can be lost. -/
theorem styleText_split {input : List Byte} {pend : List Byte}
    (hStyle : styleText cfg input s pend = true) :
    ∃ front c rest s' pend', input = front ++ c :: rest ∧
        (s.pendLoop cfg front pend).2 = some (s', pend') ∧
        s'.strayInStyle pend' c = true := by
  induction input generalizing s pend with
  | nil => cases hStyle
  | cons c rest ih =>
    rw [styleText, Bool.or_eq_true] at hStyle
    rcases hStyle with hHere | hLater
    · exact ⟨[], c, rest, s, pend, rfl, rfl, hHere⟩
    · cases hStep : s.pendStep cfg pend c with
      | none =>
        rw [hStep] at hLater
        cases hLater
      | some r =>
        rcases r with ⟨s', pend', out⟩
        rw [hStep] at hLater
        rcases ih hLater with ⟨front, d, more, last, text, hInput, hFront, hStray⟩
        refine ⟨c :: front, d, more, last, text, ?_, ?_, hStray⟩
        · rw [hInput, List.cons_append]
        · rw [Filter.pendLoop, hStep]
          exact hFront

/- The text before such a `>` depends on the chunks. -/
theorem stray_pendLoop (cfg : Config) {pend : List Byte}
    (hStray : s.strayInStyle pend c = true) (rest : List Byte) :
    pend ≠ [] ∧ s.flush pend = [] ∧ ∀ text, s.pendLoop cfg (c :: rest) text =
          (text ++ (bytes "&nbsp;" ++ (s.pendLoop cfg rest []).1), (s.pendLoop cfg rest []).2) := by
  unfold Filter.strayInStyle at hStray
  simp only [Bool.and_eq_true, decide_eq_true_eq] at hStray
  rcases hStray with ⟨⟨⟨hState, hEnd⟩, hStyle⟩, hSome⟩
  refine ⟨hSome, ?_, ?_⟩
  · rw [flush_eq, hState]
    unfold Filter.unstyled
    rw [if_neg hStyle]
    rfl
  · intro text
    have hStep : s.pendStep cfg text c = some (s, [], text ++ bytes "&nbsp;") := by
      apply pendStep_of_reset
      unfold Filter.htmlStep
      simp only [hState, if_pos hEnd, chunkPart_pend]
    rw [Filter.pendLoop, hStep]
    simp only [List.append_assoc]

/- The output of the whole input as one chunk. -/
theorem htmlfilterAll_one (s : Filter) (input : List Byte) :
    htmlfilterAll cfg [input] (some s) = (s.pendLoop cfg input []).1 ++
        flushed (s.pendLoop cfg input []).2 := by
  rw [htmlfilterAll, htmlfilter_eq_pendLoop, htmlfilterAll, List.append_nil]

/- Cut before such a `>`, the text before it is lost. -/
theorem cut_loses_text {s s' : Filter} {front rest pend : List Byte}
    (hFront : (s.pendLoop cfg front []).2 = some (s', pend))
    (hStray : s'.strayInStyle pend c = true) :
    htmlfilterAll cfg [front ++ c :: rest] (some s) ≠
      htmlfilterAll cfg [front, c :: rest] (some s) := by
  rcases stray_pendLoop cfg hStray rest with ⟨hSome, hFlush, hStep⟩
  have hFlushed : flushed (some (s', pend)) = [] := hFlush
  intro hSame
  rw [htmlfilterAll_one, pendLoop_append, hFront, htmlfilterAll,
    htmlfilter_eq_pendLoop, hFront] at hSame
  simp only [Option.map_some, htmlfilterAll_one, hFlushed, hStep, List.append_nil, List.nil_append,
    List.append_assoc, List.append_cancel_left_eq] at hSame
  have hLength := congrArg List.length hSame
  rw [List.length_append] at hLength
  exact hSome (List.length_eq_zero_iff.mp (by omega))

/-
  The output depends on the input only if, and only if, no
  stray `>` follows text in a `STYLE` element.
-/
theorem chunks_agree_iff (cfg : Config) (s : Filter) (input : List Byte) :
    (∀ chunks others : List (List Byte),
      chunks.flatten = input → others.flatten = input →
          htmlfilterAll cfg chunks (some s.htmlfilterInit) =
            htmlfilterAll cfg others (some s.htmlfilterInit)) ↔
      styleText cfg input s.htmlfilterInit [] = false := by
  constructor
  · intro hAgree
    by_contra hStyle
    rw [Bool.not_eq_false] at hStyle
    rcases styleText_split hStyle with ⟨front, c, rest, s', pend, hInput, hFront, hStray⟩
    have hOne : [front ++ c :: rest].flatten = input := by rw [List.flatten_singleton, hInput]
    have hTwo : [front, c :: rest].flatten = input := by
      rw [List.flatten_cons, List.flatten_singleton, hInput]
    exact cut_loses_text hFront hStray (hAgree _ _ hOne hTwo)
  · intro hStyle chunks others hChunks hOthers
    have hStart := Behind.refl s.htmlfilterInit [] []
    have hFirst := hStart.htmlfilterAll cfg chunks (hChunks ▸ hStyle)
    have hSecond := hStart.htmlfilterAll cfg others (hOthers ▸ hStyle)
    rw [hChunks, List.nil_append] at hFirst
    rw [hOthers, List.nil_append] at hSecond
    rw [hFirst, hSecond]

/- The filter before its first use. -/
def freshFilter : Filter where
  curState := .intext
  instyletag := 0
  tagbuf := []
  tagbufsize := 0
  tagbuflen := 0
  tagattr := []
  tagattrlen := 0

/- No links are washed. -/
def plainConfig : Config where
  washlink := none
  washlinkmailto := none
  contentbase := none
  convertcid := none

/- A stylesheet with a child selector, cut in two ways. -/
theorem chunks_style_disagree : [bytes "<STYLE>p", bytes ">b"].flatten = bytes "<STYLE>p>b" ∧
      htmlfilterAll plainConfig [bytes "<STYLE>p>b"] (some freshFilter.htmlfilterInit) =
        bytes "p&nbsp;" ∧
      htmlfilterAll plainConfig [bytes "<STYLE>p", bytes ">b"] (some freshFilter.htmlfilterInit) =
        bytes "&nbsp;" := by
  decide +kernel

end Wmail.Sqwebmail
