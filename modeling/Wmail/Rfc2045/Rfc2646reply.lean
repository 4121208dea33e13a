import Wmail.Core.Emitting
import Wmail.Rfc2045.ParsedLines

/-
  A reply to flowed text (rfc2646reply.c).

  The handlers never fail.  What the reply's handler gets is
  a list of lines, each from the calls of one `flushreply`.
  A write that leaves the reply buffer is `none`.

  Key theorems include:
    * `replyHandler_conserves`
    * `reply_conserves`
-/

namespace Wmail.Rfc2646

/-
  `struct rfc2646reply`; `replylen` is the length of the
  reply buffer.
-/
structure Reply where
  currentQuoteDepth : Nat
  prevWasFlowed : Bool
  firstLine : Bool
  replybuffer : List Byte
deriving DecidableEq

/- `sizeof(p->replybuffer)`. -/
def replysize : Nat :=
  74

/- A line of the reply: its quote marks and its text. -/
structure ReplyLine where
  quotes : Nat
  text : List Byte
deriving DecidableEq

/- What the handler gets for a line. -/
def ReplyLine.bytes (l : ReplyLine) : List Byte :=
  quoteLoop l.quotes ++ (chr ' ' :: l.text ++ [nl])

/- `rfc2646reply_alloc`. -/
def rfc2646replyAlloc : Reply where
  currentQuoteDepth := 0
  prevWasFlowed := true
  firstLine := true
  replybuffer := []

/- The line that `flushreply` sends. -/
def Reply.line (p : Reply) (isflowed : Bool) : ReplyLine where
  quotes := p.currentQuoteDepth + 1
  text :=
    if isflowed then p.replybuffer ++ [chr ' '] else trimEnd p.replybuffer

/- `flushreply`. -/
def Reply.flushreply (p : Reply) (isflowed : Bool) : Emitted Reply ReplyLine :=
  some ({ p with replybuffer := [] }, [p.line isflowed])

/- Write behind what is in the reply buffer. -/
def Reply.put (p : Reply) (text : List Byte) : Emitted Reply ReplyLine :=
  if p.replybuffer.length + text.length ≤ replysize then
    Emitted.stay { p with replybuffer := p.replybuffer ++ text }
  else
    none

/- The columns that are used for text. -/
def Reply.maxlen (p : Reply) : Nat :=
  if replysize < p.currentQuoteDepth + 20 then 15 else replysize - p.currentQuoteDepth

/- The blank in front of a word that is not the first. -/
def Reply.gap (p : Reply) : List Byte :=
  if p.replybuffer = [] then [] else [chr ' ']

theorem Reply.maxlen_pos (p : Reply) : 0 < p.maxlen := by
  unfold maxlen replysize
  split
  · exact Nat.succ_pos 14
  · omega

/- The text of a line behind its first blank. -/
def behindBlank (txt : List Byte) : List Byte :=
  (txt.dropWhile (· ≠ chr ' ')).drop 1

theorem length_behindBlank_lt {txt : List Byte} (hSome : txt ≠ []) :
    (behindBlank txt).length < txt.length := by
  have hPos := List.length_pos_of_ne_nil hSome
  have hShort := (List.dropWhile_suffix (l := txt) (· ≠ chr ' ')).length_le
  unfold behindBlank
  rw [List.length_drop]
  omega

/- `fillreply`. -/
def Reply.fillreply (p : Reply) (txt : List Byte) : Emitted Reply ReplyLine :=
  if txt = [] then
    Emitted.stay p
  else if p.replybuffer.length + txt.length + 1 ≤ p.maxlen then
    p.put (p.gap ++ txt)
  else
    let word := txt.takeWhile (· ≠ chr ' ')
    if p.replybuffer.length + word.length + 1 ≤ p.maxlen then
      -- a blank is also written into an empty buffer, and the
      -- word over it
      (p.put (p.gap ++ word)).andThen
        fun p => p.fillreply (behindBlank txt)
    else if p.replybuffer ≠ [] then
      (p.flushreply true).andThen
        fun _ => Reply.fillreply { p with replybuffer := [] } txt
    else
      (p.put (txt.take p.maxlen)).andThen
        fun p' => p'.fillreply (txt.drop p.maxlen)
termination_by (txt.length, p.replybuffer.length)
decreasing_by
  · rename_i hSome _ _
    exact Prod.Lex.left _ _ (length_behindBlank_lt hSome)
  · rename_i hHeld
    apply Prod.Lex.right
    exact List.length_pos_of_ne_nil hHeld
  · rename_i hSome _ _ _
    apply Prod.Lex.left
    have hPos := p.maxlen_pos
    have hMore := List.length_pos_of_ne_nil hSome
    rw [List.length_drop]
    omega

/- `rfc2646reply_handler`, when the depth is the same. -/
def Reply.text (r : Reply) (firstLine : Bool) (p : FlowedLine) : Emitted Reply ReplyLine :=
  if r.prevWasFlowed ∧ !p.isflowed ∧ p.line = [] ∧ !firstLine
  then
    -- the end of a paragraph, and a line without text
    ((r.flushreply true).andThen (·.flushreply false)).andThen
      fun r => Emitted.stay { r with prevWasFlowed := false }
  else
    ((r.fillreply p.line).andThen fun r =>
        if p.isflowed then Emitted.stay r else r.flushreply false).andThen
      fun r => Emitted.stay { r with prevWasFlowed := p.isflowed }

/- `rfc2646reply_handler`. -/
def rfc2646replyHandler (r : Reply) (p : FlowedLine) : Emitted Reply ReplyLine :=
  let firstLine := r.firstLine
  let r := { r with firstLine := false }
  if p.quoteDepth ≠ r.currentQuoteDepth then
    (if r.replybuffer ≠ [] ∨ r.prevWasFlowed then
        r.flushreply false
      else
        Emitted.stay r).andThen fun r =>
      let r :=
        { r with
          currentQuoteDepth := p.quoteDepth
          prevWasFlowed := false }
      if p.line = [] ∧ !p.isflowed then r.flushreply false else r.text firstLine p
  else
    r.text firstLine p

/- `rfc2646reply_free`. -/
def rfc2646replyFree (p : Reply) : Emitted Reply ReplyLine :=
  if p.replybuffer ≠ [] then p.flushreply false else Emitted.stay p

/- The calls for these lines, from the first on. -/
def rfc2646reply (lines : List FlowedLine) : Emitted Reply ReplyLine :=
  (emitAll rfc2646replyHandler rfc2646replyAlloc lines).andThen
    rfc2646replyFree

/-
  What is in the buffer is to be quoted one level deeper than
  the lines that it is from.  A line of the reply is one line.
-/
def replyAccount : Account Reply ReplyLine (Nat × Byte) where
  held := fun p => ink (p.currentQuoteDepth + 1) p.replybuffer
  shown := fun l => ink l.quotes l.text
  Fine := fun l => nl ∉ l.text

/- The buffer has room, and no line ends in it. -/
structure Reply.Sound (p : Reply) : Prop where
  room : p.replybuffer.length ≤ replysize
  oneLine : nl ∉ p.replybuffer

/- The state between two calls, at a depth. -/
structure Reply.At (depth : Nat) (p : Reply) : Prop where
  sound : p.Sound
  depth : p.currentQuoteDepth = depth

theorem Reply.maxlen_le (p : Reply) : p.maxlen ≤ replysize := by
  unfold maxlen replysize
  split
  · decide
  · exact Nat.sub_le _ _

theorem ink_gap (p : Reply) (depth : Nat) : ink depth p.gap = [] := by
  unfold Reply.gap
  split
  · rfl
  · exact ink_blanks depth (by simp)

theorem length_gap_le (p : Reply) : p.gap.length ≤ 1 := by
  unfold Reply.gap
  split
  · exact Nat.zero_le 1
  · exact Nat.le_refl 1

theorem nl_not_mem_gap (p : Reply) : nl ∉ p.gap := by
  unfold Reply.gap
  split
  · exact List.not_mem_nil
  · decide

/- Only a blank is left out in front of the rest. -/
theorem ink_behindBlank (depth : Nat) (txt : List Byte) :
    ink depth (txt.takeWhile (· ≠ chr ' ')) ++ ink depth (behindBlank txt) = ink depth txt := by
  have hSplit := congrArg (ink depth) (List.takeWhile_append_dropWhile
      (p := (· ≠ chr ' ')) (l := txt))
  rw [ink_append] at hSplit
  rw [← hSplit]
  congr 1
  unfold behindBlank
  rcases dropWhile_separator (chr ' ') txt with hNone | ⟨rest, hRest⟩
  · rw [hNone]
    rfl
  · rw [hRest, List.drop_succ_cons, List.drop_zero]
    exact (ink_append depth [chr ' '] rest).symm

variable {p : Reply} {depth : Nat}

theorem Reply.At.emptied (hAt : p.At depth) : Reply.At depth { p with replybuffer := [] } :=
  ⟨⟨Nat.zero_le _, List.not_mem_nil⟩, hAt.depth⟩

theorem flushreply_conserves (hSound : p.Sound) (isflowed : Bool) :
    replyAccount.Conserves p [] (fun q => q = { p with replybuffer := [] })
      (p.flushreply isflowed) := by
  apply Account.conserves_emit
  · rfl
  · intro hMem
    have hLine : nl ∈ (p.line isflowed).text := hMem
    unfold Reply.line at hLine
    cases isflowed with
    | true =>
      rcases List.mem_append.mp hLine with hOld | hBlank
      · exact hSound.oneLine hOld
      · exact absurd hBlank (by decide)
    | false =>
      rcases trimEnd_split p.replybuffer with ⟨blanks, hSplit, _⟩
      apply hSound.oneLine
      rw [hSplit]
      exact List.mem_append_left blanks hLine
  · simp only [replyAccount, Reply.line, ink_nil, List.append_nil]
    cases isflowed with
    | true =>
      exact (ink_append _ _ _).trans ((congrArg _ (ink_blanks _ (by simp))).trans
          (List.append_nil _))
    | false => exact ink_trimEnd _ _

theorem put_conserves (hAt : p.At depth) {text : List Byte}
    (hRoom : p.replybuffer.length + text.length ≤ replysize) (hText : nl ∉ text) :
    replyAccount.Conserves p (ink (depth + 1) text) (Reply.At depth) (p.put text) := by
  unfold Reply.put
  rw [if_pos hRoom]
  apply Account.conserves_stay
  · refine ⟨⟨?_, ?_⟩, hAt.depth⟩
    · rw [List.length_append]
      exact hRoom
    · rw [List.mem_append, not_or]
      exact ⟨hAt.sound.oneLine, hText⟩
  · simp only [replyAccount, ink_append, hAt.depth]

/- All of the text is emitted or in the buffer. -/
theorem fillreply_conserves (hAt : p.At depth) {txt : List Byte} (hText : nl ∉ txt) :
    replyAccount.Conserves p (ink (depth + 1) txt) (Reply.At depth) (p.fillreply txt) := by
  fun_induction Reply.fillreply p txt with
  | case1 p => exact Account.conserves_stay hAt (List.append_nil _).symm
  | case2 p txt hSome hFits =>
    have hGiven : ink (depth + 1) (p.gap ++ txt) = ink (depth + 1) txt := by
      rw [ink_append, ink_gap, List.nil_append]
    have hRoom := p.maxlen_le
    have hGap := length_gap_le p
    rw [← hGiven]
    apply put_conserves hAt
    · rw [List.length_append]
      omega
    · rw [List.mem_append, not_or]
      exact ⟨nl_not_mem_gap p, hText⟩
  | case3 p txt hSome hLong word hFits ih =>
    have hGiven : ink (depth + 1) (p.gap ++ word) ++
        ink (depth + 1) (behindBlank txt) = ink (depth + 1) txt := by
      rw [ink_append, ink_gap, List.nil_append]
      exact ink_behindBlank (depth + 1) txt
    have hRoom := p.maxlen_le
    have hGap := length_gap_le p
    rw [← hGiven]
    apply (put_conserves hAt _ _).andThen
    · intro p' hNext
      apply ih p' hNext
      intro hMem
      apply hText
      exact (List.dropWhile_suffix _).subset (List.mem_of_mem_drop hMem)
    · rw [List.length_append]
      omega
    · rw [List.mem_append, not_or]
      exact ⟨nl_not_mem_gap p, fun hMem => hText ((List.takeWhile_prefix _).subset hMem)⟩
  | case4 p txt hSome hLong word hWord hHeld ih =>
    apply (flushreply_conserves hAt.sound true).nothing_andThen
    rintro q rfl
    exact ih hAt.emptied hText
  | case5 p txt hSome hLong word hWord hNone ih =>
    have hGiven : ink (depth + 1) (txt.take p.maxlen) ++
        ink (depth + 1) (txt.drop p.maxlen) = ink (depth + 1) txt := by
      rw [← ink_append, List.take_append_drop]
    have hEmpty : p.replybuffer = [] := not_not.mp hNone
    have hRoom := p.maxlen_le
    rw [← hGiven]
    apply (put_conserves hAt _ _).andThen
    · intro p' hNext
      apply ih p' hNext
      exact fun hMem => hText (List.mem_of_mem_drop hMem)
    · rw [hEmpty, List.length_nil, List.length_take]
      omega
    · exact fun hMem => hText (List.mem_of_mem_take hMem)

/- The flags do not count. -/
theorem Reply.At.flags (hAt : p.At depth) (isflowed firstLine : Bool) : Reply.At depth
      { p with
        prevWasFlowed := isflowed
        firstLine := firstLine } :=
  ⟨⟨hAt.sound.room, hAt.sound.oneLine⟩, hAt.depth⟩

/- A flush at the same depth. -/
theorem flushreply_at (hAt : p.At depth) (isflowed : Bool) :
    replyAccount.Conserves p [] (Reply.At depth) (p.flushreply isflowed) := by
  apply (flushreply_conserves hAt.sound isflowed).weaken
  rintro q rfl
  exact hAt.emptied

/- The flag for the next line is set. -/
theorem flag_conserves (hAt : p.At depth) (isflowed : Bool) :
    replyAccount.Conserves p [] (Reply.At depth)
      (Emitted.stay { p with prevWasFlowed := isflowed }) :=
  Account.conserves_stay (hAt.flags isflowed p.firstLine) (List.append_nil _).symm

theorem text_conserves {r : Reply} {p : FlowedLine} (hAt : r.At p.quoteDepth)
    (hText : nl ∉ p.line) (firstLine : Bool) :
    replyAccount.Conserves r (ink (p.quoteDepth + 1) p.line)
      (Reply.At p.quoteDepth) (r.text firstLine p) := by
  unfold Reply.text
  split
  · rename_i hEnd
    rw [hEnd.2.2.1]
    apply Account.Conserves.andThen_nothing
    · apply (flushreply_at hAt true).andThen_nothing
      intro q hNext
      exact flushreply_at hNext false
    · intro q hNext
      exact flag_conserves hNext false
  · apply Account.Conserves.andThen_nothing
    · apply (fillreply_conserves hAt hText).andThen_nothing
      intro q hNext
      split
      · exact Account.conserves_stay hNext (List.append_nil _).symm
      · exact flushreply_at hNext false
    · intro q hNext
      exact flag_conserves hNext p.isflowed

theorem replyHandler_conserves {r : Reply} (hSound : r.Sound) {p : FlowedLine}
    (hText : nl ∉ p.line) :
    replyAccount.Conserves r (ink (p.quoteDepth + 1) p.line) Reply.Sound
      (rfc2646replyHandler r p) := by
  have hStart : Reply.At r.currentQuoteDepth { r with firstLine := false } :=
    Reply.At.flags ⟨hSound, rfl⟩ r.prevWasFlowed false
  have hHeld : replyAccount.held { r with firstLine := false } = replyAccount.held r := rfl
  unfold rfc2646replyHandler
  refine Account.Conserves.of_held ?_ hHeld
  simp only
  split
  · -- what is left of another depth is sent first
    refine Account.Conserves.nothing_andThen (show replyAccount.Conserves _ []
        (fun q => q.replybuffer = []) _ from ?_) ?_
    · split
      · apply (flushreply_conserves hStart.sound false).weaken
        rintro q rfl
        rfl
      · rename_i hNone
        exact Account.conserves_stay (not_not.mp (not_or.mp hNone).1) (List.append_nil _).symm
    · intro q hEmpty
      have hHere : Reply.At p.quoteDepth
          { q with
            currentQuoteDepth := p.quoteDepth
            prevWasFlowed := false } := by
        refine ⟨⟨?_, ?_⟩, rfl⟩
        · rw [hEmpty]
          exact Nat.zero_le _
        · rw [hEmpty]
          exact List.not_mem_nil
      have hNothing : replyAccount.held
          { q with
            currentQuoteDepth := p.quoteDepth
            prevWasFlowed := false } = replyAccount.held q := by
        simp only [replyAccount, hEmpty, ink_nil]
      refine Account.Conserves.of_held ?_ hNothing
      split
      · rename_i hNoText
        rw [hNoText.1]
        exact (flushreply_at hHere false).weaken fun _ hNext => hNext.sound
      · exact (text_conserves hHere hText r.firstLine).weaken fun _ hNext => hNext.sound
  · rename_i hSame
    have hHere : Reply.At p.quoteDepth { r with firstLine := false } :=
      ⟨hStart.sound, (not_not.mp hSame).symm⟩
    exact (text_conserves hHere hText r.firstLine).weaken fun _ hNext => hNext.sound

theorem replyAll_conserves {lines : List FlowedLine} (hLines : ∀ l, l ∈ lines → l.Parsed) :
    replyAccount.Conserves rfc2646replyAlloc (lines.flatMap fun l => ink (l.quoteDepth + 1) l.line)
      Reply.Sound
      (emitAll rfc2646replyHandler rfc2646replyAlloc lines) := by
  apply Account.conserves_emitAll
  · intro s x hMem hSound
    exact replyHandler_conserves hSound (hLines x hMem).oneLine.nl
  · exact ⟨Nat.zero_le _, List.not_mem_nil⟩

/-
  Whatever lines the parser hands over: no write leaves the
  buffer, at any time no more is held than fits into it, and
  the reply has their text in order, quoted one level deeper.
-/
theorem reply_conserves {lines : List FlowedLine} (hLines : ∀ l, l ∈ lines → l.Parsed) : (∃ r reply,
      rfc2646reply lines = some (r, reply) ∧ (∀ l, l ∈ reply → nl ∉ l.text ∧
          l.bytes = List.replicate l.quotes (chr '>') ++ (chr ' ' :: l.text ++ [nl])) ∧
        reply.flatMap (fun l => ink l.quotes l.text) = lines.flatMap
            fun l => ink (l.quoteDepth + 1) l.line) ∧
      ∀ front back, lines = front ++ back → ∃ r reply,
          emitAll rfc2646replyHandler rfc2646replyAlloc front = some (r, reply) ∧
            r.replybuffer.length ≤ replysize := by
  constructor
  · have hEnd : replyAccount.Conserves rfc2646replyAlloc
        (lines.flatMap fun l => ink (l.quoteDepth + 1) l.line)
        (fun r => r.replybuffer = []) (rfc2646reply lines) := by
      apply (replyAll_conserves hLines).andThen_nothing
      intro r hSound
      unfold rfc2646replyFree
      split
      · apply (flushreply_conserves hSound false).weaken
        rintro q rfl
        rfl
      · rename_i hEmpty
        exact Account.conserves_stay (not_not.mp hEmpty) (List.append_nil _).symm
    rcases hEnd with ⟨r, reply, hRun, hEmpty, hFine, hInk⟩
    refine ⟨r, reply, hRun, fun l hMem => ⟨hFine l hMem, ?_⟩, ?_⟩
    · unfold ReplyLine.bytes
      rw [quoteLoop_eq]
    · simpa [replyAccount, hEmpty, rfc2646replyAlloc] using hInk
  · rintro front back rfl
    have hFront := replyAll_conserves fun l hMem => hLines l (List.mem_append_left back hMem)
    rcases hFront with ⟨r, reply, hRun, hSound, _⟩
    exact ⟨r, reply, hRun, hSound.room⟩

/- A flowed line that is quoted deeply, and an empty one. -/
theorem reply_conserves_deep : (∃ r reply, rfc2646reply
          [⟨90, true, bytes "a b"⟩, ⟨0, false, []⟩] =
          some (r, reply) ∧
        (∀ l, l ∈ reply → nl ∉ l.text ∧
          l.bytes = List.replicate l.quotes (chr '>') ++ (chr ' ' :: l.text ++ [nl])) ∧
        reply.flatMap (fun l => ink l.quotes l.text) =
          [FlowedLine.mk 90 true (bytes "a b"),
            ⟨0, false, []⟩].flatMap fun l => ink (l.quoteDepth + 1) l.line) ∧
      ∀ front back,
        [FlowedLine.mk 90 true (bytes "a b"), ⟨0, false, []⟩] = front ++ back →
          ∃ r reply, emitAll rfc2646replyHandler rfc2646replyAlloc front = some (r, reply) ∧
              r.replybuffer.length ≤ replysize := by
  apply reply_conserves
  intro l hMem
  rcases List.mem_cons.mp hMem with rfl | hMem
  · decide
  · rw [List.mem_singleton.mp hMem]
    decide

end Wmail.Rfc2646
