import Wmail.Core.Emitting
import Wmail.Rfc2045.ParsedLines

/-
  Flowed text in another width (rfc2646rewrap.c).

  The handlers never fail, and memory is never short.  The
  output handler finds a 0-terminated string in the buffer.
  An access outside of the buffer or of the line is `none`.

  Key theorems include:
    * `rewrapHandler_fresh`
    * `rewrap_conserves`
-/

namespace Wmail.Rfc2646

/-
  `struct rfc2646rewrap`; `wrap_buflen` is the length of the
  buffer's contents.
-/
structure Rewrap where
  hasPrev : Bool
  quoteDepth : Nat
  wrapWidth : Nat
  wide : 20 ≤ wrapWidth
  wrapBuf : List Byte

/- What the output handler finds. -/
structure WrappedLine where
  quoteDepth : Nat
  text : List Byte
deriving DecidableEq

/- `rfc2646rewrap_alloc`. -/
def rfc2646rewrapAlloc (w : Nat) : Rewrap where
  hasPrev := false
  quoteDepth := 0
  wrapWidth := max w 20
  wide := Nat.le_max_right w 20
  wrapBuf := []

/-
  A string is copied behind the contents, with its 0 byte,
  and the output handler is called.
-/
def Rewrap.send (r : Rewrap) (suffix : List Byte) : Emitted Rewrap WrappedLine :=
  if r.wrapBuf.length + suffix.length + 1 ≤ r.wrapWidth + 1 then
    some ({ r with wrapBuf := [] },
      [⟨r.quoteDepth, (r.wrapBuf ++ suffix).takeWhile (· ≠ 0)⟩])
  else
    none

/- Bytes are written behind the contents. -/
def Rewrap.put (r : Rewrap) (text : List Byte) : Emitted Rewrap WrappedLine :=
  if r.wrapBuf.length + text.length ≤ r.wrapWidth + 1 then
    Emitted.stay { r with wrapBuf := r.wrapBuf ++ text }
  else
    none

/- The width that is left for text. -/
def Rewrap.w (r : Rewrap) : Nat :=
  if r.quoteDepth + 20 < r.wrapWidth then r.wrapWidth - 2 - r.quoteDepth - 1 else r.wrapWidth - 2

theorem Rewrap.w_bounds (r : Rewrap) : 18 ≤ r.w ∧ r.w + 2 ≤ r.wrapWidth := by
  have hWide := r.wide
  unfold w
  split
  · omega
  · omega

/-
  The first blank's run ends a word; all of the run but its
  last blank goes with the word.
-/
def wordEnd (txt : List Byte) : Nat :=
  (txt.takeWhile (· ≠ chr ' ')).length +
    (((txt.dropWhile (· ≠ chr ' ')).takeWhile
      (· = chr ' ')).length - 1)

/- The blank in front of a word. -/
def spaceFor (needspc : Bool) : List Byte :=
  if needspc then [chr ' '] else []

/- The loop of `rfc2646rewrap_handler`. -/
def Rewrap.loop (r : Rewrap) (needspc : Bool) (txt : List Byte) : Emitted Rewrap WrappedLine :=
  if txt = [] then
    Emitted.stay r
  else if r.wrapBuf.length + needspc.toNat + wordEnd txt < r.w
  then
    (r.put (spaceFor needspc ++ txt.take (wordEnd txt))).andThen
      fun r => r.loop true (txt.drop (wordEnd txt + 1))
  else if r.wrapBuf ≠ [] then
    (Rewrap.send
      { r with
        wrapBuf := r.wrapBuf.rdropWhile (· = chr ' ') }
      (bytes " ")).andThen
      fun _ => Rewrap.loop { r with wrapBuf := [] } false txt
  else if txt.length < r.w - 1 then
    none
  else
    ((r.put (txt.take (r.w - 1))).andThen
      fun r => r.send (bytes " ")).andThen
      fun r' => r'.loop false (txt.drop (r.w - 1))
termination_by (txt.length, r.wrapBuf.length)
decreasing_by
  · rename_i hSome _
    apply Prod.Lex.left
    have hPos := List.length_pos_of_ne_nil hSome
    rw [List.length_drop]
    omega
  · rename_i hHeld
    apply Prod.Lex.right
    exact List.length_pos_of_ne_nil hHeld
  · rename_i hSome _ _ _
    apply Prod.Lex.left
    have hWidth := r.w_bounds
    rw [List.length_drop]
    omega

/- `rfc2646rewrap_handler`. -/
def rfc2646rewrapHandler (r : Rewrap) (p : FlowedLine) : Emitted Rewrap WrappedLine :=
  (if r.hasPrev then
      if r.quoteDepth ≠ p.quoteDepth then
        (r.send []).andThen
          fun r => Emitted.stay { r with hasPrev := false }
      else if !p.isflowed ∧ p.line = [] then
        (r.send (bytes " ")).andThen
          fun r => Emitted.stay { r with hasPrev := false }
      else
        Emitted.stay r
    else
      Emitted.stay { r with wrapBuf := [] }).andThen fun r =>
    let r := { r with quoteDepth := p.quoteDepth }
    if !r.hasPrev ∧ p.line = bytes "-- " then
      -- the buffer is empty here
      r.send (bytes "-- ")
    else
      (r.loop r.hasPrev p.line).andThen fun r =>
        let r := { r with hasPrev := p.isflowed }
        if p.isflowed then Emitted.stay r else r.send []

/- `rfc2646rewrap_free`. -/
def rfc2646rewrapFree (r : Rewrap) : Emitted Rewrap WrappedLine :=
  if r.hasPrev then r.send [] else Emitted.stay r

/- The calls for these lines, from the first on. -/
def rfc2646rewrap (w : Nat) (lines : List FlowedLine) : Emitted Rewrap WrappedLine :=
  (emitAll rfc2646rewrapHandler (rfc2646rewrapAlloc w)
    lines).andThen rfc2646rewrapFree

/- What is in the buffer is from lines of the same depth. -/
def rewrapAccount : Account Rewrap WrappedLine (Nat × Byte) where
  held := fun r => ink r.quoteDepth r.wrapBuf
  shown := fun l => ink l.quoteDepth l.text
  Fine := fun _ => True

/- The buffer has room for a blank, and has no 0 byte. -/
structure Rewrap.Room (width depth : Nat) (r : Rewrap) : Prop where
  sized : r.wrapWidth = width
  depth : r.quoteDepth = depth
  room : r.wrapBuf.length < r.w
  noZero : (0 : Byte) ∉ r.wrapBuf

/- Between two calls, what is kept is from a flowed line. -/
structure Rewrap.Sound (width : Nat) (r : Rewrap) : Prop where
  room : r.Room width r.quoteDepth
  empty : r.hasPrev = false → r.wrapBuf = []

theorem takeWhile_noZero {text : List Byte} (hText : (0 : Byte) ∉ text) :
    text.takeWhile (· ≠ 0) = text := by
  rw [List.takeWhile_eq_self_iff]
  intro b hMem
  rw [decide_eq_true_iff]
  rintro rfl
  exact hText hMem

theorem wordEnd_le (txt : List Byte) : wordEnd txt ≤ txt.length := by
  have hSplit := congrArg List.length (List.takeWhile_append_dropWhile
      (p := (· ≠ chr ' ')) (l := txt))
  have hRun := (List.takeWhile_prefix (· = chr ' ') (l := txt.dropWhile (· ≠ chr ' '))).length_le
  rw [List.length_append] at hSplit
  unfold wordEnd
  omega

/- The last blank of a run, and what is behind it. -/
theorem drop_run (more : List Byte) : ∃ rest, (chr ' ' :: more).drop
          (more.takeWhile (· = chr ' ')).length =
        chr ' ' :: rest := by
  induction more with
  | nil => exact ⟨[], rfl⟩
  | cons c more ih =>
    by_cases hBlank : c = chr ' '
    · rw [List.takeWhile_cons_of_pos (by simpa using hBlank),
        List.length_cons, List.drop_succ_cons, hBlank]
      exact ih
    · rw [List.takeWhile_cons_of_neg (by simpa using hBlank)]
      exact ⟨c :: more, rfl⟩

/- A word ends at a blank or with the text. -/
theorem drop_wordEnd (txt : List Byte) : txt.drop (wordEnd txt) = [] ∨
      ∃ rest, txt.drop (wordEnd txt) = chr ' ' :: rest := by
  have hRest : txt.drop (wordEnd txt) = (txt.dropWhile (· ≠ chr ' ')).drop
        (((txt.dropWhile (· ≠ chr ' ')).takeWhile (· = chr ' ')).length - 1) := by
    unfold wordEnd
    rw [← List.drop_drop]
    congr 1
    nth_rewrite 2 [← List.takeWhile_append_dropWhile (p := (· ≠ chr ' ')) (l := txt)]
    rw [List.drop_left]
  rw [hRest]
  rcases dropWhile_separator (chr ' ') txt with hNone | ⟨more, hTail⟩
  · rw [hNone]
    exact Or.inl rfl
  · right
    rw [hTail, List.takeWhile_cons_of_pos (by simp), List.length_cons, Nat.add_sub_cancel]
    exact drop_run more

/- Only a blank is left out behind a word. -/
theorem ink_wordEnd (depth : Nat) (txt : List Byte) :
    ink depth (txt.take (wordEnd txt)) ++ ink depth (txt.drop (wordEnd txt + 1)) =
      ink depth txt := by
  have hSplit := congrArg (ink depth) (List.take_append_drop (wordEnd txt) txt)
  rw [ink_append] at hSplit
  rw [← hSplit, ← List.drop_drop]
  congr 1
  rcases drop_wordEnd txt with hNil | ⟨rest, hBlank⟩
  · rw [hNil]
    rfl
  · rw [hBlank]
    exact (ink_append depth [chr ' '] rest).symm

variable {r : Rewrap} {width depth : Nat} {suffix : List Byte}

theorem send_conserves (hRoom : r.Room width depth) (hShort : suffix.length ≤ 2)
    (hBlank : ∀ b, b ∈ suffix → b = chr ' ') :
    rewrapAccount.Conserves r [] (fun q => q = { r with wrapBuf := [] }) (r.send suffix) := by
  have hBounds := r.w_bounds
  have hLess := hRoom.room
  unfold Rewrap.send
  rw [if_pos (by omega)]
  apply Account.conserves_emit
  · rfl
  · trivial
  · have hText : (0 : Byte) ∉ r.wrapBuf ++ suffix := by
      rw [List.mem_append, not_or]
      refine ⟨hRoom.noZero, fun hMem => ?_⟩
      exact absurd (hBlank 0 hMem) (by decide)
    simp only [rewrapAccount, takeWhile_noZero hText, ink_append, ink_blanks _ hBlank, ink_nil,
      List.append_nil]

theorem Rewrap.Room.emptied (hRoom : r.Room width depth) :
    Rewrap.Room width depth { r with wrapBuf := [] } := by
  refine ⟨hRoom.sized, hRoom.depth, ?_, List.not_mem_nil⟩
  exact Nat.lt_of_le_of_lt (Nat.zero_le _) hRoom.room

/- A call of the handler in the middle of a line. -/
theorem send_room (hRoom : r.Room width depth) (hShort : suffix.length ≤ 2)
    (hBlank : ∀ b, b ∈ suffix → b = chr ' ') :
    rewrapAccount.Conserves r [] (Rewrap.Room width depth) (r.send suffix) := by
  apply (send_conserves hRoom hShort hBlank).weaken
  rintro q rfl
  exact hRoom.emptied

/- The string that ends a flowed line. -/
theorem mem_oneBlank {b : Byte} (hMem : b ∈ bytes " ") : b = chr ' ' :=
  List.mem_singleton.mp hMem

theorem putLine_conserves (hRoom : r.Room width depth) {text : List Byte}
    (hFits : r.wrapBuf.length + text.length < r.w) (hText : (0 : Byte) ∉ text) :
    rewrapAccount.Conserves r (ink depth text) (Rewrap.Room width depth) (r.put text) := by
  have hBounds := r.w_bounds
  unfold Rewrap.put
  rw [if_pos (by omega)]
  apply Account.conserves_stay
  · refine ⟨hRoom.sized, hRoom.depth, ?_, ?_⟩
    · rw [List.length_append]
      exact hFits
    · rw [List.mem_append, not_or]
      exact ⟨hRoom.noZero, hText⟩
  · simp only [rewrapAccount, ink_append, hRoom.depth]

/- All of the line is emitted or in the buffer. -/
theorem loop_conserves (hRoom : r.Room width depth) {needspc : Bool} {txt : List Byte}
    (hText : (0 : Byte) ∉ txt) :
    rewrapAccount.Conserves r (ink depth txt) (Rewrap.Room width depth) (r.loop needspc txt) := by
  fun_induction Rewrap.loop r needspc txt with
  | case1 r needspc => exact Account.conserves_stay hRoom (List.append_nil _).symm
  | case2 r needspc txt hSome hFits ih =>
    have hEnd := wordEnd_le txt
    have hGap : (spaceFor needspc).length = needspc.toNat ∧ ink depth (spaceFor needspc) = [] ∧
          (0 : Byte) ∉ spaceFor needspc := by
      cases needspc with
      | false => exact ⟨rfl, rfl, List.not_mem_nil⟩
      | true => exact ⟨rfl, rfl, by decide⟩
    have hGiven : ink depth (spaceFor needspc ++ txt.take (wordEnd txt)) ++
          ink depth (txt.drop (wordEnd txt + 1)) =
        ink depth txt := by
      rw [ink_append, hGap.2.1, List.nil_append]
      exact ink_wordEnd depth txt
    rw [← hGiven]
    apply (putLine_conserves hRoom _ _).andThen
    · intro q hNext
      apply ih q hNext
      exact fun hMem => hText (List.mem_of_mem_drop hMem)
    · rw [List.length_append, List.length_take, hGap.1]
      omega
    · rw [List.mem_append, not_or]
      exact ⟨hGap.2.2, fun hMem => hText (List.mem_of_mem_take hMem)⟩
  | case3 r needspc txt hSome hLong hHeld ih =>
    have hTrim : ink r.quoteDepth (r.wrapBuf.rdropWhile (· = chr ' ')) =
        ink r.quoteDepth r.wrapBuf := by
      have hSplit := congrArg (ink r.quoteDepth) (List.rdropWhile_append_rtakeWhile
          (p := (· = chr ' ')) (l := r.wrapBuf))
      have hBlanks : ∀ b, b ∈ r.wrapBuf.rtakeWhile (· = chr ' ') → b = chr ' ' := by
        intro b hMem
        simpa using List.mem_rtakeWhile_imp hMem
      rw [ink_append, ink_blanks _ hBlanks, List.append_nil] at hSplit
      exact hSplit
    have hShorter := (List.rdropWhile_prefix (· = chr ' ') r.wrapBuf)
    have hTrimmed : Rewrap.Room width depth
        { r with
          wrapBuf := r.wrapBuf.rdropWhile (· = chr ' ') } :=
      ⟨hRoom.sized, hRoom.depth, Nat.lt_of_le_of_lt hShorter.length_le hRoom.room,
        fun hMem => hRoom.noZero (hShorter.subset hMem)⟩
    have hSend : rewrapAccount.Conserves r [] (fun q => q = { r with wrapBuf := [] }) (Rewrap.send
          { r with
            wrapBuf := r.wrapBuf.rdropWhile (· = chr ' ') }
          (bytes " ")) :=
      (send_conserves hTrimmed (by decide) fun _ => mem_oneBlank).of_held hTrim
    apply hSend.nothing_andThen
    rintro q rfl
    exact ih hRoom.emptied hText
  | case4 r needspc txt hSome hLong hNone hShort =>
    have hEnd := wordEnd_le txt
    have hBit := Bool.toNat_le needspc
    have hEmpty : r.wrapBuf = [] := not_not.mp hNone
    rw [hEmpty, List.length_nil] at hLong
    omega
  | case5 r needspc txt hSome hLong hNone hEnough ih =>
    have hGiven : ink depth (txt.take (r.w - 1)) ++
        ink depth (txt.drop (r.w - 1)) = ink depth txt := by
      rw [← ink_append, List.take_append_drop]
    have hEmpty : r.wrapBuf = [] := not_not.mp hNone
    have hBounds := r.w_bounds
    rw [← hGiven]
    refine Account.Conserves.andThen (show rewrapAccount.Conserves _ _
        (Rewrap.Room width depth) _ from ?_) ?_
    · apply (putLine_conserves hRoom _ _).andThen_nothing
      · intro q hNext
        exact send_room hNext (by decide) fun _ => mem_oneBlank
      · rw [hEmpty, List.length_nil, List.length_take]
        omega
      · exact fun hMem => hText (List.mem_of_mem_take hMem)
    · intro q hNext
      apply ih q hNext
      exact fun hMem => hText (List.mem_of_mem_drop hMem)

/- Where a line begins: nothing is left of another depth. -/
structure Rewrap.Ready (width depth : Nat) (q : Rewrap) : Prop where
  sized : q.wrapWidth = width
  kept : q.hasPrev = true → q.Room width depth
  empty : q.hasPrev = false → q.wrapBuf = []

/- A buffer that was flushed is ready for any line. -/
theorem Rewrap.Ready.flushed {q : Rewrap} {width : Nat} (hWidth : q.wrapWidth = width)
    (depth : Nat) : Rewrap.Ready width depth { q with wrapBuf := [], hasPrev := false } :=
  ⟨hWidth, nofun, fun _ => rfl⟩

/- What a handler flushes in the middle of a paragraph. -/
theorem endParagraph_conserves {width : Nat} (hSound : r.Sound width) (depth : Nat)
    (hShort : suffix.length ≤ 2) (hBlank : ∀ b, b ∈ suffix → b = chr ' ') :
    rewrapAccount.Conserves r [] (Rewrap.Ready width depth) ((r.send suffix).andThen
        fun r => Emitted.stay { r with hasPrev := false }) := by
  apply (send_conserves hSound.room hShort hBlank).andThen_nothing
  rintro q rfl
  apply Account.conserves_stay
  · exact Rewrap.Ready.flushed hSound.room.sized depth
  · rfl

/- The end of a line, from where it is ready. -/
theorem line_conserves {q : Rewrap} {width : Nat} {p : FlowedLine}
    (hReady : q.Ready width p.quoteDepth) (hText : (0 : Byte) ∉ p.line) :
    rewrapAccount.Conserves q (ink p.quoteDepth p.line) (fun q => q.Sound width ∧
        (p.isflowed = false → q.hasPrev = false))
      (let r := { q with quoteDepth := p.quoteDepth }
      if !r.hasPrev ∧ p.line = bytes "-- " then
        r.send (bytes "-- ")
      else
        (r.loop r.hasPrev p.line).andThen fun r =>
          let r := { r with hasPrev := p.isflowed }
          if p.isflowed then Emitted.stay r else r.send []) := by
  have hHeld : rewrapAccount.held { q with quoteDepth := p.quoteDepth } =
        rewrapAccount.held q := by
    cases hPrev : q.hasPrev with
    | true => simp only [rewrapAccount, (hReady.kept hPrev).depth]
    | false => simp only [rewrapAccount, hReady.empty hPrev, ink_nil]
  have hRoom : Rewrap.Room width p.quoteDepth { q with quoteDepth := p.quoteDepth } := by
    by_cases hPrev : q.hasPrev = true
    · have hKept := hReady.kept hPrev
      have hSame : { q with quoteDepth := p.quoteDepth } = q := by rw [← hKept.depth]
      rw [hSame]
      exact hKept
    · have hEmpty := hReady.empty (Bool.not_eq_true _ ▸ hPrev)
      have hBounds := Rewrap.w_bounds { q with quoteDepth := p.quoteDepth }
      refine ⟨hReady.sized, rfl, ?_, ?_⟩
      · have hNone : q.wrapBuf.length = 0 := congrArg List.length hEmpty
        exact Nat.lt_of_lt_of_le (hNone ▸ by decide) hBounds.1
      · rw [hEmpty]
        exact List.not_mem_nil
  refine Account.Conserves.of_held ?_ hHeld
  simp only
  split
  · rename_i hSeparator
    have hFirst : q.hasPrev = false := by simpa using hSeparator.1
    have hEmpty := hReady.empty hFirst
    have hFits : 0 + (bytes "-- ").length + 1 ≤
        q.wrapWidth + 1 := by
      have hWide := q.wide
      exact Nat.le_trans (by decide : _ ≤ 21) (Nat.succ_le_succ hWide)
    unfold Rewrap.send
    rw [hEmpty, if_pos, hSeparator.2]
    · apply Account.conserves_emit
      · exact ⟨⟨hRoom.emptied, fun _ => rfl⟩, fun _ => hFirst⟩
      · trivial
      · simp only [rewrapAccount, ink_nil, List.append_nil, List.nil_append]
        rfl
    · exact hFits
  · apply (loop_conserves hRoom hText).andThen_nothing
    intro s hNext
    split
    · rename_i hFlowed
      apply Account.conserves_stay
      · refine ⟨⟨?_, fun hNone => ?_⟩, fun hNone => ?_⟩
        · exact ⟨hNext.sized, rfl, hNext.room, hNext.noZero⟩
        · exact absurd (hFlowed.symm.trans hNone) nofun
        · exact absurd (hFlowed.symm.trans hNone) nofun
      · exact (List.append_nil _).symm
    · rename_i hFixed
      have hKept : Rewrap.Room width p.quoteDepth { s with hasPrev := p.isflowed } :=
        ⟨hNext.sized, hNext.depth, hNext.room, hNext.noZero⟩
      have hSend : rewrapAccount.Conserves _ [] _ (Rewrap.send _ []) :=
        send_conserves hKept (by decide) nofun
      apply hSend.weaken
      rintro s' rfl
      refine ⟨⟨?_, fun _ => rfl⟩, fun hNone => hNone⟩
      exact hKept.depth ▸ hKept.emptied

/-
  The handler keeps all of a line.  It begins again behind a
  line that is not flowed.
-/
theorem rewrapHandler_conserves {width : Nat} (hSound : r.Sound width) {p : FlowedLine}
    (hText : (0 : Byte) ∉ p.line) :
    rewrapAccount.Conserves r (ink p.quoteDepth p.line) (fun q => q.Sound width ∧
        (p.isflowed = false → q.hasPrev = false))
      (rfc2646rewrapHandler r p) := by
  unfold rfc2646rewrapHandler
  refine Account.Conserves.nothing_andThen (show rewrapAccount.Conserves _ _
      (Rewrap.Ready width p.quoteDepth) _ from ?_) ?_
  · split
    · rename_i hPrev
      split
      · exact endParagraph_conserves hSound p.quoteDepth (by decide) nofun
      rename_i hSame
      have hDepth : r.quoteDepth = p.quoteDepth := not_not.mp hSame
      split
      · exact endParagraph_conserves hSound p.quoteDepth (by decide) fun _ => mem_oneBlank
      · apply Account.conserves_stay
        · refine ⟨hSound.room.sized, fun _ => ?_, hSound.empty⟩
          rw [← hDepth]
          exact hSound.room
        · exact (List.append_nil _).symm
    · rename_i hFirst
      have hEmpty := hSound.empty (Bool.not_eq_true _ ▸ hFirst)
      apply Account.conserves_stay
      · exact ⟨hSound.room.sized, fun hPrev => absurd hPrev hFirst, fun _ => rfl⟩
      · simp only [rewrapAccount, hEmpty, ink_nil, List.append_nil]
  · intro q hReady
    exact line_conserves hReady hText

/- Where nothing is kept, the line before does not matter. -/
theorem rewrapHandler_fresh {w : Nat} (hWidth : r.wrapWidth = max w 20)
    (hFirst : r.hasPrev = false) (p : FlowedLine) :
    rfc2646rewrapHandler r p = rfc2646rewrapHandler (rfc2646rewrapAlloc w) p := by
  rcases r with ⟨hasPrev, quoteDepth, wrapWidth, wide, wrapBuf⟩
  have hSame : wrapWidth = max w 20 := hWidth
  have hNone : hasPrev = false := hFirst
  subst hSame hNone
  rfl

/- What the output handler finds, call after call. -/
def rewrapped (w : Nat) (lines : List FlowedLine) : Option (List WrappedLine) :=
  (rfc2646rewrap w lines).map Prod.snd

/- Every line is kept, from the start to the end. -/
theorem rewrapAll_conserves (w : Nat) {lines : List FlowedLine}
    (hText : ∀ l, l ∈ lines → (0 : Byte) ∉ l.line) :
    rewrapAccount.Conserves (rfc2646rewrapAlloc w) (lines.flatMap fun l => ink l.quoteDepth l.line)
      (Rewrap.Sound (max w 20))
      (emitAll rfc2646rewrapHandler (rfc2646rewrapAlloc w) lines) := by
  apply Account.conserves_emitAll
  · intro s x hMem hSound
    exact (rewrapHandler_conserves hSound (hText x hMem)).weaken fun _ hNext => hNext.1
  · have hBounds := (rfc2646rewrapAlloc w).w_bounds
    exact ⟨⟨rfl, rfl, Nat.lt_of_lt_of_le (Nat.succ_pos 17) hBounds.1,
      List.not_mem_nil⟩, fun _ => rfl⟩

theorem rewrap_run (w : Nat) {lines : List FlowedLine}
    (hText : ∀ l, l ∈ lines → (0 : Byte) ∉ l.line) :
    ∃ out, rewrapped w lines = some out ∧ out.flatMap (fun l => ink l.quoteDepth l.text) =
          lines.flatMap fun l => ink l.quoteDepth l.line := by
  have hEnd : rewrapAccount.Conserves (rfc2646rewrapAlloc w)
      (lines.flatMap fun l => ink l.quoteDepth l.line)
      (fun r => r.wrapBuf = []) (rfc2646rewrap w lines) := by
    apply (rewrapAll_conserves w hText).andThen_nothing
    intro r hSound
    unfold rfc2646rewrapFree
    split
    · have hSend : rewrapAccount.Conserves _ [] _ (r.send []) :=
        send_conserves hSound.room (by decide) nofun
      apply hSend.weaken
      rintro q rfl
      rfl
    · rename_i hFirst
      exact Account.conserves_stay (hSound.empty (Bool.not_eq_true _ ▸ hFirst))
        (List.append_nil _).symm
  rcases hEnd with ⟨r, out, hRun, hEmpty, _, hInk⟩
  refine ⟨out, ?_, ?_⟩
  · unfold rewrapped
    rw [hRun]
    rfl
  · simpa [rewrapAccount, hEmpty, rfc2646rewrapAlloc] using hInk

/- A run from where nothing is kept. -/
theorem fresh_run {w : Nat} (hWidth : r.wrapWidth = max w 20) (hFirst : r.hasPrev = false)
    (lines : List FlowedLine) :
    ((emitAll rfc2646rewrapHandler r lines).andThen rfc2646rewrapFree).map Prod.snd =
      rewrapped w lines := by
  unfold rewrapped rfc2646rewrap
  cases lines with
  | nil =>
    simp only [emitAll, Emitted.stay_andThen]
    unfold rfc2646rewrapFree
    rw [hFirst, if_neg Bool.false_ne_true]
    rfl
  | cons p rest => simp only [emitAll, rewrapHandler_fresh hWidth hFirst p]

/- Behind a line that is not flowed, wrapping starts again. -/
theorem rewrapped_fixed (w : Nat) {front back : List FlowedLine} {l : FlowedLine} (hText :
      ∀ k, k ∈ front ++ l :: back → (0 : Byte) ∉ k.line) (hFixed : l.isflowed = false) :
    ∃ out more, rewrapped w (front ++ [l]) = some out ∧ rewrapped w back = some more ∧
        rewrapped w (front ++ l :: back) = some (out ++ more) := by
  have hFront : ∀ k, k ∈ front → (0 : Byte) ∉ k.line :=
    fun k hMem => hText k (List.mem_append_left _ hMem)
  have hLine : (0 : Byte) ∉ l.line := hText l (List.mem_append_right front List.mem_cons_self)
  have hBack : ∀ k, k ∈ back → (0 : Byte) ∉ k.line :=
    fun k hMem => hText k (List.mem_append_right front (List.mem_cons_of_mem l hMem))
  have hHere := (rewrapAll_conserves w hFront).andThen
    fun s hSound => rewrapHandler_conserves hSound hLine
  rcases hHere with ⟨s, out, hRun, ⟨hSound, hEnd⟩, _⟩
  have hFirst := hEnd hFixed
  have hBegin : emitAll rfc2646rewrapHandler
      (rfc2646rewrapAlloc w) (front ++ [l]) = some (s, out) := by
    rw [emitAll_append]
    simpa only [emitAll, Emitted.andThen_stay] using hRun
  rcases rewrap_run w hBack with ⟨more, hMore, _⟩
  have hRest := fresh_run hSound.room.sized hFirst back
  refine ⟨out, more, ?_, hMore, ?_⟩
  · have hFree : rfc2646rewrapFree s = Emitted.stay s := by
      unfold rfc2646rewrapFree
      rw [hFirst, if_neg Bool.false_ne_true]
    unfold rewrapped rfc2646rewrap
    rw [hBegin]
    simp only [Emitted.andThen, hFree, Emitted.stay, List.append_nil, Option.map_some]
  · rw [hMore] at hRest
    rcases Option.map_eq_some_iff.mp hRest with ⟨⟨t, others⟩, hThen, rfl⟩
    unfold rewrapped rfc2646rewrap
    rw [← List.singleton_append, ← List.append_assoc, emitAll_append, hBegin, Emitted.andThen_assoc]
    simp only [Emitted.andThen] at hThen ⊢
    rw [hThen]
    rfl

/-
  No access leaves the buffer, the output handler finds the
  text of these lines in order and at its depth, and what
  follows a line that is not flowed is wrapped as if nothing
  had come before it.
-/
def Rewraps (w : Nat) (lines : List FlowedLine) : Prop :=
  ∃ out, rewrapped w lines = some out ∧ out.flatMap (fun l => ink l.quoteDepth l.text) =
        (lines.flatMap fun l => ink l.quoteDepth l.line) ∧
      ∀ front l back, lines = front ++ l :: back → l.isflowed = false →
          ∃ before behind, rewrapped w (front ++ [l]) = some before ∧
              rewrapped w back = some behind ∧
              out = before ++ behind

/- Lines without 0 bytes are kept in any width. -/
theorem rewrap_conserves (w : Nat) {lines : List FlowedLine}
    (hText : ∀ l, l ∈ lines → (0 : Byte) ∉ l.line) : Rewraps w lines := by
  rcases rewrap_run w hText with ⟨out, hRun, hInk⟩
  refine ⟨out, hRun, hInk, ?_⟩
  rintro front l back rfl hFixed
  rcases rewrapped_fixed w hText hFixed with ⟨before, behind, hBefore, hBehind, hAll⟩
  refine ⟨before, behind, hBefore, hBehind, ?_⟩
  exact Option.some.inj (hRun.symm.trans hAll)

theorem rewrap_conserves_two : Rewraps 0 [⟨1, true, bytes "a b"⟩, ⟨1, false, bytes "c"⟩] :=
  rewrap_conserves 0 fun l hMem => by
    rcases List.mem_cons.mp hMem with rfl | hMem
    · decide
    · rw [List.mem_singleton.mp hMem]
      decide

/- A line that is one word, and fits. -/
theorem loop_word (hEmpty : r.wrapBuf = []) {word : List Byte} (hSome : word ≠ [])
    (hWord : chr ' ' ∉ word) (hFits : word.length < r.w) :
    r.loop false word = Emitted.stay { r with wrapBuf := word } := by
  have hTake : word.takeWhile (· ≠ chr ' ') = word := by
    rw [List.takeWhile_eq_self_iff]
    intro b hMem
    simpa using fun hBlank : b = chr ' ' => hWord (hBlank ▸ hMem)
  have hDrop : word.dropWhile (· ≠ chr ' ') = [] := by
    have hSplit := List.takeWhile_append_dropWhile (p := (· ≠ chr ' ')) (l := word)
    rw [hTake] at hSplit
    exact List.append_right_eq_self.mp hSplit
  have hEnd : wordEnd word = word.length := by
    unfold wordEnd
    rw [hTake, hDrop]
    rfl
  have hBounds := r.w_bounds
  rw [Rewrap.loop, if_neg hSome, if_pos]
  · have hPut : r.put (spaceFor false ++ word.take (wordEnd word)) =
        Emitted.stay { r with wrapBuf := word } := by
      unfold Rewrap.put spaceFor
      rw [if_pos]
      · rw [hEnd, List.take_length, hEmpty]
        rfl
      · rw [hEnd, List.take_length, hEmpty]
        exact Nat.le_trans (by simpa using hFits.le) (by omega)
    rw [hPut, Emitted.stay_andThen, hEnd, List.drop_eq_nil_of_le (Nat.le_succ _), Rewrap.loop,
      if_pos rfl]
  · rw [hEnd, hEmpty]
    simpa using hFits

/- The output handler does not see what is behind a 0 byte. -/
theorem not_rewraps_zero : FlowedLine.Parsed ⟨0, false, [97, 0, 98]⟩ ∧
      ¬Rewraps 20 [⟨0, false, [97, 0, 98]⟩] := by
  constructor
  · decide
  · rintro ⟨out, hRun, hInk, _⟩
    have hLoop := loop_word (r := { rfc2646rewrapAlloc 20 with quoteDepth := 0 })
      rfl (List.cons_ne_nil 97 [0, 98]) (by decide) (by decide)
    have hOut : rewrapped 20 [⟨0, false, [97, 0, 98]⟩] = some [⟨0, [97]⟩] := by
      have hStart : rfc2646rewrapHandler (rfc2646rewrapAlloc 20)
          ⟨0, false, [97, 0, 98]⟩ = (Rewrap.loop { rfc2646rewrapAlloc 20 with quoteDepth := 0 }
              false [97, 0, 98]).andThen fun r => Rewrap.send { r with hasPrev := false } [] := by
        have hPlain : ¬((!(rfc2646rewrapAlloc 20).hasPrev) = true ∧
            [97, 0, 98] = bytes "-- ") := by
          decide
        unfold rfc2646rewrapHandler
        rw [if_neg nofun, Emitted.stay_andThen]
        simp only
        rw [if_neg hPlain]
        rfl
      unfold rewrapped rfc2646rewrap
      simp only [emitAll, hStart, hLoop, Emitted.stay_andThen, Emitted.andThen_stay]
      rfl
    rw [hOut] at hRun
    cases hRun
    revert hInk
    decide

end Wmail.Rfc2646
