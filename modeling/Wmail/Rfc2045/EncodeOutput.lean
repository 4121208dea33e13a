import Wmail.Rfc2045.Encode
import Wmail.Core.Lines
import Mathlib.Tactic.Ring

/-
  What the encoders write.

  With a callback that accepts everything, the output
  buffers only delay the output: the quoted-printable
  encoder writes a function of its whole input, and the
  base64 encoder the groups of complete blocks of 57 bytes.

  Key theorems include:
    * `qpEncode_linesFit`
    * `base64Encoder_written`
-/

namespace Wmail.Rfc2045

/- Accepted output only moves through the buffer. -/
theorem eflush_accept (info : EncodeInfo) (ptr : List Byte) :
    ∃ next : EncodeInfo, eflush (Sink.accept Byte) info ptr = (0, next) ∧
        next.output = info.output ++ ptr ∧
          next.inputBuffer = info.inputBuffer ∧ next.inputBufCnt = info.inputBufCnt := by
  induction ptr generalizing info with
  | nil => exact ⟨info, rfl, by simp, rfl, rfl⟩
  | cons c ptr ih =>
    unfold eflush
    split
    · rcases ih
        { info with
          outputBuffer := [c]
          sent := info.sent ++ [info.outputBuffer] } with
        ⟨next, hNext, hOutput, hBuffer, hCnt⟩
      refine ⟨next, ?_, ?_, hBuffer, hCnt⟩
      · simpa [EncodeInfo.callback, Sink.accept] using hNext
      · rw [hOutput]
        simp [EncodeInfo.output]
    · rcases ih
        { info with
          outputBuffer := info.outputBuffer ++ [c] } with
        ⟨next, hNext, hOutput, hBuffer, hCnt⟩
      refine ⟨next, ?_, ?_, hBuffer, hCnt⟩
      · simpa using hNext
      · rw [hOutput]
        simp [EncodeInfo.output]

/- The output of a call, including its local buffer. -/
def QpLocal.output (q : QpLocal) : List Byte :=
  q.info.output ++ q.localBuf

/-
  `next` is `q` with `text` written and the count of the
  current line set to `cnt`.
-/
structure QpLocal.Wrote (q next : QpLocal) (text : List Byte) (cnt : Nat) : Prop where
  output : next.output = q.output ++ text
  cnt : next.info.inputBufCnt = cnt

theorem qput_accept (q : QpLocal) (c : Byte) :
    ∃ next, qput (Sink.accept Byte) q c = (0, next) ∧ q.Wrote next [c] q.info.inputBufCnt := by
  unfold qput
  split
  · rcases eflush_accept q.info q.localBuf with ⟨next, hNext, hOutput, hBuffer, hCnt⟩
    refine ⟨{ info := next, localBuf := [c] }, ?_, ?_, hCnt⟩
    · simp [hNext]
    · simp [QpLocal.output, hOutput]
  · exact ⟨_, rfl, by simp [QpLocal.output], rfl⟩

@[simp] theorem QpLocal.output_setCnt (q : QpLocal) (n : Nat) : (q.setCnt n).output = q.output :=
  rfl

@[simp] theorem QpLocal.cnt_setCnt (q : QpLocal) (n : Nat) : (q.setCnt n).info.inputBufCnt = n :=
  rfl

------------
-- Quoted-Printable
------------

/- Whether a soft line break is due before a byte. -/
def qpBreakDue (cnt : Nat) (c : Byte) : Bool :=
  cnt > 72 && c ≠ nl

/- The count of the line after the soft line break. -/
def qpCntBefore (cnt : Nat) (c : Byte) : Nat :=
  if qpBreakDue cnt c then 0 else cnt

/- The text written for a byte, line break aside. -/
def qpToken (c : Byte) : List Byte :=
  if c ≠ nl ∧ qpEscaped c then
    [chr '=', hexDigit (c.toNat >>> 4 &&& 15), hexDigit (c.toNat &&& 15)]
  else
    [c]

/- The count of the line after a byte. -/
def qpCntAfter (cnt : Nat) (c : Byte) : Nat :=
  if c = nl then
    0
  else if qpEscaped c then
    qpCntBefore cnt c + 3
  else
    qpCntBefore cnt c + 1

/- The text written for a byte. -/
def qpEncodeByte (cnt : Nat) (c : Byte) : List Byte :=
  (if qpBreakDue cnt c then [chr '=', nl] else []) ++ qpToken c

/- The text written for an input. -/
def qpEncode (cnt : Nat) (input : List Byte) : List Byte :=
  match input with
  | [] => []
  | c :: rest => qpEncodeByte cnt c ++ qpEncode (qpCntAfter cnt c) rest

/- The count of the line after an input. -/
def qpCnt (cnt : Nat) (input : List Byte) : Nat :=
  input.foldl qpCntAfter cnt

theorem qpEncode_append (cnt : Nat) (input more : List Byte) :
    qpEncode cnt (input ++ more) = qpEncode cnt input ++ qpEncode (qpCnt cnt input) more := by
  induction input generalizing cnt with
  | nil => rfl
  | cons c input ih => simp [qpEncode, qpCnt, ih]

theorem qpSoftBreak_accept (q : QpLocal) (c : Byte) :
    ∃ next, qpSoftBreak (Sink.accept Byte) q c = (0, next) ∧ q.Wrote next
          (if qpBreakDue q.info.inputBufCnt c then
            [chr '=', nl] else [])
          (qpCntBefore q.info.inputBufCnt c) := by
  unfold qpSoftBreak qpCntBefore
  by_cases hDue : qpBreakDue q.info.inputBufCnt c
  · have hCond : q.info.inputBufCnt > 72 ∧ c ≠ nl := by simpa [qpBreakDue] using hDue
    rcases qput_accept q (chr '=') with ⟨first, hFirst, hFirstOut, hFirstCnt⟩
    rcases qput_accept first nl with ⟨second, hSecond, hSecondOut, hSecondCnt⟩
    refine ⟨second.setCnt 0, ?_, ?_, ?_⟩
    · rw [if_pos hCond, hFirst, Rc.andThen_zero, hSecond, Rc.andThen_zero]
    · simp [hDue, hSecondOut, hFirstOut]
    · simp [hDue]
  · have hCond : ¬ (q.info.inputBufCnt > 72 ∧ c ≠ nl) := by simpa [qpBreakDue] using hDue
    refine ⟨q, ?_, ?_, ?_⟩
    · rw [if_neg hCond]
    · simp [hDue]
    · simp [hDue]

/- One byte is encoded into its text. -/
theorem qpByte_accept (q : QpLocal) (c : Byte) : ∃ next, qpByte (Sink.accept Byte) q c = (0, next) ∧
        q.Wrote next (qpEncodeByte q.info.inputBufCnt c) (qpCntAfter q.info.inputBufCnt c) := by
  rcases qpSoftBreak_accept q c with ⟨start, hStart, hStartOut, hStartCnt⟩
  unfold qpByte qpEncodeByte qpToken qpCntAfter
  rw [hStart, Rc.andThen_zero]
  by_cases hLine : c = nl
  · rcases qput_accept (start.setCnt 0) c with ⟨next, hNext, hOut, hCnt⟩
    refine ⟨next, ?_, ?_, ?_⟩
    · simp [hLine] at hNext ⊢
      exact hNext
    · simp [hLine] at hOut hStartOut ⊢
      rw [hOut, hStartOut]
      simp
    · simp [hLine] at hCnt ⊢
      exact hCnt
  · by_cases hEscaped : qpEscaped c
    · rcases qput_accept start (chr '=') with ⟨first, hFirst, hFirstOut, hFirstCnt⟩
      rcases qput_accept first (hexDigit (c.toNat >>> 4 &&& 15)) with
        ⟨second, hSecond, hSecondOut, hSecondCnt⟩
      rcases qput_accept second (hexDigit (c.toNat &&& 15)) with
        ⟨third, hThird, hThirdOut, hThirdCnt⟩
      refine ⟨third.setCnt (third.info.inputBufCnt + 3), ?_, ?_, ?_⟩
      · rw [if_neg hLine, if_pos hEscaped, hFirst, Rc.andThen_zero, hSecond, Rc.andThen_zero,
          hThird, Rc.andThen_zero]
      · simp [hLine, hEscaped, hThirdOut, hSecondOut, hFirstOut, hStartOut]
      · simp [hLine, hEscaped, hThirdCnt, hSecondCnt, hFirstCnt, hStartCnt]
    · rcases qput_accept (start.setCnt (start.info.inputBufCnt + 1)) c with
        ⟨next, hNext, hOut, hCnt⟩
      refine ⟨next, ?_, ?_, ?_⟩
      · rw [if_neg hLine, if_neg hEscaped, hNext]
      · simp [hLine, hEscaped, hOut, hStartOut]
      · simp [hLine, hEscaped, hCnt, hStartCnt]

theorem qpLoop_accept (q : QpLocal) (p : List Byte) :
    ∃ next, qpLoop (Sink.accept Byte) q p = (0, next) ∧
        q.Wrote next (qpEncode q.info.inputBufCnt p) (qpCnt q.info.inputBufCnt p) := by
  induction p generalizing q with
  | nil => exact ⟨q, rfl, by simp [qpEncode], rfl⟩
  | cons c p ih =>
    rcases qpByte_accept q c with ⟨first, hFirst, hFirstOut, hFirstCnt⟩
    rcases ih first with ⟨next, hNext, hOut, hCnt⟩
    refine ⟨next, ?_, ?_, ?_⟩
    · rw [qpLoop, hFirst, Rc.andThen_zero, hNext]
    · rw [hOut, hFirstOut, hFirstCnt]
      simp [qpEncode]
    · rw [hCnt, hFirstCnt]
      rfl

/- The encoder has written the text of its whole input. -/
structure QpWritten (input : List Byte) (info : EncodeInfo) : Prop where
  output : info.output = qpEncode 0 input
  cnt : info.inputBufCnt = qpCnt 0 input

/- The last buffer is passed on at the end. -/
theorem sent_flatten_encodeEnd (info : EncodeInfo) : ((if info.outputBuffer ≠ [] then
        info.callback (Sink.accept Byte)
      else
        (0, info) : Rc EncodeInfo)).2.sent.flatten =
      info.output := by
  split
  · simp [EncodeInfo.callback, EncodeInfo.output]
  · next hEmpty =>
      simp [EncodeInfo.output, not_not.mp hEmpty]

theorem qpEncoder_realizes : (encoder .quotedPrintable).Realizes
      (fun _ => True) QpWritten (qpEncode 0) where
  dom_prefix := by
    intro input piece hDom
    trivial
  init := ⟨rfl, rfl⟩
  feed := by
    intro input info piece _hDom hRel
    rcases qpLoop_accept { info, localBuf := [] } piece with ⟨q, hLoop, hOut, hCnt⟩
    rcases eflush_accept q.info q.localBuf with ⟨next, hNext, hOutput, hBuffer, hNextCnt⟩
    have hWhole : q.output = qpEncode 0 (input ++ piece) := by
      rw [qpEncode_append, hOut, ← hRel.cnt, ← hRel.output]
      simp [QpLocal.output]
    have hCount : q.info.inputBufCnt = qpCnt 0 (input ++ piece) := by
      rw [hCnt, hRel.cnt]
      simp [qpCnt]
    simp only [encoder, encode, EncodingFunc.apply, quotedPrintable, hLoop, ne_eq,
      not_true_eq_false, if_false]
    split
    · rw [hNext]
      exact ⟨hOutput.trans hWhole, hNextCnt.trans hCount⟩
    · next hEmpty =>
        have hNone : q.localBuf = [] := by simpa using hEmpty
        simp only [QpLocal.output, hNone, List.append_nil] at hWhole
        exact ⟨hWhole, hCount⟩
  finish := by
    intro input info _hDom hRel
    simp only [encoder, encodeEnd, EncodingFunc.apply, quotedPrintable, Rc.andThen_zero]
    rw [sent_flatten_encodeEnd, hRel.output]

/- An encoding run writes the text of its whole input. -/
theorem qpEncoder_run (pieces : List (List Byte)) : (encoder .quotedPrintable).run pieces =
      qpEncode 0 pieces.flatten :=
  qpEncoder_realizes.run_eq pieces trivial

theorem nl_not_mem_qpToken : ∀ c : Byte, c ≠ nl → nl ∉ qpToken c := by
  apply byte_forall
  decide +kernel

theorem qpToken_length (cnt : Nat) {c : Byte} (hLine : c ≠ nl) :
    qpCntBefore cnt c + (qpToken c).length = qpCntAfter cnt c := by
  unfold qpToken qpCntAfter
  by_cases hEscaped : qpEscaped c
  · simp [hLine, hEscaped]
  · simp [hLine, hEscaped]

/- The count of the line stays below the limit. -/
theorem qpCntBefore_le (cnt : Nat) {c : Byte} (hLine : c ≠ nl) : qpCntBefore cnt c ≤ 72 := by
  unfold qpCntBefore qpBreakDue
  split
  · omega
  · next hDue =>
      simp [hLine] at hDue
      omega

/- Every line of the output has at most 76 bytes. -/
theorem qpEncode_linesFit (input : List Byte) (cnt : Nat) (hCnt : cnt ≤ 75) :
    linesFit 76 cnt (qpEncode cnt input) := by
  induction input generalizing cnt with
  | nil =>
    unfold qpEncode linesFit
    omega
  | cons c input ih =>
    unfold qpEncode qpEncodeByte
    by_cases hLine : c = nl
    · subst c
      have hRest := ih 0 (by omega)
      have hAfter : qpCntAfter cnt nl = 0 := by simp [qpCntAfter]
      simp only [qpBreakDue, qpToken, ne_eq, not_true_eq_false, decide_false, Bool.and_false,
        Bool.false_eq_true, if_false, false_and, List.nil_append, List.singleton_append, hAfter]
      exact (linesFit_nl _ _ _).mpr ⟨by omega, hRest⟩
    · have hBefore := qpCntBefore_le cnt hLine
      have hToken := nl_not_mem_qpToken c hLine
      have hLength := qpToken_length cnt hLine
      have hShort : (qpToken c).length ≤ 3 := by
        unfold qpToken
        split <;> simp
      have hRest := ih (qpCntAfter cnt c) (by omega)
      rw [← hLength] at hRest
      rw [List.append_assoc, ← hLength]
      have hFit :=
        (linesFit_line 76 (qpCntBefore cnt c) (qpToken c)
          _ hToken).mpr hRest
      unfold qpCntBefore at hFit ⊢
      split
      · next hDue =>
          rw [if_pos hDue] at hFit
          have hEq : chr '=' ≠ nl := by decide
          simp only [List.cons_append, List.nil_append]
          rw [linesFit, if_neg hEq, linesFit_nl]
          exact ⟨by omega, by simpa [hDue] using hFit⟩
      · next hDue =>
          rw [if_neg hDue] at hFit
          simpa [hDue] using hFit

------------
-- Base64
------------

/- One group of output characters for every three bytes. -/
theorem base64Groups_length (text : List Byte) : (base64Groups text).length =
      (text.length + 2) / 3 * 4 := by
  induction text using base64Groups.induct with
  | case1 => rfl
  | case2 a => simp [base64Groups]
  | case3 a b => simp [base64Groups]
  | case4 a b c rest ih =>
    simp only [base64Groups, List.length_cons, ih]
    omega

/- The lines written for a list of blocks. -/
def base64Lines (blocks : List (List Byte)) : List Byte :=
  blocks.flatMap (fun block => base64Groups block ++ [nl])

@[simp] theorem base64Lines_append (blocks more : List (List Byte)) :
    base64Lines (blocks ++ more) = base64Lines blocks ++ base64Lines more := by
  simp [base64Lines]

@[simp] theorem base64Lines_singleton (block : List Byte) :
    base64Lines [block] = base64Groups block ++ [nl] := by
  simp [base64Lines]

/-
  The input consists of the blocks whose lines have been
  written, and of the bytes in the input buffer.
-/
def Base64Written (input : List Byte) (info : EncodeInfo) : Prop :=
  info.inputBuffer.length ≤ inputBufferSize ∧ ∃ blocks,
      (∀ block ∈ blocks, block.length ≤ inputBufferSize) ∧
        input = blocks.flatten ++ info.inputBuffer ∧ info.output = base64Lines blocks

/- Flushing writes the line of the buffered block. -/
theorem base64Flush_accept {input : List Byte} {info : EncodeInfo}
    (hRel : Base64Written input info) :
    ∃ next, base64Flush (Sink.accept Byte) info = (0, next) ∧
        next.inputBuffer = [] ∧ Base64Written input next := by
  rcases hRel with ⟨hSize, blocks, hBlocks, hInput, hOutput⟩
  rcases eflush_accept { info with inputBuffer := [] } (base64Groups info.inputBuffer ++ [nl]) with
    ⟨next, hNext, hNextOut, hBuffer, hCnt⟩
  have hEmpty : next.inputBuffer = [] := hBuffer
  refine ⟨next, hNext, hEmpty, by simp [hEmpty], blocks ++ [info.inputBuffer], ?_, ?_, ?_⟩
  · intro block hMem
    rw [List.mem_append, List.mem_singleton] at hMem
    rcases hMem with hMem | rfl
    · exact hBlocks block hMem
    · exact hSize
  · simp [hInput, hEmpty]
  · rw [hNextOut, base64Lines_append, base64Lines_singleton, ← hOutput]
    rfl

theorem base64Loop_accept (buf : List Byte) {input : List Byte} {info : EncodeInfo}
    (hRel : Base64Written input info) :
    ∃ next, base64Loop (Sink.accept Byte) info buf = (0, next) ∧
        Base64Written (input ++ buf) next := by
  induction buf generalizing input info with
  | nil => exact ⟨info, rfl, by simpa using hRel⟩
  | cons c buf ih =>
    have hPush : ∀ room : EncodeInfo, Base64Written input room →
            room.inputBuffer.length < inputBufferSize → Base64Written (input ++ [c])
                { room with
                  inputBuffer :=
                    room.inputBuffer ++ [c] } := by
      rintro room ⟨_, blocks, hBlocks, hInput, hOutput⟩ hRoom
      refine ⟨?_, blocks, hBlocks, ?_, hOutput⟩
      · rw [List.length_append, List.length_singleton]
        omega
      · rw [hInput, List.append_assoc]
    have hSplit : input ++ c :: buf = input ++ [c] ++ buf := by simp
    rw [hSplit]
    unfold base64Loop
    by_cases hFull : info.inputBuffer.length = inputBufferSize
    · rcases base64Flush_accept hRel with ⟨room, hFlush, hEmpty, hRoom⟩
      rw [if_pos hFull, hFlush, Rc.andThen_zero]
      apply ih
      apply hPush room hRoom
      rw [hEmpty]
      decide
    · rw [if_neg hFull, Rc.andThen_zero]
      apply ih
      apply hPush info hRel
      have hSize := hRel.1
      omega

theorem base64Encoder_represents : (encoder .base64).Represents (fun _ => True) Base64Written where
  dom_prefix := by
    intro input piece hDom
    trivial
  init := by
    refine ⟨by simp [encoder], [], by simp, ?_, ?_⟩
    · simp [encoder]
    · rfl
  feed := by
    intro input info piece _hDom hRel
    rcases base64Loop_accept piece hRel with ⟨next, hNext, hWritten⟩
    simpa [encoder, encode, EncodingFunc.apply, base64, hNext] using hWritten

/- An encoding run writes one line for every block. -/
theorem base64Encoder_run (pieces : List (List Byte)) :
    ∃ blocks, (∀ block ∈ blocks, block.length ≤ inputBufferSize) ∧
        blocks.flatten = pieces.flatten ∧ (encoder .base64).run pieces = base64Lines blocks := by
  have hRel := base64Encoder_represents.rel_feedAll pieces trivial
  simp only [Transducer.run]
  revert hRel
  generalize (encoder .base64).feedAll pieces = info
  intro hRel
  have hEnd : ∃ next, base64 (Sink.accept Byte) info none = (0, next) ∧
          next.inputBuffer = [] ∧ Base64Written pieces.flatten next := by
    unfold base64
    by_cases hEmpty : info.inputBuffer = []
    · exact ⟨info, by simp [hEmpty], hEmpty, hRel⟩
    · simp only [ne_eq, hEmpty, not_false_eq_true, if_true]
      exact base64Flush_accept hRel
  rcases hEnd with ⟨next, hNext, hEmpty, _, blocks, hBlocks, hInput, hOutput⟩
  refine ⟨blocks, hBlocks, ?_, ?_⟩
  · simp [hInput, hEmpty]
  · simp only [encoder, encodeEnd, EncodingFunc.apply, hNext, Rc.andThen_zero]
    rw [sent_flatten_encodeEnd, hOutput]

/- Table characters are no line ends and no padding. -/
set_option maxRecDepth 8000 in
theorem base64Char_plain : ∀ i, i < 64 → base64Char i ≠ nl ∧ base64Char i ≠ chr '=' := by
  decide

theorem base64Char_nl {i : Nat} (hIndex : i < 64) : nl ≠ base64Char i :=
  (base64Char_plain i hIndex).1.symm

/- The table index of a byte's upper six bits. -/
theorem base64_index_first (a : Byte) : a.toNat >>> 2 = a.toNat / 4 := by
  simp [Nat.shiftRight_eq_div_pow]

/- The table index across the first two bytes. -/
theorem base64_index_second (a b : Byte) : ((a.toNat &&& 3) <<< 4) ||| (b.toNat >>> 4) =
      a.toNat % 4 * 16 + b.toNat / 16 := by
  have hByte := b.toNat_lt
  have hLow : b.toNat >>> 4 < 2 ^ 4 := by
    rw [Nat.shiftRight_eq_div_pow]
    omega
  rw [← Nat.shiftLeft_add_eq_or_of_lt hLow, Nat.shiftLeft_eq, Nat.shiftRight_eq_div_pow,
    show (3 : Nat) = 2 ^ 2 - 1 by rfl,
    Nat.and_two_pow_sub_one_eq_mod]

/- The table index across the last two bytes. -/
theorem base64_index_third (b c : Byte) : ((b.toNat &&& 15) <<< 2) ||| (c.toNat >>> 6) =
      b.toNat % 16 * 4 + c.toNat / 64 := by
  have hByte := c.toNat_lt
  have hLow : c.toNat >>> 6 < 2 ^ 2 := by
    rw [Nat.shiftRight_eq_div_pow]
    omega
  rw [← Nat.shiftLeft_add_eq_or_of_lt hLow, Nat.shiftLeft_eq, Nat.shiftRight_eq_div_pow,
    show (15 : Nat) = 2 ^ 4 - 1 by rfl,
    Nat.and_two_pow_sub_one_eq_mod]

/- The table index of a byte's lower six bits. -/
theorem base64_index_fourth (c : Byte) : c.toNat &&& 63 = c.toNat % 64 := by
  rw [show (63 : Nat) = 2 ^ 6 - 1 by rfl, Nat.and_two_pow_sub_one_eq_mod]

theorem nl_not_mem_base64Groups (text : List Byte) : nl ∉ base64Groups text := by
  have hByte : ∀ b : Byte, b.toNat < 256 := fun b => b.toNat_lt
  induction text using base64Groups.induct with
  | case1 => simp [base64Groups]
  | case2 a =>
    have ha := hByte a
    simp only [base64Groups, base64_index_first, base64_index_second, List.getD_nil,
      List.mem_cons, List.not_mem_nil, or_false, not_or]
    exact ⟨base64Char_nl (by omega), base64Char_nl (by simp; omega), by decide, by decide⟩
  | case3 a b =>
    have ha := hByte a
    have hb := hByte b
    simp only [base64Groups, base64_index_first, base64_index_second, base64_index_third,
      List.getD_cons_zero, List.getD_cons_succ, List.getD_nil, List.mem_cons, List.not_mem_nil,
      or_false, not_or]
    exact ⟨base64Char_nl (by omega), base64Char_nl (by omega),
      base64Char_nl (by simp; omega), by decide⟩
  | case4 a b c rest ih =>
    have ha := hByte a
    have hb := hByte b
    have hc := hByte c
    simp only [base64Groups, base64_index_first, base64_index_second, base64_index_third,
      base64_index_fourth, List.getD_cons_zero, List.getD_cons_succ, List.mem_cons, not_or]
    exact ⟨base64Char_nl (by omega), base64Char_nl (by omega), base64Char_nl (by omega),
      base64Char_nl (by omega), ih⟩

/- Every line of the output has at most 76 bytes. -/
theorem base64Lines_linesFit (blocks : List (List Byte))
    (hBlocks : ∀ block ∈ blocks, block.length ≤ inputBufferSize) :
    linesFit 76 0 (base64Lines blocks) := by
  induction blocks with
  | nil => simp [base64Lines, linesFit]
  | cons block blocks ih =>
    have hBlock := hBlocks block List.mem_cons_self
    have hRest := ih (fun other hMem => hBlocks other (List.mem_cons_of_mem _ hMem))
    rw [base64Lines, List.flatMap_cons, List.append_assoc,
      linesFit_line _ _ _ _ (nl_not_mem_base64Groups _), base64Groups_length, List.singleton_append,
      linesFit_nl]
    unfold inputBufferSize at hBlock
    exact ⟨by omega, hRest⟩

end Wmail.Rfc2045
