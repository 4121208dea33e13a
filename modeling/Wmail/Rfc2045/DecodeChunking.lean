import Wmail.Core.Runs
import Wmail.Rfc2045.QpStream

/-
  Cutting the input of a decoder.

  The base64 decoder keeps every character it has not used,
  so the cuts between its calls do not matter.  The
  quoted-printable decoder forgets a malformed escape, and
  loses what follows a NUL, when its buffer fills up; on
  every other input the cuts do not matter either.

  Key theorems include:
    * `qp_realizes`
    * `cdecode_chunking`
-/

namespace Wmail.Rfc2045

/- Groups never straddle a multiple of four characters. -/
theorem decode64Groups_append (text more : List Byte) :
    decode64Groups (text ++ more) = decode64Groups text ++
        decode64Groups (decode64Rest text ++ more) := by
  induction text using decode64Groups.induct with
  | case1 c d e f rest ih => simp [decode64Groups, decode64Rest, ih]
  | case2 text hShort =>
    have hRest : decode64Rest text = text := by
      unfold decode64Rest
      split
      · exact (hShort _ _ _ _ _ rfl).elim
      · rfl
    have hNone : decode64Groups text = [] := by
      unfold decode64Groups
      split
      · exact (hShort _ _ _ _ _ rfl).elim
      · rfl
    rw [hRest, hNone, List.nil_append]

/- The characters kept for the next group are unchanged. -/
theorem decode64Rest_suffix (text : List Byte) : decode64Rest text <:+ text := by
  induction text using decode64Rest.induct with
  | case1 c d e f rest ih =>
    rw [decode64Rest]
    exact ih.trans ⟨[c, d, e, f], by simp⟩
  | case2 text hShort =>
    unfold decode64Rest
    split
    · exact (hShort _ _ _ _ _ rfl).elim
    · exact List.suffix_rfl

theorem filter_decode64Rest (text : List Byte) :
    (decode64Rest (text.filter isBase64)).filter isBase64 =
      decode64Rest (text.filter isBase64) := by
  apply List.filter_eq_self.mpr
  intro c hMem
  have hIn := (decode64Rest_suffix _).subset hMem
  exact (List.mem_filter.mp hIn).2

/- The base64 text of a body, decoded. -/
def base64Stream (input : List Byte) : List Byte :=
  decode64Groups (input.filter isBase64)

/-
  The fragments passed on, followed by what the buffer and
  the rest of the input still give, are the decoded input.
-/
def Base64Rel (input : List Byte) (p : Cdecode) : Prop :=
  ∀ more, p.output ++ base64Stream (p.workbuf ++ more) = base64Stream (input ++ more)

variable {input : List Byte} {p : Cdecode}

/- Emptying the buffer keeps the relation. -/
theorem doDecodeBase64_rel (hRel : Base64Rel input p) :
    Base64Rel input (doDecodeBase64 (Sink.accept Byte) p).2 := by
  intro more
  rw [← hRel more]
  simp only [doDecodeBase64, Cdecode.udecode, Cdecode.output, base64Stream, List.flatten_append,
    List.filter_append, List.append_assoc]
  rw [decode64Groups_append (p.workbuf.filter isBase64), filter_decode64Rest]
  simp

theorem base64_realizes : (cdecoder .base64).Realizes (fun _ => True) Base64Rel base64Stream where
  dom_prefix := by
    intro input piece hDom
    trivial
  init := by
    intro more
    rfl
  feed := by
    intro input p piece _hDom hRel
    have hAdd : Base64Rel (input ++ piece) (p.addWorkbuf piece) := by
      intro more
      have hMore := hRel (piece ++ more)
      simpa [Cdecode.addWorkbuf, Cdecode.output] using hMore
    simp only [cdecoder, cdecode]
    split
    · next hEmpty =>
        simpa [hEmpty] using hRel
    · simp only [DecodeFunc.decode, decodeBase64]
      split
      · exact doDecodeBase64_rel hAdd
      · exact hAdd
  finish := by
    intro input p _hDom hRel
    have hNone := hRel []
    simp only [List.append_nil] at hNone
    rw [← hNone]
    simp [cdecoder, cdecodeEnd, DecodeFunc.decode, decodeBase64, doDecodeBase64, Cdecode.udecode,
      Cdecode.output, base64Stream]

------------
-- Quoted-Printable
------------

theorem keptFront_append_heldBack (workbuf : List Byte) :
    keptFront workbuf ++ heldBack workbuf = workbuf := by
  have hSuffix : heldBack workbuf <:+ workbuf :=
    (List.dropWhile_suffix _).trans (List.drop_suffix _ _)
  rcases hSuffix with ⟨front, hFront⟩
  have hKept : keptFront workbuf = front := by
    unfold keptFront
    have hLength := congrArg List.length hFront
    rw [List.length_append] at hLength
    rw [show workbuf.length - (heldBack workbuf).length = front.length by omega]
    rw [← hFront]
    simp
  rw [hKept, hFront]

variable {workbuf : List Byte}

/- The fragment kept back begins with `=`. -/
theorem heldBack_eq (hSome : heldBack workbuf ≠ []) :
    ∃ more, heldBack workbuf = chr '=' :: more := by
  rcases dropWhile_separator (chr '=') (workbuf.drop (workbuf.length - 5)) with hNone | hMore
  · exact (hSome hNone).elim
  · exact hMore

/- Nothing is kept back when the last bytes have no `=`. -/
theorem heldBack_nil (hNone : heldBack workbuf = []) :
    chr '=' ∉ workbuf.drop (workbuf.length - 2) := by
  intro hMem
  have hAll := List.dropWhile_eq_nil_iff.mp hNone
  have hSub : workbuf.drop (workbuf.length - 2) <:+ workbuf.drop (workbuf.length - 5) := by
    rw [show workbuf.length - 2 = (workbuf.length - 5) +
        (workbuf.length - 2 - (workbuf.length - 5)) by
      omega, ← List.drop_drop]
    exact List.drop_suffix _ _
  have hEq := hAll _ (hSub.subset hMem)
  simp at hEq

theorem heldBack_length (workbuf : List Byte) : (heldBack workbuf).length ≤ 5 := by
  have hDrop :=
    (List.dropWhile_suffix
      (l := workbuf.drop (workbuf.length - 5))
      (· ≠ chr '=')).length_le
  simp only [List.length_drop] at hDrop
  unfold heldBack
  omega

/- Only the end of a long buffer is looked at. -/
theorem heldBack_append (front workbuf : List Byte) (hLong : 5 ≤ workbuf.length) :
    heldBack (front ++ workbuf) = heldBack workbuf := by
  unfold heldBack
  rw [List.length_append,
    show front.length + workbuf.length - 5 = front.length + (workbuf.length - 5) by omega,
    List.drop_length_add_append]

theorem keptFront_append (front workbuf : List Byte) (hLong : 5 ≤ workbuf.length) :
    keptFront (front ++ workbuf) = front ++ keptFront workbuf := by
  have hWhole := keptFront_append_heldBack (front ++ workbuf)
  rw [heldBack_append _ _ hLong] at hWhole
  have hPart := keptFront_append_heldBack workbuf
  have hSame : keptFront (front ++ workbuf) ++ heldBack workbuf =
        (front ++ keptFront workbuf) ++ heldBack workbuf := by
    rw [hWhole, List.append_assoc, hPart]
  exact List.append_cancel_right hSame

/-
  Cutting anywhere is harmless.  In every line, take the
  first bytes `front`, more than 1024 of them: scanning them
  up to the fragment that is kept back meets no malformed
  escape, and that fragment has no NUL.
-/
def QpCutSafe (input : List Byte) : Prop :=
  ∀ before front after, input = before ++ front ++ after →
      (before = [] ∨ before.getLast? = some nl) →
        nl ∉ front → 1024 < front.length →
            qpState .text (keptFront front) ≠ .dead ∧ 0 ∉ heldBack front

theorem QpCutSafe.of_length_le (hShort : input.length ≤ 1024) : QpCutSafe input := by
  intro before front after hInput _hStart _hLine hLong
  have hLength := congrArg List.length hInput
  rw [List.length_append, List.length_append] at hLength
  omega

theorem QpCutSafe.prefix {input piece : List Byte} (hSafe : QpCutSafe (input ++ piece)) :
    QpCutSafe input := by
  intro before front after hInput hStart hLine hLong
  apply hSafe before front (after ++ piece) _ hStart hLine hLong
  rw [hInput]
  simp

/-
  The scan may start afresh at the buffer: no escape is
  pending, or the buffer begins with a new one.
-/
def QpAligned (state : QpState) (workbuf : List Byte) : Prop :=
  state = .text ∨ (state ≠ .dead ∧ ∃ more, workbuf = chr '=' :: more)

theorem QpAligned.qpStream_eq {state : QpState} (hAligned : QpAligned state workbuf)
    (more : List Byte) : qpStream state (workbuf ++ more) = qpStream .text (workbuf ++ more) := by
  rcases hAligned with rfl | ⟨hLive, rest, rfl⟩
  · rfl
  · exact qpStream_resume hLive (rest ++ more)

theorem QpAligned.qpState_eq {state : QpState} {workbuf front held : List Byte}
    (hAligned : QpAligned state workbuf) (hSplit : front ++ held = workbuf)
    (hFront : front ≠ []) : qpState state front = qpState .text front := by
  rcases hAligned with rfl | ⟨hLive, rest, rfl⟩
  · rfl
  · cases front with
    | nil => exact (hFront rfl).elim
    | cons c front =>
      have hHead : c = chr '=' := by simpa using congrArg List.head? hSplit
      rw [hHead]
      exact qpState_resume hLive front

/-
  `done` are the complete lines read so far, and the current
  line consists of the bytes already scanned and the buffer.
-/
structure QpRel (input : List Byte) (p : Cdecode) : Prop where
  lines : ∃ done scanned, input = done ++ (scanned ++ p.workbuf) ∧
        (done = [] ∨ done.getLast? = some nl) ∧
          nl ∉ scanned ++ p.workbuf ∧ QpAligned (qpState .text scanned) p.workbuf
  output_eq : ∀ more, p.output ++ qpStream .text (p.workbuf ++ more) =
        qpStream .text (input ++ more)

/- A byte of a line goes into the buffer. -/
theorem QpRel.addWorkbuf (hRel : QpRel input p) {c : Byte} (hLine : c ≠ nl) :
    QpRel (input ++ [c]) (p.addWorkbuf [c]) := by
  rcases hRel.lines with ⟨done, scanned, hInput, hStart, hFree, hAligned⟩
  refine ⟨⟨done, scanned, ?_, hStart, ?_, ?_⟩, ?_⟩
  · simp [Cdecode.addWorkbuf, hInput]
  · simp only [Cdecode.addWorkbuf, ← List.append_assoc]
    rw [List.mem_append, List.mem_singleton]
    rintro (hMem | hMem)
    · exact hFree hMem
    · exact hLine hMem.symm
  · rcases hAligned with hText | ⟨hLive, rest, hRest⟩
    · exact Or.inl hText
    · exact Or.inr ⟨hLive, rest ++ [c], by
          simp [Cdecode.addWorkbuf, hRest]⟩
  · intro more
    have hMore := hRel.output_eq ([c] ++ more)
    simpa [Cdecode.addWorkbuf, Cdecode.output] using hMore

/- A newline completes a line, which is then decoded. -/
theorem QpRel.newline (hRel : QpRel input p) :
    QpRel (input ++ [nl]) (doDecodeQp (Sink.accept Byte) (p.addWorkbuf [nl])).2 := by
  rcases hRel.lines with ⟨done, scanned, hInput, hStart, hFree, hAligned⟩
  have hBuffer : nl ∉ p.workbuf := by
    intro hMem
    exact hFree (List.mem_append_right _ hMem)
  refine ⟨⟨input ++ [nl], [], ?_, ?_, ?_, ?_⟩, ?_⟩
  · simp [doDecodeQp]
  · simp
  · simp [doDecodeQp]
  · exact Or.inl rfl
  · intro more
    have hMore := hRel.output_eq ([nl] ++ more)
    rw [List.singleton_append, qpStream_line _ _ hBuffer] at hMore
    simpa [doDecodeQp, Cdecode.udecode, Cdecode.output, Cdecode.addWorkbuf] using hMore

/- A full buffer is decoded up to the fragment kept back. -/
theorem QpRel.full (hRel : QpRel input p) (hSafe : QpCutSafe input) :
    QpRel input (decodeQpFull (Sink.accept Byte) p).2 := by
  unfold decodeQpFull
  split
  case isFalse hShort =>
    exact hRel
  case isTrue hLong =>
    rcases hRel.lines with ⟨done, scanned, hInput, hStart, hFree, hAligned⟩
    have hSplit := keptFront_append_heldBack p.workbuf
    have hHeldLength := heldBack_length p.workbuf
    have hKeptSome : keptFront p.workbuf ≠ [] := by
      intro hNone
      have hLengths := congrArg List.length hSplit
      rw [List.length_append, hNone] at hLengths
      simp at hLengths
      omega
    have hLineSafe :=
      hSafe done (scanned ++ p.workbuf) [] (by simpa using hInput) hStart hFree (by
          rw [List.length_append]
          omega)
    rw [keptFront_append _ _ (by omega), heldBack_append _ _ (by omega)] at hLineSafe
    rcases hLineSafe with ⟨hLive, hNul⟩
    have hTake : (heldBack p.workbuf).takeWhile (· ≠ 0) = heldBack p.workbuf := by
      apply List.takeWhile_eq_self_iff.mpr
      intro c hMem
      simp only [ne_eq, decide_not, Bool.not_eq_eq_eq_not, Bool.not_true, decide_eq_false_iff_not]
      rintro rfl
      exact hNul hMem
    have hScan : qpState .text (scanned ++ keptFront p.workbuf) =
          qpState .text (keptFront p.workbuf) := by
      rw [qpState_append]
      exact hAligned.qpState_eq hSplit hKeptSome
    have hResume : QpAligned (qpState .text (scanned ++ keptFront p.workbuf))
          (heldBack p.workbuf) := by
      by_cases hNone : heldBack p.workbuf = []
      · have hAll : keptFront p.workbuf = p.workbuf := by simpa [hNone] using hSplit
        left
        rw [hScan] at hLive ⊢
        rw [hAll] at hLive ⊢
        exact (qpState_settled _ (by omega) (heldBack_nil hNone)).resolve_right hLive
      · exact Or.inr ⟨hLive, heldBack_eq hNone⟩
    have hFreeKept : nl ∉ keptFront p.workbuf := by
      intro hMem
      apply hFree
      rw [← hSplit]
      simp [hMem]
    simp only [doDecodeQp, Cdecode.udecode, Sink.accept, Rc.andThen_zero, Cdecode.addWorkbuf,
      List.nil_append, hTake]
    refine ⟨⟨done, scanned ++ keptFront p.workbuf, ?_, hStart, ?_, hResume⟩, ?_⟩
    · simpa [hSplit] using hInput
    · simpa [hSplit] using hFree
    · intro more
      rw [← hRel.output_eq more]
      simp only [Cdecode.output, List.flatten_append, List.flatten_singleton, List.append_assoc]
      congr 1
      conv_rhs =>
        rw [← hSplit, List.append_assoc, qpStream_append _ _ _ hFreeKept, ← hScan,
          hResume.qpStream_eq, ← qpScan_eq_qpRun]

/- One call of `decode_qp` reads its whole argument. -/
theorem decodeQpLoop_rel (s : List Byte) {start : List Byte}
    (hRel : QpRel input (p.addWorkbuf start)) (hSafe : QpCutSafe (input ++ s)) :
    QpRel (input ++ s) (decodeQpLoop (Sink.accept Byte) p start s).2 := by
  induction s generalizing input p start with
  | nil =>
    unfold decodeQpLoop
    rw [List.append_nil] at hSafe ⊢
    split
    · next hEmpty =>
        simpa [hEmpty, Cdecode.addWorkbuf] using hRel
    · exact hRel.full hSafe
  | cons c s ih =>
    have hWhole : input ++ c :: s = input ++ [c] ++ s := by simp
    rw [hWhole] at hSafe ⊢
    unfold decodeQpLoop
    by_cases hLine : c = nl
    · subst c
      have hNext := hRel.newline
      have hFull := hNext.full hSafe.prefix
      simp only [ne_eq, not_true_eq_false, if_false]
      rw [show ∀ p, doDecodeQp (Sink.accept Byte) p = (0, (doDecodeQp (Sink.accept Byte) p).2) from
          fun _ => rfl, Rc.andThen_zero]
      have hEmpty : (decodeQpFull (Sink.accept Byte) (doDecodeQp (Sink.accept Byte)
              ((p.addWorkbuf start).addWorkbuf [nl])).2).1 = 0 := by
        simp [decodeQpFull, doDecodeQp]
      unfold Rc.andThen
      rw [if_neg (by simpa using hEmpty)]
      apply ih _ hSafe
      simpa [Cdecode.addWorkbuf] using hFull
    · simp only [ne_eq, hLine, not_false_eq_true, if_true]
      apply ih _ hSafe
      have hAdd := hRel.addWorkbuf hLine
      simpa [Cdecode.addWorkbuf] using hAdd

theorem qp_realizes : (cdecoder .quotedPrintable).Realizes QpCutSafe QpRel (qpStream .text) where
  dom_prefix := by
    intro input piece hSafe
    exact hSafe.prefix
  init := by
    refine ⟨⟨[], [], ?_, ?_, ?_, ?_⟩, ?_⟩
    · rfl
    · exact Or.inl rfl
    · simp [cdecoder]
    · exact Or.inl rfl
    · intro more
      rfl
  feed := by
    intro input p piece hSafe hRel
    simp only [cdecoder, cdecode]
    split
    · next hEmpty =>
        simpa [hEmpty] using hRel
    · apply decodeQpLoop_rel _ _ hSafe
      simpa [Cdecode.addWorkbuf] using hRel
  finish := by
    intro input p _hSafe hRel
    rcases hRel.lines with ⟨done, scanned, hInput, hStart, hFree, hAligned⟩
    have hBuffer : nl ∉ p.workbuf := by
      intro hMem
      exact hFree (List.mem_append_right _ hMem)
    have hNone := hRel.output_eq []
    rw [List.append_nil, List.append_nil, qpStream_last _ hBuffer] at hNone
    rw [← hNone]
    simp [cdecoder, cdecodeEnd, DecodeFunc.decode, decodeQp,
      doDecodeQp, Cdecode.udecode, Cdecode.output]

------------
-- Unsafe Cuts
------------

/- One call of `decode_qp` decodes all its complete lines. -/
theorem decodeQpLoop_lines (s start : List Byte) (p : Cdecode) (hEmpty : p.workbuf = [])
    (hStart : nl ∉ start) (hLines : start ++ s = [] ∨ (start ++ s).getLast? = some nl) :
    ∃ q : Cdecode, q.workbuf = [] ∧ q.output = p.output ++ qpStream .text (start ++ s) ∧
          ∀ tail, decodeQpLoop (Sink.accept Byte) p start (s ++ tail) =
              decodeQpLoop (Sink.accept Byte) q [] tail := by
  induction s generalizing start p with
  | nil =>
    rw [List.append_nil] at hLines
    rcases hLines with rfl | hLast
    · exact ⟨p, hEmpty, by simp, fun tail => rfl⟩
    · exact (hStart (List.mem_of_getLast? hLast)).elim
  | cons c s ih =>
    by_cases hLine : c = nl
    · subst c
      let line : Cdecode :=
        (doDecodeQp (Sink.accept Byte) ((p.addWorkbuf start).addWorkbuf [nl])).2
      have hRest : [] ++ s = [] ∨ ([] ++ s).getLast? = some nl := by
        cases s with
        | nil => exact Or.inl rfl
        | cons d s =>
          right
          rcases hLines with hNone | hLast
          · simp at hNone
          · rw [show start ++ nl :: d :: s = (start ++ [nl]) ++ (d :: s) by simp,
              List.getLast?_append_of_ne_nil _ (List.cons_ne_nil _ _)] at hLast
            exact hLast
      rcases ih [] line rfl (by simp) hRest with ⟨q, hq, hOutput, hTail⟩
      refine ⟨q, hq, ?_, ?_⟩
      · rw [hOutput, qpStream_line _ _ hStart]
        simp [line, doDecodeQp, Cdecode.udecode, Cdecode.output, Cdecode.addWorkbuf, hEmpty]
      · intro tail
        rw [← hTail tail]
        simp [decodeQpLoop, doDecodeQp, Cdecode.udecode, decodeQpFull, Sink.accept, line]
    · have hNext : nl ∉ start ++ [c] := by
        rw [List.mem_append, List.mem_singleton]
        rintro (hMem | hMem)
        · exact hStart hMem
        · exact hLine hMem.symm
      rcases ih (start ++ [c]) p hEmpty hNext (by simpa using hLines) with ⟨q, hq, hOutput, hTail⟩
      refine ⟨q, hq, by simpa using hOutput, ?_⟩
      intro tail
      rw [← hTail tail]
      simp [decodeQpLoop, hLine]

/- A piece of a line only goes into the buffer. -/
theorem decodeQpLoop_piece (s start : List Byte) (p : Cdecode) (hLine : nl ∉ s)
    (hSome : start ++ s ≠ []) :
    decodeQpLoop (Sink.accept Byte) p start s =
      decodeQpFull (Sink.accept Byte) (p.addWorkbuf (start ++ s)) := by
  induction s generalizing start with
  | nil =>
    rw [List.append_nil] at hSome ⊢
    simp [decodeQpLoop, hSome]
  | cons c s ih =>
    have hParts : nl ≠ c ∧ nl ∉ s := by simpa using hLine
    have hNext := ih (start ++ [c]) hParts.2 (by simp)
    simpa [decodeQpLoop, hParts.1.symm] using hNext

/-
  The state after one call with complete lines and a long
  piece of the next line.
-/
theorem cdecoder_qp_long (before front : List Byte)
    (hStart : before = [] ∨ before.getLast? = some nl) (hLine : nl ∉ front)
    (hLong : 1024 < front.length) :
    ∃ q : Cdecode, (cdecoder .quotedPrintable).feedAll [before ++ front] = q ∧
        q.workbuf = (heldBack front).takeWhile (· ≠ 0) ∧ q.output =
            qpStream .text before ++ qpScan (keptFront front) := by
  let p : Cdecode := { workbuf := [], sent := [] }
  have hSome : front ≠ [] := by
    rintro rfl
    simp at hLong
  rcases decodeQpLoop_lines before [] p rfl (by simp) (by simpa using hStart) with
    ⟨q, hEmpty, hOutput, hTail⟩
  refine ⟨_, rfl, ?_, ?_⟩ <;>
    simp only [Transducer.feedAll, List.foldl_cons, List.foldl_nil, cdecoder, cdecode,
      List.append_eq_nil_iff, hSome, and_false, if_false, DecodeFunc.decode, decodeQp] <;>
    rw [hTail front, decodeQpLoop_piece _ _ _ hLine (by simpa using hSome)]
  · simp [decodeQpFull, Cdecode.addWorkbuf, hEmpty, hLong, doDecodeQp, Cdecode.udecode, Sink.accept]
  · simp only [decodeQpFull, Cdecode.addWorkbuf, hEmpty, hLong, List.nil_append, if_true,
      doDecodeQp, Cdecode.udecode, Sink.accept, Rc.andThen_zero, Cdecode.output,
      List.flatten_append, List.flatten_singleton]
    rw [show q.sent.flatten = q.output from rfl, hOutput]
    simp [p, Cdecode.output]

/- One call with complete lines decodes them as a stream. -/
theorem cdecoder_qp_lines (input : List Byte) (hLines : input = [] ∨ input.getLast? = some nl) :
    (cdecoder .quotedPrintable).run [input] = qpStream .text input := by
  by_cases hNone : input = []
  · subst input
    rfl
  · let p : Cdecode := { workbuf := [], sent := [] }
    rcases decodeQpLoop_lines input [] p rfl (by simp) (by simpa using hLines) with
      ⟨q, hEmpty, hOutput, hTail⟩
    have hCall := hTail []
    rw [List.append_nil] at hCall
    simp only [Cdecode.output] at hOutput
    simp only [Transducer.run, Transducer.feedAll, List.foldl_cons, List.foldl_nil, cdecoder,
      cdecode, hNone, if_false, cdecodeEnd, DecodeFunc.decode, decodeQp]
    rw [hCall]
    simp [decodeQpLoop, doDecodeQp, Cdecode.udecode, Cdecode.output, hEmpty, hOutput, p]

/- All ways of cutting the input give the same output. -/
def CutsAgree (func : DecodeFunc) (input : List Byte) : Prop :=
  ∀ pieces others, pieces.flatten = input → others.flatten = input → (cdecoder func).run pieces =
          (cdecoder func).run others

theorem run_append_singleton (func : DecodeFunc) (first second : List Byte) :
    (cdecoder func).run [first, second] =
      (cdecoder func).finish
        ((cdecoder func).feed ((cdecoder func).feedAll [first]) second) :=
  rfl

/- Text that is dropped or not, depending on the cuts. -/
theorem cuts_disagree_of_dead (before front : List Byte)
    (hStart : before = [] ∨ before.getLast? = some nl) (hLine : nl ∉ front)
    (hLong : 1024 < front.length) (hDead : qpState .text front = .dead) :
    ∃ more, ¬ CutsAgree .quotedPrintable (before ++ front ++ more) := by
  let fill : List Byte := List.replicate 5 (chr 'G')
  have hFillEq : chr '=' ∉ fill := by decide
  have hFillNl : nl ∉ fill ++ [chr 'G'] := by decide
  have hNone : ∀ text : List Byte, (∀ c ∈ text.drop (text.length - 5), c = chr 'G') →
          heldBack text = [] := by
    intro text hTail
    apply List.dropWhile_eq_nil_iff.mpr
    intro c hMem
    rw [hTail c hMem]
    decide
  have hFirstNone : heldBack (front ++ fill) = [] := by
    apply hNone
    rw [show (front ++ fill).length - 5 = front.length by
      simp [fill], List.drop_left]
    intro c hMem
    exact (List.mem_replicate.mp hMem).2
  have hSecondNone : heldBack (front ++ (fill ++ [chr 'G'])) = [] := by
    apply hNone
    rw [show front ++ (fill ++ [chr 'G']) = (front ++ [chr 'G']) ++ fill by simp [fill],
      show ((front ++ [chr 'G']) ++ fill).length - 5 = (front ++ [chr 'G']).length by simp [fill],
      List.drop_left]
    intro c hMem
    exact (List.mem_replicate.mp hMem).2
  have hKept : ∀ text, heldBack text = [] → keptFront text = text := by
    intro text hText
    simpa [hText] using keptFront_append_heldBack text
  have hScan : ∀ more, qpScan (front ++ more) = qpScan front := by
    intro more
    simp [qpScan_eq_qpRun, qpRun_append, hDead]
  rcases cdecoder_qp_long before (front ++ fill) hStart (by
        rw [List.mem_append]
        rintro (hMem | hMem)
        · exact hLine hMem
        · exact hFillNl (List.mem_append_left _ hMem))
      (by
        rw [List.length_append]
        omega) with
    ⟨p, hp, hpWork, hpOut⟩
  rcases cdecoder_qp_long before (front ++ (fill ++ [chr 'G'])) hStart (by
        rw [List.mem_append]
        rintro (hMem | hMem)
        · exact hLine hMem
        · exact hFillNl hMem)
      (by
        rw [List.length_append]
        omega) with
    ⟨q, hq, hqWork, hqOut⟩
  rw [hFirstNone, List.takeWhile_nil] at hpWork
  rw [hSecondNone, List.takeWhile_nil] at hqWork
  rw [hKept _ hFirstNone, hScan] at hpOut
  rw [hKept _ hSecondNone, hScan] at hqOut
  refine ⟨fill ++ [chr 'G'], ?_⟩
  intro hAgree
  have hRuns :=
    hAgree [before ++ (front ++ fill), [chr 'G']]
      [before ++ (front ++ (fill ++ [chr 'G']))]
      (by simp) (by simp)
  rw [run_append_singleton, hp, Transducer.run, hq] at hRuns
  have hNotNl : chr 'G' ≠ nl := by decide
  have hNotEq : chr 'G' ≠ chr '=' := by decide
  simp only [Cdecode.output] at hpOut hqOut
  simp [cdecoder, cdecode, cdecodeEnd, DecodeFunc.decode, decodeQp, decodeQpLoop, decodeQpFull,
    doDecodeQp, Cdecode.udecode, Cdecode.addWorkbuf, Cdecode.output, hpWork, hqWork, hpOut, hqOut,
    hNotNl, hNotEq, qpScan] at hRuns

/- A NUL that is lost or not, depending on the cuts. -/
theorem cuts_disagree_of_nul (before front : List Byte)
    (hStart : before = [] ∨ before.getLast? = some nl) (hLine : nl ∉ front)
    (hLong : 1024 < front.length) (hLive : qpState .text front ≠ .dead)
    (hNul : 0 ∈ heldBack front) :
    ∃ more, ¬ CutsAgree .quotedPrintable (before ++ front ++ more) := by
  rcases List.eq_append_cons_of_mem hNul with ⟨short, rest, hHeld, hShort⟩
  have hSplit := keptFront_append_heldBack front
  have hKeptLive : qpState .text (keptFront front) ≠ .dead := by
    intro hDead
    apply hLive
    rw [← hSplit, qpState_append, hDead, qpState_dead]
  have hResume : QpAligned (qpState .text (keptFront front)) (heldBack front) :=
    Or.inr ⟨hKeptLive, heldBack_eq (List.ne_nil_of_mem hNul)⟩
  have hShortText : qpState .text short = .text := by
    have hWhole : qpState .text front = qpState (qpStep (qpState .text short) 0).1 rest := by
      conv_lhs =>
        rw [← hSplit, qpState_append, hResume.qpState_eq (List.append_nil _)
            (List.ne_nil_of_mem hNul),
          hHeld, qpState_append]
      rfl
    cases hState : qpState .text short with
    | text => rfl
    | escape =>
      rw [hWhole, hState] at hLive
      simp [qpStep] at hLive
    | digit high =>
      rw [hWhole, hState] at hLive
      simp [qpStep] at hLive
    | dead =>
      rw [hWhole, hState] at hLive
      simp [qpStep] at hLive
  have hTake : (heldBack front).takeWhile (· ≠ 0) = short := by
    rw [hHeld, List.takeWhile_append_of_pos]
    · simp
    · intro c hMem
      simp only [ne_eq, decide_not, Bool.not_eq_eq_eq_not, Bool.not_true, decide_eq_false_iff_not]
      rintro rfl
      exact hShort hMem
  have hNotNl : chr 'G' ≠ nl := by decide
  have hNotEq : chr 'G' ≠ chr '=' := by decide
  have hNulEq : (0 : Byte) ≠ chr '=' := by decide
  have hNulG : (0 : Byte) ≠ chr 'G' := by decide
  refine ⟨[chr 'G', nl], ?_⟩
  intro hAgree
  have hRuns :=
    hAgree [before ++ front, [chr 'G', nl]]
      [before ++ front ++ [chr 'G', nl]]
      (by simp) (by simp)
  rcases cdecoder_qp_long before front hStart hLine hLong with ⟨p, hp, hpWork, hpOut⟩
  have hCutRun : (cdecoder .quotedPrintable).run [before ++ front, [chr 'G', nl]] =
        qpStream .text before ++ (qpRun .text (keptFront front) ++
            (qpRun .text short ++ [chr 'G', nl])) := by
    rw [hTake] at hpWork
    simp only [Cdecode.output] at hpOut
    rw [run_append_singleton, hp]
    simp [cdecoder, cdecode, cdecodeEnd, DecodeFunc.decode, decodeQp, decodeQpLoop, decodeQpFull,
      doDecodeQp, Cdecode.udecode, Cdecode.addWorkbuf, Cdecode.output, Sink.accept, hpWork, hpOut,
      hNotNl, qpScan_eq_qpRun, qpRun_append, hShortText]
    simp [qpRun, qpStep, qpTextStep, hNotEq, show nl ≠ chr '=' by decide]
  have hLineRun : (cdecoder .quotedPrintable).run [before ++ front ++ [chr 'G', nl]] =
        qpStream .text before ++ (qpRun .text (keptFront front) ++ (qpRun .text short ++
              0 :: qpStream .text (rest ++ [chr 'G', nl]))) := by
    have hKeptLine : nl ∉ keptFront front := by
      intro hMem
      apply hLine
      rw [← hSplit]
      exact List.mem_append_left _ hMem
    have hShortLine : nl ∉ short := by
      intro hMem
      apply hLine
      rw [← hSplit, hHeld]
      simp [hMem]
    rw [cdecoder_qp_lines _ (by simp), List.append_assoc, qpStream_lines _ _ hStart]
    congr 1
    conv_lhs =>
      rw [← hSplit, List.append_assoc, qpStream_append _ _ _ hKeptLine, hResume.qpStream_eq, hHeld,
        List.append_assoc, qpStream_append _ _ _ hShortLine, hShortText]
    simp [qpStream, qpStep, qpTextStep, hNulEq]
  rw [hCutRun, hLineRun] at hRuns
  have hTails := List.append_cancel_left (List.append_cancel_left (List.append_cancel_left hRuns))
  exact hNulG (List.head_eq_of_cons_eq hTails).symm

/-
  The cuts between the calls never matter for base64, and
  for quoted-printable they do not matter when every cut is
  safe.  A body with an unsafe cut has a beginning that some
  continuation turns into a body where the cuts do matter.
-/
theorem cdecode_chunking (input : List Byte) :
    CutsAgree .base64 input ∧ (QpCutSafe input → CutsAgree .quotedPrintable input) ∧
      (¬ QpCutSafe input →
        ∃ front more, front <+: input ∧ ¬ CutsAgree .quotedPrintable (front ++ more)) := by
  refine ⟨?_, ?_, ?_⟩
  · intro pieces others hPieces hOthers
    exact base64_realizes.run_congr (hPieces.trans hOthers.symm) trivial
  · intro hSafe pieces others hPieces hOthers
    exact qp_realizes.run_congr (hPieces.trans hOthers.symm) (hPieces ▸ hSafe)
  · intro hUnsafe
    unfold QpCutSafe at hUnsafe
    push Not at hUnsafe
    rcases hUnsafe with ⟨before, front, after, hInput, hStart, hLine, hLong, hFault⟩
    have hFront : before ++ front <+: input := ⟨after, hInput.symm⟩
    by_cases hDead : qpState .text front = .dead
    · rcases cuts_disagree_of_dead before front hStart hLine hLong hDead with ⟨more, hMore⟩
      exact ⟨before ++ front, more, hFront, hMore⟩
    · have hNul : 0 ∈ heldBack front := by
        apply hFault
        intro hKept
        apply hDead
        rw [← keptFront_append_heldBack front, qpState_append, hKept, qpState_dead]
      rcases cuts_disagree_of_nul before front hStart hLine hLong hDead hNul with ⟨more, hMore⟩
      exact ⟨before ++ front, more, hFront, hMore⟩

/- A body of two bytes and an escape, cut in the escape. -/
theorem cdecode_chunking_escape : (cdecoder .quotedPrintable).run
        [bytes "a=", bytes "41"] =
      (cdecoder .quotedPrintable).run [bytes "a=41"] := by
  have hSafe : QpCutSafe (bytes "a=41") := by
    intro before front after hInput _hStart _hLine hLong
    have hLength := congrArg List.length hInput
    simp only [List.length_append] at hLength
    rw [show (bytes "a=41").length = 4 by decide] at hLength
    omega
  exact (cdecode_chunking (bytes "a=41")).2.1 hSafe
    [bytes "a=", bytes "41"] [bytes "a=41"]
    (by decide) (by decide)

/- A long line that begins with a malformed escape. -/
def longBadEscape : List Byte :=
  bytes "= " ++ List.replicate 1100 (chr 'G')

/-
  One call drops the whole line, two calls only the part of
  it that is in the buffer when the buffer is full.
-/
set_option maxRecDepth 8000 in
theorem cdecode_qp_cuts_disagree : ¬ CutsAgree .quotedPrintable (longBadEscape ++ [chr 'G']) := by
  intro hAgree
  have hRuns :=
    hAgree [longBadEscape, [chr 'G']]
      [longBadEscape ++ [chr 'G']] (by simp) (by simp)
  revert hRuns
  decide

end Wmail.Rfc2045
