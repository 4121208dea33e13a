import Wmail.Core.Lines
import Wmail.Rfc2045.PartIds
import Wmail.Rfc2045.SinkErrors

/-
  The search for a boundary in the leaves of a message
  (rfc2045tryboundary.c).

  Key theorems include:
    * `tryLeaf_eq_zero_iff`
    * `tryBoundary_eq_zero_iff`
-/

namespace Wmail.Rfc2045

/-
  The variables `boundary_chk_buf` and `boundary_chk_flag`;
  `boundary_chk_val` is the parameter `val`.
-/
structure BoundaryChk where
  buf : List Byte
  flag : Bool
deriving DecidableEq, Repr

section

variable (val : List Byte)

/- `boundary_chk_add`. -/
def boundaryChkAdd (st : BoundaryChk) (p : List Byte) : BoundaryChk :=
  if st.buf.length < val.length + 20 then { st with buf := st.buf ++ p } else st

/- `boundary_chk` at a newline. -/
def boundaryChkLine (st : BoundaryChk) : BoundaryChk where
  buf := []
  flag := st.flag || (val.length + 2 ≤ st.buf.length &&
      ((bytes "--").isPrefixOf st.buf &&
        casePrefix val (st.buf.drop 2)))

/-
  The loop of `boundary_chk`, with the text since the last
  newline that is not in the buffer yet.
-/
def boundaryChkLoop : BoundaryChk → List Byte → List Byte → BoundaryChk
  | st, text, [] => boundaryChkAdd val st text
  | st, text, c :: rest =>
    if c = nl then
      boundaryChkLoop (boundaryChkLine val (boundaryChkAdd val st text)) [] rest
    else
      boundaryChkLoop st (text ++ [c]) rest

/- `boundary_chk`. -/
def boundaryChk (st : BoundaryChk) (p : List Byte) : BoundaryChk :=
  boundaryChkLoop val st [] p

/-
  The check of everything that a decoder passes on, and of
  the partial line at the end.
-/
def boundaryChecker : Transducer Byte BoundaryChk Bool where
  init := { buf := [], flag := false }
  feed := boundaryChk val
  finish st :=
    if st.buf = [] then st.flag else (boundaryChk val st [nl]).flag

end

/- The line begins with `--` and the boundary. -/
def beginsBoundary (val line : List Byte) : Bool :=
  (bytes "--").isPrefixOf line && casePrefix val (line.drop 2)

/- No line of the text does. -/
def NoBoundary (val text : List Byte) : Prop :=
  ∀ line, line ∈ linesOf text → beginsBoundary val line = false

------------
-- Checking Lines
------------

section Check

variable {val : List Byte}

theorem isPrefixOf_append_long {α : Type} [DecidableEq α] {p front : List α}
    (hLong : p.length ≤ front.length) (more : List α) :
    p.isPrefixOf (front ++ more) = p.isPrefixOf front := by
  rw [Bool.eq_iff_iff, List.isPrefixOf_iff_prefix, List.isPrefixOf_iff_prefix]
  constructor
  · intro hPrefix
    exact List.prefix_of_prefix_length_le hPrefix (List.prefix_append front more) hLong
  · intro hPrefix
    exact hPrefix.trans (List.prefix_append front more)

/- The first bytes of a line decide. -/
theorem beginsBoundary_of_prefix {front line : List Byte} (hPrefix : front <+: line)
    (hLong : val.length + 2 ≤ front.length) :
    beginsBoundary val front = beginsBoundary val line := by
  rcases hPrefix with ⟨more, rfl⟩
  have hTwo : 2 ≤ front.length := by omega
  have hVal : (val.map tolower).length ≤ ((front.drop 2).map tolower).length := by
    rw [List.length_map, List.length_map, List.length_drop]
    omega
  have hDashes : (bytes "--").length ≤ front.length := hTwo
  unfold beginsBoundary casePrefix
  rw [List.drop_append_of_le_length hTwo, List.map_append,
    isPrefixOf_append_long hDashes, isPrefixOf_append_long hVal]

theorem length_of_beginsBoundary {line : List Byte}
    (hBegins : beginsBoundary val line = true) : val.length + 2 ≤ line.length := by
  rcases Bool.and_eq_true_iff.mp hBegins with ⟨hDashes, hVal⟩
  have hTwo : 2 ≤ line.length := (List.isPrefixOf_iff_prefix.mp hDashes).length_le
  have hRest := (List.isPrefixOf_iff_prefix.mp hVal).length_le
  rw [List.length_map, List.length_map, List.length_drop] at hRest
  omega

theorem beginsBoundary_nil : beginsBoundary val [] = false :=
  rfl

/-
  The buffer holds the line read so far, or enough of its
  beginning.
-/
def Holds (val line buf : List Byte) : Prop :=
  buf <+: line ∧ (buf = line ∨ val.length + 20 ≤ buf.length)

theorem Holds.nil : Holds val [] [] :=
  ⟨List.prefix_refl [], Or.inl rfl⟩

theorem Holds.add {line : List Byte} {st : BoundaryChk} (hHolds : Holds val line st.buf)
    (text : List Byte) : Holds val (line ++ text) (boundaryChkAdd val st text).buf := by
  unfold boundaryChkAdd
  split
  · rename_i hShort
    rcases hHolds.2 with hSame | hLong
    · rw [← hSame]
      exact ⟨List.prefix_refl _, Or.inl rfl⟩
    · omega
  · rename_i hLong
    exact ⟨hHolds.1.trans (List.prefix_append line text), Or.inr (Nat.le_of_not_lt hLong)⟩

theorem boundaryChkAdd_flag (st : BoundaryChk) (text : List Byte) :
    (boundaryChkAdd val st text).flag = st.flag := by
  unfold boundaryChkAdd
  split
  · rfl
  · rfl

/- At a newline the line is judged. -/
theorem Holds.line {line : List Byte} {st : BoundaryChk} (hHolds : Holds val line st.buf) :
    (boundaryChkLine val st).flag = (st.flag || beginsBoundary val line) := by
  have hJudged : (decide (val.length + 2 ≤ st.buf.length) &&
      beginsBoundary val st.buf) = beginsBoundary val line := by
    rcases hHolds.2 with hSame | hLong
    · rw [hSame]
      cases hBegins : beginsBoundary val line with
      | true =>
        rw [decide_eq_true (length_of_beginsBoundary hBegins)]
        rfl
      | false => exact Bool.and_false _
    · have hEnough : val.length + 2 ≤ st.buf.length := by omega
      rw [decide_eq_true hEnough, beginsBoundary_of_prefix hHolds.1 hEnough]
      rfl
  exact congrArg (st.flag || ·) hJudged

/- The lines of a text so far, and the beginning of the last. -/
def judge (val : List Byte) (r : Bool × List Byte) (c : Byte) : Bool × List Byte :=
  if c = nl then (r.1 || beginsBoundary val r.2, []) else (r.1, r.2 ++ [c])

theorem judge_lines (f : Bool) (line text : List Byte) : ((text.foldl (judge val) (f, line)).1 ||
        beginsBoundary val (text.foldl (judge val) (f, line)).2) =
      (f || (linesFrom line text).any (beginsBoundary val)) := by
  induction text generalizing f line with
  | nil =>
    rw [List.foldl_nil, linesFrom]
    split
    · rename_i hNil
      rw [hNil]
      rfl
    · rw [List.any_cons, List.any_nil, Bool.or_false]
  | cons c rest ih =>
    rw [List.foldl_cons, linesFrom, judge]
    split
    · rw [ih, List.any_cons, Bool.or_assoc]
    · exact ih f (line ++ [c])

/- What the variables say about the text so far. -/
def Judged (val : List Byte) (r : Bool × List Byte) (st : BoundaryChk) : Prop :=
  st.flag = r.1 ∧ Holds val r.2 st.buf

theorem boundaryChkLoop_judged {f : Bool} {line : List Byte} {st : BoundaryChk}
    (hJudged : Judged val (f, line) st) (text rest : List Byte) :
    Judged val (rest.foldl (judge val) (f, line ++ text)) (boundaryChkLoop val st text rest) := by
  induction rest generalizing f line st text with
  | nil => exact ⟨(boundaryChkAdd_flag st text).trans hJudged.1, hJudged.2.add text⟩
  | cons c rest ih =>
    rw [List.foldl_cons, boundaryChkLoop, judge]
    split
    · have hLine : Judged val (f || beginsBoundary val (line ++ text), []) (boundaryChkLine val
            (boundaryChkAdd val st text)) := by
        refine ⟨?_, Holds.nil⟩
        rw [(hJudged.2.add text).line, boundaryChkAdd_flag, hJudged.1]
      exact ih hLine []
    · have hMore := ih hJudged (text ++ [c])
      rw [← List.append_assoc] at hMore
      exact hMore

/- However the text is cut, its lines are judged. -/
theorem boundaryChk_realizes : (boundaryChecker val).Realizes (fun _ => True) (fun text st =>
        Judged val (text.foldl (judge val) (false, [])) st)
      (fun text => (linesOf text).any (beginsBoundary val)) where
  dom_prefix := fun _ _ _ => trivial
  init := ⟨rfl, Holds.nil⟩
  feed := by
    intro input st piece _ hJudged
    rw [List.foldl_append]
    have hStep := boundaryChkLoop_judged hJudged [] piece
    rw [List.append_nil] at hStep
    exact hStep
  finish := by
    intro input st _ hJudged
    have hLines := @judge_lines val false [] input
    rw [Bool.false_or] at hLines
    unfold linesOf
    rw [← hLines]
    show (if st.buf = [] then st.flag
      else (boundaryChk val st [nl]).flag) = _
    split
    · rename_i hEmpty
      have hLine : (input.foldl (judge val) (false, [])).2 = [] := by
        rcases hJudged.2.2 with hSame | hLong
        · exact hSame.symm.trans hEmpty
        · rw [hEmpty] at hLong
          cases hLong
      rw [hJudged.1, hLine, beginsBoundary_nil, Bool.or_false]
    · have hStep := boundaryChkLoop_judged hJudged [] [nl]
      rw [List.append_nil] at hStep
      exact hStep.1

/- The flag stays once it is set. -/
theorem boundaryChkLoop_flag {st : BoundaryChk} (hFlag : st.flag = true)
    (text rest : List Byte) : (boundaryChkLoop val st text rest).flag = true := by
  induction rest generalizing st text with
  | nil => exact (boundaryChkAdd_flag st text).trans hFlag
  | cons c rest ih =>
    rw [boundaryChkLoop]
    split
    · apply ih
      show ((boundaryChkAdd val st text).flag || _) = true
      rw [boundaryChkAdd_flag, hFlag, Bool.true_or]
    · exact ih hFlag _

end Check

/-
  `while (ps < stop)`: read at most `size` bytes of the file
  at a time.  It is false when the file ends too early.
-/
def readChunks (size : Nat) (msg : List Byte) : Nat → Nat → Nat → List (List Byte) × Bool
  | 0, _, _ => ([], true)
  | fuel + 1, ps, stop =>
    if ps < stop then
      let buf := (msg.drop ps).take (min size (stop - ps))
      if buf = [] then
        ([], false)
      else
        let (rest, complete) :=
          readChunks size msg fuel (ps + buf.length) stop
        (buf :: rest, complete)
    else
      ([], true)

/- The loop over the body of a part. -/
def St.readBody (s : St) (size : Nat) (msg : List Byte) (p : Nat) : List (List Byte) × Bool :=
  let part := s.part p
  readChunks size msg (part.endbody - part.startbody) part.startbody part.endbody

/- The body of a part, as far as it is in the file. -/
def St.bodyText (s : St) (msg : List Byte) (p : Nat) : List Byte :=
  (msg.drop (s.part p).startbody).take
    ((s.part p).endbody - (s.part p).startbody)

/- A text is what is read first and what is left. -/
theorem take_cut {α : Type} {text first : List α} {n whole : Nat}
    (hFirst : text.take n = first) (hWhole : n ≤ whole) :
    text.take whole = first ++ (text.drop first.length).take (whole - first.length) := by
  have hLength : first.length = min n text.length := by rw [← hFirst, List.length_take]
  have hSame : text.take first.length = first := by rw [hLength, ← List.take_eq_take_min, hFirst]
  have hLess : first.length ≤ whole := by omega
  rw [← Nat.add_sub_cancel' hLess, List.take_add, hSame, Nat.add_sub_cancel_left]

theorem readChunks_eq {size : Nat} (hSize : 0 < size) (msg : List Byte) {fuel ps stop : Nat}
    (hFuel : stop - ps ≤ fuel) :
    (readChunks size msg fuel ps stop).1.flatten = (msg.drop ps).take (stop - ps) ∧
      ((readChunks size msg fuel ps stop).2 = true ↔ stop ≤ ps ∨ stop ≤ msg.length) := by
  induction fuel generalizing ps with
  | zero =>
    have hEnd : stop ≤ ps := by omega
    rw [Nat.sub_eq_zero_of_le hEnd, List.take_zero]
    exact ⟨rfl, iff_of_true rfl (Or.inl hEnd)⟩
  | succ fuel ih =>
    unfold readChunks
    split
    · rename_i hMore
      simp only []
      split
      · rename_i hNone
        have hBehind : msg.drop ps = [] := by
          rcases List.take_eq_nil_iff.mp hNone with hZero | hNil
          · omega
          · exact hNil
        have hShort := List.drop_eq_nil_iff.mp hBehind
        rw [hBehind, List.take_nil]
        refine ⟨rfl, iff_of_false Bool.false_ne_true ?_⟩
        omega
      · rename_i hSome
        have hPositive : 0 < ((msg.drop ps).take (min size (stop - ps))).length :=
          List.length_pos_iff.mpr hSome
        have hLength : ((msg.drop ps).take (min size (stop - ps))).length =
            min (min size (stop - ps)) (msg.length - ps) := by
          rw [List.length_take, List.length_drop]
        generalize hBuf : (msg.drop ps).take (min size (stop - ps)) = buf at hPositive hLength ⊢
        have hRest := @ih (ps + buf.length) (by omega)
        have hCut : (msg.drop ps).take (stop - ps) =
            buf ++ (msg.drop (ps + buf.length)).take (stop - (ps + buf.length)) := by
          rw [← List.drop_drop, ← Nat.sub_sub]
          exact take_cut hBuf (Nat.min_le_right _ _)
        refine ⟨?_, hRest.2.trans ?_⟩
        · rw [List.flatten_cons, hRest.1, hCut]
        · constructor
          · intro hFits
            right
            omega
          · intro hFits
            omega
    · rename_i hEnd
      rw [Nat.sub_eq_zero_of_le (Nat.le_of_not_lt hEnd), List.take_zero]
      exact ⟨rfl, iff_of_true rfl (Or.inl (Nat.le_of_not_lt hEnd))⟩

theorem readBody_eq {size : Nat} (hSize : 0 < size) (s : St) (msg : List Byte) (p : Nat) :
    (s.readBody size msg p).1.flatten = s.bodyText msg p ∧
      ((s.readBody size msg p).2 = true ↔
        (s.part p).endbody ≤ (s.part p).startbody ∨ (s.part p).endbody ≤ msg.length) :=
  readChunks_eq hSize msg (Nat.le_refl _)

------------
-- Trying A Boundary
------------

/- What the decoder of a part passes on, for a whole body. -/
def St.decoded (s : St) (size : Nat) (msg : List Byte) (p : Nat) : List Byte :=
  (cdecoder (cdecodeStart
    (s.part p).contentTransferEncoding)).run
      (s.readBody size msg p).1

section

variable (val : List Byte)

/- The check of what has been passed on so far. -/
def checked (sent : List (List Byte)) : BoundaryChk :=
  (boundaryChecker val).feedAll sent

/- `rfc2045_cdecode` for each piece, until the flag is set. -/
def scanChunks (func : DecodeFunc) : List (List Byte) → Cdecode → Cdecode
  | [], st => st
  | buf :: rest, st =>
    let st := (cdecode func (Sink.accept Byte) st buf).2
    if (checked val st.sent).flag then st else scanChunks func rest st

/- `try_boundary` for a part without parts in it. -/
def tryLeaf (s : St) (msg : List Byte) (p : Nat) : Int :=
  let part := s.part p
  if part.contentTransferEncoding = some (bytes "base64") then
    0
  else
    let func := cdecodeStart part.contentTransferEncoding
    let (chunks, complete) := s.readBody 512 msg p
    let st := scanChunks val func chunks { workbuf := [], sent := [] }
    if !complete && !(checked val st.sent).flag then
      -1
    else
      let st := (cdecodeEnd func (Sink.accept Byte) st).2
      if (boundaryChecker val).run st.sent then 1 else 0

/- `try_boundary`, at most `depth` levels deep. -/
def tryBoundary (s : St) (msg : List Byte) : Nat → Nat → Int
  | 0, _ => 0
  | depth + 1, p =>
    match s.subparts p with
    | [] => tryLeaf val s msg p
    | parts =>
      parts.foldl (fun rc q => if rc ≠ 0 then rc else tryBoundary s msg depth q)
        0

/- `rfc2045_try_boundary`. -/
def rfc2045TryBoundary (s : St) (p : Nat) (msg : List Byte) : Int :=
  tryBoundary val s msg s.parts.length p

end

/- The parts without parts in them, in their order. -/
def leaves (s : St) : Nat → Nat → List Nat
  | 0, _ => []
  | depth + 1, p =>
    match s.subparts p with
    | [] => [p]
    | parts => parts.flatMap (leaves s depth)

section Leaf

variable {val : List Byte}

/- A decoder adds to what it has passed on. -/
theorem decoder_sent {func : DecodeFunc} (hFunc : func ≠ .base64) (st : Cdecode)
    (pieces : List (List Byte)) : st.sent <+: (pieces.foldl (cdecoder func).feed st).sent := by
  induction pieces generalizing st with
  | nil => exact List.prefix_refl _
  | cons s rest ih =>
    rcases cdecode_reports hFunc (Sink.accept Byte) st s with ⟨more, hSent, _⟩
    have hFirst : st.sent <+: ((cdecoder func).feed st s).sent := ⟨more, hSent.symm⟩
    exact hFirst.trans (ih _)

theorem cdecodeEnd_sent {func : DecodeFunc} (hFunc : func ≠ .base64) (st : Cdecode) :
    st.sent <+: (cdecodeEnd func (Sink.accept Byte) st).2.sent := by
  rcases @decode_reports (Sink.accept Byte) st func hFunc none with ⟨more, hSent, _⟩
  exact ⟨more, hSent.symm⟩

/- The flag stays set over later fragments. -/
theorem checked_flag {sent more : List (List Byte)} (hPrefix : sent <+: more)
    (hFlag : (checked val sent).flag = true) : (checked val more).flag = true := by
  rcases hPrefix with ⟨rest, rfl⟩
  have hStep : checked val (sent ++ rest) = rest.foldl (boundaryChk val) (checked val sent) :=
    List.foldl_append
  rw [hStep]
  clear hStep
  generalize checked val sent = st at hFlag
  induction rest generalizing st with
  | nil => exact hFlag
  | cons p rest ih => exact ih _ (boundaryChkLoop_flag hFlag [] p)

theorem run_of_flag {sent : List (List Byte)} (hFlag : (checked val sent).flag = true) :
    (boundaryChecker val).run sent = true := by
  show (if (checked val sent).buf = [] then
      (checked val sent).flag
    else
      (boundaryChk val (checked val sent) [nl]).flag) = true
  split
  · exact hFlag
  · exact boundaryChkLoop_flag hFlag [] [nl]

/-
  The loop ends early with the flag set, or it feeds all
  pieces.
-/
theorem scanChunks_spec {func : DecodeFunc} (hFunc : func ≠ .base64)
    (chunks : List (List Byte)) (st : Cdecode) :
    (scanChunks val func chunks st).sent <+: (chunks.foldl (cdecoder func).feed st).sent ∧
      ((checked val (scanChunks val func chunks st).sent).flag = true ∨
        scanChunks val func chunks st = chunks.foldl (cdecoder func).feed st) := by
  induction chunks generalizing st with
  | nil => exact ⟨List.prefix_refl _, Or.inr rfl⟩
  | cons buf rest ih =>
    unfold scanChunks
    simp only []
    split
    · rename_i hFlag
      exact ⟨decoder_sent hFunc _ rest, Or.inl hFlag⟩
    · exact ih _

/- All that a decoder passes on is judged line by line. -/
theorem checker_run (sent : List (List Byte)) : (boundaryChecker val).run sent =
      (linesOf sent.flatten).any (beginsBoundary val) :=
  boundaryChk_realizes.run_eq sent trivial

theorem noBoundary_iff (text : List Byte) :
    NoBoundary val text ↔ (linesOf text).any (beginsBoundary val) = false := by
  rw [List.any_eq_false]
  constructor
  · intro hNone line hMem
    rw [hNone line hMem]
    exact Bool.false_ne_true
  · intro hNone line hMem
    exact eq_false_of_ne_true (hNone line hMem)

theorem cdecodeStart_base64 {encoding : CString} :
    cdecodeStart encoding = .base64 ↔ encoding = some (bytes "base64") := by
  unfold cdecodeStart
  cases encoding with
  | none => exact iff_of_false nofun nofun
  | some te =>
    have hQp : bytes "quoted-printable" ≠ bytes "base64" := by decide
    simp only [Option.some.injEq]
    split
    · rename_i hSame
      refine iff_of_false nofun ?_
      rw [hSame]
      exact hQp
    · split
      · rename_i hBase
        exact iff_of_true rfl hBase
      · rename_i hBase
        exact iff_of_false nofun hBase

/-
  A leaf is passed when it is base64, or in the file and
  without boundary lines in its decoded text.
-/
theorem tryLeaf_eq_zero_iff (s : St) (msg : List Byte) (p : Nat) :
    tryLeaf val s msg p = 0 ↔ (s.part p).contentTransferEncoding = some (bytes "base64") ∨
        ((s.readBody 512 msg p).2 = true ∧ NoBoundary val (s.decoded 512 msg p)) := by
  unfold tryLeaf
  simp only []
  split
  · rename_i hBase
    exact iff_of_true rfl (Or.inl hBase)
  · rename_i hOther
    rw [or_iff_right hOther]
    have hFunc : cdecodeStart (s.part p).contentTransferEncoding ≠ .base64 :=
      fun hBase => hOther (cdecodeStart_base64.mp hBase)
    generalize hStart : cdecodeStart (s.part p).contentTransferEncoding = func at hFunc
    have hDecoded : s.decoded 512 msg p = (cdecoder func).run (s.readBody 512 msg p).1 := by
      rw [← hStart]
      rfl
    rw [hDecoded]
    generalize s.readBody 512 msg p = body
    rcases body with ⟨chunks, complete⟩
    simp only []
    have hWhole : (cdecoder func).run chunks = (cdecodeEnd func (Sink.accept Byte)
          (chunks.foldl (cdecoder func).feed { workbuf := [], sent := [] })).2.sent.flatten :=
      rfl
    have hSpec := @scanChunks_spec val func hFunc chunks { workbuf := [], sent := [] }
    generalize hScan : scanChunks val func chunks { workbuf := [], sent := [] } = st at hSpec ⊢
    rw [noBoundary_iff, hWhole, ← checker_run]
    cases hFlag : (checked val st.sent).flag with
    | true =>
      -- the rest of the body does not clear the flag
      have hEnd := run_of_flag (checked_flag (cdecodeEnd_sent hFunc st) hFlag)
      have hAll := run_of_flag (checked_flag (hSpec.1.trans (cdecodeEnd_sent hFunc _)) hFlag)
      rw [Bool.not_true, Bool.and_false, if_neg Bool.false_ne_true, if_pos hEnd, hAll]
      exact iff_of_false (by decide) nofun
    | false =>
      have hSame := hSpec.2.resolve_left (hFlag ▸ Bool.false_ne_true)
      rw [← hSame]
      cases complete with
      | false =>
        have hFailed : (-1 : Int) ≠ 0 := by decide
        exact iff_of_false hFailed nofun
      | true =>
        cases hEnd : (boundaryChecker val).run (cdecodeEnd func (Sink.accept Byte) st).2.sent with
        | true => exact iff_of_false (by decide) nofun
        | false => exact iff_of_true rfl ⟨rfl, rfl⟩

/- The first error of the parts inside a part is returned. -/
theorem foldl_rc_eq_zero_iff (f : Nat → Int) (parts : List Nat) (rc : Int) :
    parts.foldl (fun rc q => if rc ≠ 0 then rc else f q) rc = 0 ↔
      rc = 0 ∧ ∀ q, q ∈ parts → f q = 0 := by
  induction parts generalizing rc with
  | nil => simp
  | cons q rest ih =>
    rw [List.foldl_cons, ih]
    by_cases hZero : rc = 0
    · simp [hZero]
    · simp [hZero]

/- A boundary is accepted when every leaf is passed. -/
theorem tryBoundary_eq_zero_iff (s : St) (msg : List Byte) (depth p : Nat) :
    tryBoundary val s msg depth p = 0 ↔ ∀ q, q ∈ leaves s depth p → tryLeaf val s msg q = 0 := by
  induction depth generalizing p with
  | zero => exact iff_of_true rfl nofun
  | succ depth ih =>
    unfold tryBoundary leaves
    split
    · simp only [List.mem_singleton, forall_eq]
    · rw [foldl_rc_eq_zero_iff]
      simp only [true_and, ih, List.mem_flatMap]
      constructor
      · rintro hAll q ⟨child, hChild, hLeaf⟩
        exact hAll child hChild q hLeaf
      · intro hAll child hChild q hLeaf
        exact hAll q ⟨child, hChild, hLeaf⟩

end Leaf

end Wmail.Rfc2045
