import Wmail.Rfc2045.AcCheck
import Wmail.Rfc2045.TransferRoundTrip
import Wmail.Rfc2045.TryBoundary

/-
  The bodies that the rewriter writes (rfc2045rewrite.c), and
  what a boundary that has been tried says about them.

  The header lines and the text between the parts are left
  out: what is written for a body does not depend on them.

  Key theorems include:
    * `dorw_eq`
    * `tried_safe_iff`
    * `rewritten_carries`
-/

namespace Wmail.Rfc2045

/- A byte as `qpe_do` writes it. -/
def qpeByte (c : Byte) : List Byte :=
  if c < 32 ∨ 127 ≤ c ∨ c = chr '=' then
    [chr '=', xdigit.getD (c.toNat / 16) 0, xdigit.getD (c.toNat % 16) 0]
  else
    [c]

/-
  `qpe_do`: the text that is written, and the new value of
  `qpe_pos`.
-/
def qpeDo : Nat → List Byte → List Byte × Nat
  | pos, [] => ([], pos)
  | pos, c :: rest =>
    if c = nl then
      let (text, pos) := qpeDo 0 rest
      (nl :: text, pos)
    else if 72 ≤ pos then
      let (text, pos) := qpeDo (qpeByte c).length rest
      (bytes "=\n" ++ (qpeByte c ++ text), pos)
    else
      let (text, pos) := qpeDo (pos + (qpeByte c).length) rest
      (qpeByte c ++ text, pos)

/- The calls of `qpe_do`, after `qpe_start`. -/
def qpeAll (sent : List (List Byte)) : List Byte × Nat :=
  sent.foldl (fun written fragment =>
      let (text, pos) := qpeDo written.2 fragment
      (written.1 ++ text, pos))
    ([], 0)

/- `BUFSIZ`. -/
def bufsiz : Nat :=
  8192

/- The values of `convmode`. -/
inductive Convmode where
  /- the body is copied -/
  | copy
  /- `RFC2045_RW_7BIT`: decoded, then quoted-printable -/
  | bit7
  /- `RFC2045_RW_8BIT`: decoded -/
  | bit8
deriving DecidableEq, Repr

/- `convmode`, for the `rw_transfer_encoding` of a part. -/
def convmode (rwTransferEncoding : CString) : Convmode :=
  match rwTransferEncoding with
  | none => .copy
  | some te =>
    if te.map tolower = bytes "quoted-printable" then .bit7 else .bit8

/- `dorw` for the body of a part without parts in it. -/
def writeBody (s : St) (msg : List Byte) (p : Nat) : Option (List Byte) :=
  let part := s.part p
  let decoder :=
    cdecoder (cdecodeStart part.contentTransferEncoding)
  let (chunks, complete) := s.readBody bufsiz msg p
  if complete then
    match convmode part.rwTransferEncoding with
    | .copy => some chunks.flatten
    | .bit7 =>
      let st := decoder.feedAll chunks
      let st := (cdecodeEnd (cdecodeStart part.contentTransferEncoding) (Sink.accept Byte) st).2
      some (qpeAll st.sent).1
    | .bit8 => some (decoder.run chunks)
  else
    none

/-
  A part of a multipart/signed that is not the last one is
  not touched.
-/
def St.untouchable (s : St) (parent : Option Nat) (p : Nat) : Bool :=
  match parent with
  | none => false
  | some q =>
    (s.part q).contentType.map (·.map tolower) = some (bytes "multipart/signed") &&
      (s.part q).lastpart ≠ some p

/-
  `dorw`, at most `depth` levels deep: the parts without
  parts in them and what is written as their bodies, or none
  after an error.  With `top` the `parent` of the part is
  null, as it is for the content of a message/rfc822.
-/
def dorw (s : St) (msg : List Byte) : Nat → Bool → Nat → Option (List (Nat × List Byte))
  | 0, _, _ => some []
  | depth + 1, top, p =>
    let part := s.part p
    let parent := if top then none else part.parent
    if s.untouchable parent p then
      -- all of the part is copied, with the bodies in it
      let (_, complete) := readChunks bufsiz msg (part.endbody - part.startpos) part.startpos
        part.endbody
      if complete then
        some ((leaves s (depth + 1) p).map fun q => (q, s.bodyText msg q))
      else
        none
    else
      match s.subparts p with
      | [] => (writeBody s msg p).map fun text => [(p, text)]
      | [q] => dorw s msg depth true q
      | parts =>
        parts.foldl (fun written q =>
            if (s.part q).isdummy then
              written
            else
              match written, dorw s msg depth false q with
              | some before, some text => some (before ++ text)
              | _, _ => none)
          (some [])

/- `dorw` for the part that `rfc2045_rewrite` is given. -/
def rewrittenBodies (s : St) (msg : List Byte) (p : Nat) : Option (List (Nat × List Byte)) :=
  dorw s msg s.parts.length false p

/-
  The lines of a text in quoted-printable, when `line` has
  been written of the first one: a line is broken where more
  than 72 columns would be needed.
-/
def softLines (line : List Byte) : List Byte → List (List Byte)
  | [] => if line = [] then [] else [line]
  | c :: rest =>
    if c = nl then
      line :: softLines [] rest
    else if 72 ≤ line.length then
      (line ++ [chr '=']) :: softLines (qpeByte c) rest
    else
      softLines (line ++ qpeByte c) rest

theorem nl_not_mem_qpeByte {c : Byte} (hOther : c ≠ nl) : nl ∉ qpeByte c := by
  revert c
  apply byte_forall
  decide +kernel

/- The encoder writes these lines. -/
theorem linesFrom_qpeDo {line : List Byte} (hLine : nl ∉ line) (text : List Byte) :
    linesFrom line (qpeDo line.length text).1 = softLines line text := by
  induction text generalizing line with
  | nil => rfl
  | cons c rest ih =>
    unfold qpeDo softLines
    split
    · rw [linesFrom, if_pos rfl]
      exact congrArg (line :: ·) (ih List.not_mem_nil)
    · rename_i hOther
      have hByte := nl_not_mem_qpeByte hOther
      split
      · have hSoft : bytes "=\n" = [chr '=', nl] := by decide
        have hEqual : chr '=' ≠ nl := by decide
        simp only [hSoft, List.cons_append, List.nil_append]
        rw [linesFrom, if_neg hEqual, linesFrom, if_pos rfl,
          linesFrom_line [] hByte, List.nil_append, ih hByte]
      · have hMore : nl ∉ line ++ qpeByte c := by
          rw [List.mem_append, not_or]
          exact ⟨hLine, hByte⟩
        simp only []
        rw [linesFrom_line line hByte, ← List.length_append, ih hMore]

theorem linesOf_qpeDo (text : List Byte) : linesOf (qpeDo 0 text).1 = softLines [] text :=
  linesFrom_qpeDo List.not_mem_nil text

theorem qpeDo_append (pos : Nat) (text more : List Byte) :
    qpeDo pos (text ++ more) = ((qpeDo pos text).1 ++ (qpeDo (qpeDo pos text).2 more).1,
        (qpeDo (qpeDo pos text).2 more).2) := by
  induction text generalizing pos with
  | nil => rfl
  | cons c rest ih =>
    simp only [List.cons_append, qpeDo]
    by_cases hNewline : c = nl
    · simp only [hNewline, if_true, ih, List.cons_append]
    · by_cases hFull : 72 ≤ pos
      · simp only [hNewline, hFull, if_false, if_true, ih, List.append_assoc]
      · simp only [hNewline, hFull, if_false, ih, List.append_assoc]

/- The cuts between the fragments do not matter. -/
theorem qpeAll_eq (sent : List (List Byte)) : qpeAll sent = qpeDo 0 sent.flatten := by
  induction sent using List.reverseRecOn with
  | nil => rfl
  | append_singleton sent fragment ih =>
    have hStep : qpeAll (sent ++ [fragment]) =
        ((qpeAll sent).1 ++ (qpeDo (qpeAll sent).2 fragment).1,
          (qpeDo (qpeAll sent).2 fragment).2) := by
      unfold qpeAll
      rw [List.foldl_append]
      rfl
    rw [hStep, ih, List.flatten_append, qpeDo_append, List.flatten_singleton]

/- The parts whose bodies are written, and how. -/
def writtenAs (s : St) : Nat → Bool → Nat → List (Nat × Convmode)
  | 0, _, _ => []
  | depth + 1, top, p =>
    let parent := if top then none else (s.part p).parent
    if s.untouchable parent p then
      (leaves s (depth + 1) p).map fun q => (q, .copy)
    else
      match s.subparts p with
      | [] => [(p, convmode (s.part p).rwTransferEncoding)]
      | [q] => writtenAs s depth true q
      | parts =>
        (parts.filter fun q => !(s.part q).isdummy).flatMap
          (writtenAs s depth false)

/- What is written for a body. -/
def St.written (s : St) (msg : List Byte) (w : Nat × Convmode) : List Byte :=
  match w.2 with
  | .copy => s.bodyText msg w.1
  | .bit7 => (qpeDo 0 (s.decoded bufsiz msg w.1)).1
  | .bit8 => s.decoded bufsiz msg w.1

section Written

variable {s : St} {msg : List Byte}

theorem readBody_complete (hHeld : ∀ q, (s.part q).endbody ≤ msg.length) {size : Nat}
    (hSize : 0 < size) (p : Nat) : (s.readBody size msg p).2 = true :=
  (readBody_eq hSize s msg p).2.mpr (Or.inr (hHeld p))

theorem writeBody_eq (hHeld : ∀ q, (s.part q).endbody ≤ msg.length) (p : Nat) :
    writeBody s msg p = some (s.written msg (p, convmode (s.part p).rwTransferEncoding)) := by
  have hSize : 0 < bufsiz := by decide
  have hComplete := readBody_complete hHeld hSize p
  have hBody := (readBody_eq hSize s msg p).1
  unfold writeBody St.written
  simp only []
  rw [if_pos hComplete]
  cases convmode (s.part p).rwTransferEncoding with
  | copy => exact congrArg some hBody
  | bit7 =>
    simp only []
    rw [qpeAll_eq]
    rfl
  | bit8 => rfl

/- The parts in a part one after the other. -/
theorem foldl_parts {f : Nat → Option (List (Nat × List Byte))}
    {g : Nat → List (Nat × List Byte)} (hParts : ∀ q, f q = some (g q)) (dummy : Nat → Bool)
    (parts : List Nat) (before : List (Nat × List Byte)) :
    parts.foldl (fun written q =>
          if dummy q then
            written
          else
            match written, f q with
            | some before, some text => some (before ++ text)
            | _, _ => none)
        (some before) =
      some (before ++ (parts.filter fun q => !dummy q).flatMap g) := by
  have hSame : f = fun q => some (g q) := funext hParts
  subst hSame
  induction parts generalizing before with
  | nil => exact congrArg some (List.append_nil before).symm
  | cons q rest ih =>
    rw [List.foldl_cons, List.filter_cons]
    cases hDummy : dummy q with
    | true => exact ih before
    | false =>
      simp only [Bool.false_eq_true, if_false, Bool.not_false, if_true]
      rw [ih, List.flatMap_cons, List.append_assoc]

/- Where the file holds the message, all bodies are written. -/
theorem dorw_eq (hHeld : ∀ q, (s.part q).endbody ≤ msg.length) (depth : Nat) (top : Bool)
    (p : Nat) :
    dorw s msg depth top p = some ((writtenAs s depth top p).map fun w =>
        (w.1, s.written msg w)) := by
  induction depth generalizing top p with
  | zero => rfl
  | succ depth ih =>
    unfold dorw writtenAs
    simp only []
    generalize (if top then none else (s.part p).parent) = parent
    split
    · have hSize : 0 < bufsiz := by decide
      have hComplete : (readChunks bufsiz msg ((s.part p).endbody - (s.part p).startpos)
          (s.part p).startpos (s.part p).endbody).2 = true :=
        (readChunks_eq hSize msg (Nat.le_refl _)).2.mpr (Or.inr (hHeld p))
      rw [if_pos hComplete, List.map_map]
      rfl
    · split
      · rw [writeBody_eq hHeld]
        rfl
      · exact ih true _
      · rw [foldl_parts (ih false) (fun q => (s.part q).isdummy)]
        rw [List.nil_append, List.map_flatMap]

theorem leaf_of_written {depth : Nat} {top : Bool} {p : Nat} {w : Nat × Convmode}
    (hWritten : w ∈ writtenAs s depth top p) : w.1 ∈ leaves s depth p := by
  induction depth generalizing top p with
  | zero => cases hWritten
  | succ depth ih =>
    unfold writtenAs at hWritten
    simp only [] at hWritten
    generalize (if top then none else (s.part p).parent) = parent at hWritten
    split at hWritten
    · rcases List.mem_map.mp hWritten with ⟨q, hLeaf, rfl⟩
      exact hLeaf
    · unfold leaves
      split at hWritten
      · rename_i hNone
        rw [hNone, List.mem_singleton.mp hWritten]
        exact List.mem_singleton_self p
      · rename_i q hOne
        rw [hOne]
        exact List.mem_flatMap.mpr ⟨q, List.mem_singleton_self q, ih hWritten⟩
      · rcases List.mem_flatMap.mp hWritten with ⟨q, hChild, hInside⟩
        have hMem := (List.mem_filter.mp hChild).1
        split
        · rename_i hNone
          rw [hNone] at hMem
          cases hMem
        · exact List.mem_flatMap.mpr ⟨q, hMem, ih hInside⟩

end Written

/- The decoder for unencoded text passes everything on. -/
theorem raw_realizes : (cdecoder .raw).Realizes (fun _ => True) (fun input st => st.output = input)
      (fun input => input) where
  dom_prefix := fun _ _ _ => trivial
  init := rfl
  feed := by
    intro input st piece _ hOutput
    show (cdecode .raw (Sink.accept Byte) st piece).2.output = input ++ piece
    by_cases hEmpty : piece = []
    · rw [show cdecode .raw (Sink.accept Byte) st piece =
        (0, st) from if_pos hEmpty, hEmpty, List.append_nil]
      exact hOutput
    · have hStep : cdecode .raw (Sink.accept Byte) st piece = st.udecode (Sink.accept Byte) piece :=
        (if_neg hEmpty).trans (if_neg hEmpty)
      rw [hStep, ← hOutput]
      show (st.sent ++ [piece]).flatten = _
      rw [List.flatten_append, List.flatten_singleton]
      rfl
  finish := by
    intro input st _ hOutput
    exact hOutput

/-
  Once the boundary is accepted, no body is written with a
  line that begins with it.
-/
def TriedSafe (val : List Byte) (s : St) (msg : List Byte) (p : Nat) : Prop :=
  rfc2045TryBoundary val s p msg = 0 → ∀ bodies, rewrittenBodies s msg p = some bodies →
      ∀ b, b ∈ bodies → NoBoundary val b.2

/-
  The bodies that are not written as they are searched: what
  is copied in an encoding, what cannot be searched or is not
  decoded in the same way, and what is encoded again.
-/
def Unharmed (val : List Byte) (s : St) (msg : List Byte) (w : Nat × Convmode) : Prop :=
  let func :=
    cdecodeStart (s.part w.1).contentTransferEncoding
  match w.2 with
  | .copy => func = .raw ∨ NoBoundary val (s.bodyText msg w.1)
  | .bit8 =>
    func = .raw ∨ (func = .quotedPrintable ∧ QpCutSafe (s.bodyText msg w.1)) ∨
        NoBoundary val (s.decoded bufsiz msg w.1)
  | .bit7 =>
    ∀ line, line ∈ softLines [] (s.decoded bufsiz msg w.1) → beginsBoundary val line = false

section Safe

variable {val : List Byte} {s : St} {msg : List Byte}

/- Unencoded text is searched as it is. -/
theorem decoded_raw {size : Nat} (hSize : 0 < size) {p : Nat}
    (hRaw : cdecodeStart (s.part p).contentTransferEncoding =
      .raw) : s.decoded size msg p = s.bodyText msg p := by
  unfold St.decoded
  rw [hRaw, raw_realizes.run_eq _ trivial]
  exact (readBody_eq hSize s msg p).1

/- Where cuts are safe, the size of the reads is no matter. -/
theorem decoded_quotedPrintable {size : Nat} (hSize : 0 < size) {p : Nat}
    (hQp : cdecodeStart (s.part p).contentTransferEncoding =
      .quotedPrintable) (hSafe : QpCutSafe (s.bodyText msg p)) :
    s.decoded size msg p = qpStream .text (s.bodyText msg p) := by
  have hBody := (readBody_eq hSize s msg p).1
  unfold St.decoded
  rw [hQp, ← hBody]
  rw [← hBody] at hSafe
  exact qp_realizes.run_eq _ hSafe

/- What is searched in vain is written without harm. -/
theorem noBoundary_written {w : Nat × Convmode}
    (hSearched : (s.part w.1).contentTransferEncoding = some (bytes "base64") ∨
      NoBoundary val (s.decoded 512 msg w.1)) (hUnharmed : Unharmed val s msg w) :
    NoBoundary val (s.written msg w) := by
  have hSize : 0 < bufsiz := by decide
  have hTried : 0 < 512 := by decide
  have hRawSafe : cdecodeStart (s.part w.1).contentTransferEncoding = .raw →
        NoBoundary val (s.bodyText msg w.1) := by
    intro hRaw
    rw [← decoded_raw hTried hRaw]
    apply hSearched.resolve_left
    intro hBase
    rw [cdecodeStart_base64.mpr hBase] at hRaw
    cases hRaw
  rcases w with ⟨q, mode⟩
  cases mode with
  | copy =>
    rcases hUnharmed with hRaw | hClean
    · exact hRawSafe hRaw
    · exact hClean
  | bit8 =>
    rcases hUnharmed with hRaw | ⟨hQp, hSafe⟩ | hClean
    · show NoBoundary val (s.decoded bufsiz msg q)
      rw [decoded_raw hSize hRaw]
      exact hRawSafe hRaw
    · show NoBoundary val (s.decoded bufsiz msg q)
      rw [decoded_quotedPrintable hSize hQp hSafe, ← decoded_quotedPrintable hTried hQp hSafe]
      apply hSearched.resolve_left
      intro hBase
      have hOther : DecodeFunc.base64 = .quotedPrintable :=
        (cdecodeStart_base64.mpr hBase).symm.trans hQp
      cases hOther
    · exact hClean
  | bit7 =>
    intro line hMem
    apply hUnharmed line
    rw [← linesOf_qpeDo]
    exact hMem

theorem unharmed_of_written {w : Nat × Convmode}
    (hNone : NoBoundary val (s.written msg w)) : Unharmed val s msg w := by
  rcases w with ⟨q, mode⟩
  cases mode with
  | copy => exact Or.inr hNone
  | bit8 => exact Or.inr (Or.inr hNone)
  | bit7 =>
    intro line hMem
    apply hNone line
    exact (linesOf_qpeDo _).symm ▸ hMem

/-
  When the file holds the message, a boundary that is tried
  is safe exactly if it is rejected, or the bodies that are
  not written as they are searched are harmless.
-/
theorem tried_safe_of_held (val : List Byte) (s : St) (msg : List Byte) (p : Nat)
    (hHeld : ∀ q, (s.part q).endbody ≤ msg.length) :
    TriedSafe val s msg p ↔ (∃ q, q ∈ leaves s s.parts.length p ∧
        (s.part q).contentTransferEncoding ≠ some (bytes "base64") ∧
          ¬ NoBoundary val (s.decoded 512 msg q)) ∨
      ∀ w, w ∈ writtenAs s s.parts.length false p → Unharmed val s msg w := by
  have hWritten : rewrittenBodies s msg p = _ := dorw_eq hHeld s.parts.length false p
  have hTry : rfc2045TryBoundary val s p msg = 0 ↔ _ :=
    tryBoundary_eq_zero_iff s msg s.parts.length p
  constructor
  · intro hSafe
    by_cases hSeen : ∃ q, q ∈ leaves s s.parts.length p ∧ (s.part q).contentTransferEncoding ≠
            some (bytes "base64") ∧
          ¬ NoBoundary val (s.decoded 512 msg q)
    · exact Or.inl hSeen
    · right
      intro w hMem
      apply unharmed_of_written
      apply hSafe _ _ hWritten (w.1, s.written msg w) (List.mem_map.mpr ⟨w, hMem, rfl⟩)
      rw [hTry]
      intro q hLeaf
      rw [tryLeaf_eq_zero_iff]
      by_cases hBase : (s.part q).contentTransferEncoding = some (bytes "base64")
      · exact Or.inl hBase
      · right
        refine ⟨readBody_complete hHeld (by decide) q, ?_⟩
        by_contra hFound
        exact hSeen ⟨q, hLeaf, hBase, hFound⟩
  · intro hCondition hZero bodies hBodies b hMem
    have hPassed := hTry.mp hZero
    rw [hWritten] at hBodies
    cases hBodies
    rcases List.mem_map.mp hMem with ⟨w, hHow, hSame⟩
    rw [← hSame]
    rcases hCondition with ⟨q, hLeaf, hOther, hFound⟩ | hAll
    · have hLeafPassed := (tryLeaf_eq_zero_iff s msg q).mp (hPassed q hLeaf)
      exact absurd (hLeafPassed.resolve_left hOther).2 hFound
    · apply noBoundary_written _ (hAll w hHow)
      have hLeafPassed := (tryLeaf_eq_zero_iff s msg w.1).mp (hPassed w.1 (leaf_of_written hHow))
      exact hLeafPassed.imp_right And.right

end Safe

/-
  A boundary that is tried for a message is safe exactly if
  it is rejected, or the bodies that are not written as they
  are searched are harmless.
-/
theorem tried_safe_iff (val charset : List Byte) (mode : RwMode)
    (rewriting inReformime : Bool) (calls : List Call) (p : Nat) :
    let s := checkedMessage charset mode rewriting inReformime calls
    let msg := calls.flatMap Call.input
    TriedSafe val s msg p ↔ (∃ q, q ∈ leaves s s.parts.length p ∧
        (s.part q).contentTransferEncoding ≠ some (bytes "base64") ∧
          ¬ NoBoundary val (s.decoded 512 msg q)) ∨
      ∀ w, w ∈ writtenAs s s.parts.length false p → Unharmed val s msg w :=
  tried_safe_of_held _ _ _ p (endbody_checkedMessage_le charset mode rewriting inReformime calls)

/- The encoded body has the boundary, the decoded one not. -/
def encodedBoundary : List Byte :=
  bytes "MIME-Version: 1.0\n" ++ bytes "Content-Transfer-Encoding: quoted-printable\n" ++
      bytes "\na=\n--b\n"

/- What is known about this message before it is written. -/
def encodedBoundaryTree : St where
  parts :=
    [{ Part.alloc with
        endpos := 70
        startbody := 63
        endbody := 70
        nlines := 5
        nbodylines := 2
        mimeVersion := some (bytes "1.0")
        contentType := some (bytes "text/plain")
        contentTypeAttr :=
          [(bytes "charset", bytes "iso-8859-1")]
        contentTransferEncoding :=
          some (bytes "quoted-printable")
        workinheader := false
        header :=
          bytes "Content-Transfer-Encoding: quoted-printable" }]
  workbuf := []
  numparts := 0
  rfc2045acptr := some ⟨some 0, 0, .quotedprint, 0⟩
  inReformime := false

/-
  The boundary is accepted, and the body is copied with a line
  that begins with it.
-/
theorem not_tried_safe : ¬ TriedSafe (bytes "b")
      (checkedMessage (bytes "iso-8859-1") .plain true false
        [.parse encodedBoundary])
      encodedBoundary 0 := by
  have hTree : checkedMessage (bytes "iso-8859-1") .plain true
      false [.parse encodedBoundary] = encodedBoundaryTree := by
    decide +kernel
  rw [hTree]
  intro hSafe
  have hBody : encodedBoundaryTree.bodyText encodedBoundary 0 =
      bytes "a=\n--b\n" := by
    decide
  have hDecoded : encodedBoundaryTree.decoded 512
      encodedBoundary 0 = bytes "a--b\n" := by
    rw [decoded_quotedPrintable (by decide) (by decide)
      (QpCutSafe.of_length_le (by rw [hBody]; decide)), hBody]
    decide
  have hTried : rfc2045TryBoundary (bytes "b") encodedBoundaryTree 0 encodedBoundary = 0 := by
    apply (tryBoundary_eq_zero_iff _ _ 1 0).mpr
    intro q hLeaf
    have hLeaves : leaves encodedBoundaryTree 1 0 = [0] := by decide
    rw [hLeaves, List.mem_singleton] at hLeaf
    rw [hLeaf, tryLeaf_eq_zero_iff, hDecoded, noBoundary_iff]
    exact Or.inr ⟨by decide, by decide⟩
  have hWritten : rewrittenBodies encodedBoundaryTree
      encodedBoundary 0 = some [(0, bytes "a=\n--b\n")] := by
    decide +kernel
  have hLine := hSafe hTried _ hWritten _
    List.mem_cons_self (bytes "--b") (by decide)
  have hBegins : beginsBoundary (bytes "b") (bytes "--b") =
      true := by
    decide
  rw [hBegins] at hLine
  cases hLine

------------
-- What the Bodies Carry
------------

theorem qpeByte_eq : ∀ c : Byte, c ≠ nl → qpeByte c = qpToken c ∧
    (qpeByte c).all (fun b => 32 ≤ b ∧ b < 127) := by
  apply byte_forall
  decide +kernel

/-
  Behind `pos` columns: the text is read back, and no line is
  longer than 75 columns, as a byte takes up to three and the
  break one more.
-/
theorem qpeDo_spec (text : List Byte) {pos : Nat} (hPos : pos ≤ 74) :
    qpStream .text (qpeDo pos text).1 = text ∧ linesFit 75 pos (qpeDo pos text).1 ∧
      ∀ b, b ∈ (qpeDo pos text).1 → b = nl ∨ 32 ≤ b ∧ b < 127 := by
  induction text generalizing pos with
  | nil => exact ⟨rfl, Nat.le_succ_of_le hPos, fun b hMem => absurd hMem List.not_mem_nil⟩
  | cons c rest ih =>
    unfold qpeDo
    split
    · rename_i hLine
      subst hLine
      rcases ih (Nat.zero_le 74) with ⟨hBack, hFit, hPlain⟩
      have hRead := qpStream_qpToken nl (qpeDo 0 rest).1
      rw [hBack] at hRead
      exact ⟨hRead, (linesFit_nl _ _ _).mpr ⟨by omega, hFit⟩,
        List.forall_mem_cons.mpr ⟨Or.inl rfl, hPlain⟩⟩
    rename_i hOther
    rcases qpeByte_eq c hOther with ⟨hToken, hAll⟩
    have hByte : ∀ b, b ∈ qpeByte c → b = nl ∨ 32 ≤ b ∧ b < 127 := fun b hMem =>
      Or.inr (of_decide_eq_true (List.all_eq_true.mp hAll b hMem))
    have hNl := nl_not_mem_qpeByte hOther
    have hLength : (qpeByte c).length ≤ 3 := by
      unfold qpeByte
      split <;> simp
    split
    · rcases @ih (qpeByte c).length (by omega) with ⟨hBack, hFit, hPlain⟩
      refine ⟨?_, ?_, ?_⟩
      · show qpStream .text ([chr '=', nl] ++ _) = _
        rw [qpStream_soft, hToken, qpStream_qpToken, ← hToken, hBack]
      · show linesFit 75 pos (chr '=' :: nl :: (qpeByte c ++ _))
        rw [linesFit, if_neg (by decide), linesFit_nl, linesFit_line _ _ _ _ hNl, Nat.zero_add]
        exact ⟨by omega, hFit⟩
      · show ∀ b, b ∈ chr '=' :: nl :: (qpeByte c ++ _) → _
        simp only [List.forall_mem_cons, List.forall_mem_append]
        exact ⟨Or.inr (by decide), Or.inl trivial, hByte, hPlain⟩
    · rcases @ih (pos + (qpeByte c).length) (by omega) with ⟨hBack, hFit, hPlain⟩
      refine ⟨?_, (linesFit_line _ _ _ _ hNl).mpr hFit, ?_⟩
      · show qpStream .text (qpeByte c ++ _) = _
        rw [hToken, qpStream_qpToken, ← hToken, hBack]
      · exact List.forall_mem_append.mpr ⟨hByte, hPlain⟩

/- Printable, in short lines, and decoded from any pieces. -/
def Reencodes (text decoded : List Byte) : Prop :=
  LinesAtMost 75 text ∧ (∀ b, b ∈ text → b = nl ∨ 32 ≤ b ∧ b < 127) ∧
    ∀ calls, calls.flatten = text → (cdecoder .quotedPrintable).run calls = decoded

theorem reencodes_qpeDo (text : List Byte) : Reencodes (qpeDo 0 text).1 text := by
  rcases qpeDo_spec text (Nat.zero_le 74) with ⟨hBack, hFit, hPlain⟩
  have hLines := LinesAtMost.of_linesFit hFit
  refine ⟨hLines, hPlain, fun calls hCalls => ?_⟩
  rw [qp_realizes.run_eq calls (hCalls ▸ QpCutSafe.of_linesAtMost hLines (by omega)), hCalls, hBack]

/- The body `b` that is written for a leaf has its contents. -/
def Carries (s : St) (msg : List Byte) (w : Nat × Convmode) (b : Nat × List Byte) : Prop :=
  b.1 = w.1 ∧
    match w.2 with
    | .copy => b.2 = s.bodyText msg w.1
    | .bit8 => b.2 = s.decoded bufsiz msg w.1
    | .bit7 => Reencodes b.2 (s.decoded bufsiz msg w.1)

/- Each body that is written has the contents of its leaf. -/
theorem rewritten_carries (charset : List Byte) (mode : RwMode) (rewriting inReformime : Bool)
    (calls : List Call) (p : Nat) :
    let s := checkedMessage charset mode rewriting inReformime calls
    let msg := calls.flatMap Call.input
    ∃ bodies, rewrittenBodies s msg p = some bodies ∧
      List.Forall₂ (Carries s msg) (writtenAs s s.parts.length false p) bodies := by
  intro s msg
  refine ⟨_, dorw_eq (endbody_checkedMessage_le charset mode rewriting inReformime calls) _ _ p, ?_⟩
  rw [List.forall₂_map_right_iff, List.forall₂_same]
  rintro ⟨q, mode⟩ _
  cases mode with
  | copy => exact ⟨rfl, rfl⟩
  | bit7 => exact ⟨rfl, reencodes_qpeDo _⟩
  | bit8 => exact ⟨rfl, rfl⟩

end Wmail.Rfc2045
