import Wmail.Rfc2045.Cdecode
import Mathlib.Data.List.Infix

/-
  Quoted-printable decoding of an unbounded stream.

  The scan of a buffer is a finite automaton: it is reading
  text, has read `=`, has read `=` and a digit, or has met a
  malformed escape and drops what is left of the buffer.
  `qpStream` runs the automaton over a stream and restarts
  it after every newline; it is what `do_decode_qp` computes
  when it is always given whole lines.

  Key theorems include:
    * `qpStream_line`
    * `qpStream_resume`
-/

namespace Wmail.Rfc2045

/- The states of a quoted-printable scan. -/
inductive QpState where
  | text
  | escape
  | digit (high : Nat)
  | dead
deriving DecidableEq, Repr

/- A byte of ordinary text: `=` starts an escape. -/
def qpTextStep (c : Byte) : QpState × List Byte :=
  if c = chr '=' then (.escape, []) else (.text, [c])

/- One byte: the next state, and the decoded bytes. -/
def qpStep (state : QpState) (c : Byte) : QpState × List Byte :=
  match state with
  | .text => qpTextStep c
  | .escape =>
    if c = 0 ∨ isspace c then
      (.dead, [])
    else
      match xdigitValue c with
      | none => qpTextStep c
      | some high => (.digit high, [])
  | .digit high =>
    if c = 0 then
      (.dead, [])
    else
      match xdigitValue c with
      | none => qpTextStep c
      | some low => (.text, [UInt8.ofNat (high * 16 + low)])
  | .dead => (.dead, [])

/- The state after a text. -/
def qpState (state : QpState) (text : List Byte) : QpState :=
  match text with
  | [] => state
  | c :: rest => qpState (qpStep state c).1 rest

/- The decoded bytes of a text. -/
def qpRun (state : QpState) (text : List Byte) : List Byte :=
  match text with
  | [] => []
  | c :: rest => (qpStep state c).2 ++ qpRun (qpStep state c).1 rest

/- Decode a stream, restarting after every newline. -/
def qpStream (state : QpState) (text : List Byte) : List Byte :=
  match text with
  | [] => []
  | c :: rest =>
    (qpStep state c).2 ++ qpStream (if c = nl then .text else (qpStep state c).1) rest

theorem qpState_append (state : QpState) (text more : List Byte) :
    qpState state (text ++ more) = qpState (qpState state text) more := by
  induction text generalizing state with
  | nil => rfl
  | cons c text ih => simp only [List.cons_append, qpState, ih]

theorem qpRun_append (state : QpState) (text more : List Byte) :
    qpRun state (text ++ more) = qpRun state text ++ qpRun (qpState state text) more := by
  induction text generalizing state with
  | nil => rfl
  | cons c text ih => simp only [List.cons_append, qpRun, qpState, ih, List.append_assoc]

@[simp] theorem qpRun_dead (text : List Byte) : qpRun .dead text = [] := by
  induction text with
  | nil => rfl
  | cons c text ih => simp [qpRun, qpStep, ih]

@[simp] theorem qpState_dead (text : List Byte) : qpState .dead text = .dead := by
  induction text with
  | nil => rfl
  | cons c text ih => simp [qpState, qpStep, ih]

variable {state : QpState}

/- `=` starts a new escape from every live state. -/
theorem qpStep_eq_of_ne_dead (hLive : state ≠ .dead) : qpStep state (chr '=') = (.escape, []) := by
  cases state with
  | text => rfl
  | escape => rfl
  | digit high => rfl
  | dead => exact (hLive rfl).elim

@[simp] theorem qpScan_nil : qpScan [] = [] := by
  simp [qpScan]

/- The scan of `do_decode_qp` runs the automaton. -/
theorem qpScan_eq_qpRun (text : List Byte) : qpScan text = qpRun .text text := by
  induction text using qpScan.induct with
  | case1 => simp [qpScan, qpRun]
  | case2 a rest hText ih =>
    rw [qpScan.eq_def]
    simp [qpRun, qpStep, qpTextStep, hText, ih]
  | case3 a hEq =>
    obtain rfl := not_not.mp hEq
    simp [qpScan, qpRun, qpStep, qpTextStep]
  | case4 a hEq x digits hBreak =>
    obtain rfl := not_not.mp hEq
    simp [qpScan, qpRun, qpStep, qpTextStep, hBreak]
  | case5 a hEq x digits hGo hBad ih =>
    obtain rfl := not_not.mp hEq
    simp only [qpRun, qpStep] at ih
    simp [qpScan, qpRun, qpStep, qpTextStep, hGo, hBad]
    simpa [qpTextStep] using ih
  | case6 a hEq x hGo high hHigh =>
    obtain rfl := not_not.mp hEq
    simp [qpScan, qpRun, qpStep, qpTextStep, hGo, hHigh]
  | case7 a hEq x hGo high hHigh after =>
    obtain rfl := not_not.mp hEq
    simp [qpScan, qpRun, qpStep, qpTextStep, hGo, hHigh]
  | case8 a hEq x hGo high hHigh y after hNul hBad ih =>
    obtain rfl := not_not.mp hEq
    simp only [qpRun, qpStep] at ih
    simp [qpScan, qpRun, qpStep, qpTextStep, hGo, hHigh, hNul, hBad]
    simpa [qpTextStep] using ih
  | case9 a hEq x hGo high hHigh y after hNul low hLow ih =>
    obtain rfl := not_not.mp hEq
    simp [qpScan, qpRun, qpStep, qpTextStep, hGo, hHigh, hNul, hLow, ih]

@[simp] theorem qpStream_nil (state : QpState) : qpStream state [] = [] :=
  rfl

/- Inside a line the stream runs the automaton. -/
theorem qpStream_append (state : QpState) (text more : List Byte) (hLine : nl ∉ text) :
    qpStream state (text ++ more) = qpRun state text ++ qpStream (qpState state text) more := by
  induction text generalizing state with
  | nil => rfl
  | cons c text ih =>
    have hParts : nl ≠ c ∧ nl ∉ text := by simpa using hLine
    simp only [List.cons_append, qpStream, qpRun, qpState, if_neg hParts.1.symm, ih _ hParts.2,
      List.append_assoc]

/- A complete line is decoded by one scan. -/
theorem qpStream_line (line rest : List Byte) (hLine : nl ∉ line) :
    qpStream .text (line ++ nl :: rest) = qpScan (line ++ [nl]) ++ qpStream .text rest := by
  rw [qpStream_append _ _ _ hLine, qpScan_eq_qpRun, qpRun_append]
  simp [qpStream, qpRun]

/- Every line of a stream is decoded on its own. -/
theorem qpStream_lines (lines rest : List Byte) (hLines : lines = [] ∨ lines.getLast? = some nl) :
    qpStream .text (lines ++ rest) = qpStream .text lines ++ qpStream .text rest := by
  rcases hLines with rfl | hLast
  · rfl
  · suffices hAll : ∀ state, qpStream state (lines ++ rest) =
            qpStream state lines ++ qpStream .text rest from
      hAll .text
    induction lines with
    | nil => simp at hLast
    | cons c lines ih =>
      intro state
      simp only [List.cons_append, qpStream, List.append_assoc]
      congr 1
      cases lines with
      | nil =>
        have hLine : c = nl := by simpa using hLast
        simp [hLine]
      | cons d lines => exact ih (by simpa [List.getLast?_cons_cons] using hLast) _

/- The last line is decoded by one scan. -/
theorem qpStream_last (line : List Byte) (hLine : nl ∉ line) :
    qpStream .text line = qpScan line := by
  have hAppend := qpStream_append .text line [] hLine
  simpa [qpScan_eq_qpRun] using hAppend

/-
  A live scan may be taken up again as if no escape were
  pending, when the text that follows begins with `=`.
-/
theorem qpStream_resume (hLive : state ≠ .dead) (more : List Byte) :
    qpStream state (chr '=' :: more) = qpStream .text (chr '=' :: more) := by
  simp only [qpStream, qpStep_eq_of_ne_dead hLive]
  rfl

theorem qpState_resume (hLive : state ≠ .dead) (more : List Byte) :
    qpState state (chr '=' :: more) = qpState .text (chr '=' :: more) := by
  simp only [qpState, qpStep_eq_of_ne_dead hLive]
  rfl

theorem qpTextStep_of_ne {c : Byte} (hText : c ≠ chr '=') : qpTextStep c = (.text, [c]) := by
  simp [qpTextStep, hText]

/- A byte other than `=` does not start an escape. -/
theorem qpStep_ne_escape (state : QpState) {c : Byte} (hText : c ≠ chr '=') :
    (qpStep state c).1 ≠ .escape := by
  cases state with
  | text => simp [qpStep, qpTextStep_of_ne hText]
  | escape =>
    simp only [qpStep, qpTextStep_of_ne hText]
    split
    · simp
    · split <;> simp
  | digit high =>
    simp only [qpStep, qpTextStep_of_ne hText]
    split
    · simp
    · split <;> simp
  | dead => simp [qpStep]

/- A byte other than `=` completes an escape with a digit. -/
theorem qpStep_settled (hState : state ≠ .escape) {c : Byte} (hText : c ≠ chr '=') :
    (qpStep state c).1 = .text ∨ (qpStep state c).1 = .dead := by
  cases state with
  | text => simp [qpStep, qpTextStep_of_ne hText]
  | escape => exact (hState rfl).elim
  | digit high =>
    simp only [qpStep, qpTextStep_of_ne hText]
    split
    · simp
    · split <;> simp
  | dead => simp [qpStep]

/- A text without late `=` leaves no escape pending. -/
theorem qpState_settled (text : List Byte) (hLong : 2 ≤ text.length)
    (hTail : chr '=' ∉ text.drop (text.length - 2)) :
    qpState .text text = .text ∨ qpState .text text = .dead := by
  have hCut : qpState .text text = qpState (qpState .text (text.take (text.length - 2)))
          (text.drop (text.length - 2)) := by
    rw [← qpState_append, List.take_append_drop]
  have hTwo : (text.drop (text.length - 2)).length = 2 := by
    simp
    omega
  rcases List.length_eq_two.mp hTwo with ⟨c, d, hEnds⟩
  rw [hCut, hEnds]
  rw [hEnds] at hTail
  have hParts : chr '=' ≠ c ∧ chr '=' ≠ d := by simpa using hTail
  exact qpStep_settled (qpStep_ne_escape _ hParts.1.symm) hParts.2.symm

end Wmail.Rfc2045
