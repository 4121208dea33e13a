import Wmail.Unicode.Conversions

/-
  The text of a section in the character set of its reader
  (rfc2045decodemimesectionu.c).

  The text is converted in pieces.  A piece ends with a blank
  or a newline, which belong to no longer sequence of bytes,
  so that nothing that is read goes over the end of a piece.

  Key theorems include:
    * `decodetextmimesection_whole`
-/

namespace Wmail.Rfc2045

open Unicode

/- `struct convert_info`, and what the handler has been given. -/
structure ConvertInfo where
  buffer : List Byte
  sent : List (List Byte)

/- `txtflush`, with the conversion of a C string. -/
def txtflush (convert : List Byte → Option (List Byte)) (ci : ConvertInfo) (n : Nat) :
    Option ConvertInfo :=
  if n = 0 then
    some ci
  else
    (convert ((ci.buffer.take n).takeWhile (· ≠ 0))).map fun ptr =>
      ⟨ci.buffer.drop n, ci.sent ++ [ptr]⟩

/- What lets the loop over the buffer go on. -/
def unsafeByte (b : Byte) : Bool :=
  b ≠ nl && b ≠ chr ' '

/- The loop in `myhandler` that looks for something safe. -/
def breakAt (buffer : List Byte) : Nat :=
  (buffer.reverse.dropWhile unsafeByte).length

/- `myhandler`. -/
def myhandler (convert : List Byte → Option (List Byte)) (ci : ConvertInfo) (cp : List Byte) :
    Option ConvertInfo :=
  if cp = [] then
    some ci
  else
    let buffer := ci.buffer ++ cp.take 1024
    (txtflush convert { ci with buffer := buffer } (breakAt buffer)).bind fun next =>
      myhandler convert next (cp.drop 1024)
termination_by cp.length
decreasing_by
  have hSome : 0 < cp.length := List.length_pos_iff.mpr ‹_›
  rw [List.length_drop]
  omega

/-
  `rfc2045_decodetextmimesection` for two sets that differ,
  from what the decoder gives to `myhandler`.
-/
def decodetextmimesection (convert : List Byte → Option (List Byte)) (pieces : List (List Byte)) :
    Option (List (List Byte)) :=
  ((pieces.foldlM (myhandler convert) ⟨[], []⟩).bind fun ci =>
    txtflush convert ci ci.buffer.length).map (·.sent)

theorem breaks_breakAt (buffer : List Byte) : Breaks (buffer.take (breakAt buffer)) := by
  have hSplit := congrArg List.reverse
    (List.takeWhile_append_dropWhile (p := unsafeByte) (l := buffer.reverse))
  rw [List.reverse_append, List.reverse_reverse] at hSplit
  have hTake : buffer.take (breakAt buffer) = (buffer.reverse.dropWhile unsafeByte).reverse := by
    rw [breakAt, ← List.length_reverse]
    exact (List.prefix_iff_eq_take.mp ⟨_, hSplit⟩).symm
  intro last hLast
  rw [hTake, List.getLast?_reverse] at hLast
  have hSafe := head_dropWhile_stop last hLast
  unfold unsafeByte at hSafe
  by_contra hNeither
  rw [not_or] at hNeither
  simp [hNeither] at hSafe

theorem breaks_append {front part : List Byte} (hFront : Breaks front) (hPart : Breaks part) :
    Breaks (front ++ part) := by
  intro last hLast
  rw [List.getLast?_append] at hLast
  rcases Option.or_eq_some_iff.mp hLast with hHere | ⟨_, hHere⟩
  · exact hPart last hHere
  · exact hFront last hHere

section Whole

variable {src dst : UnicodeInfo} {reader : Reader Byte UnicodeChar}
variable {write : UnicodeChar → List Byte} {whole : List Byte}

theorem tokens_breaks (hReads : Reads src reader) {front : List Byte} (hBreaks : Breaks front)
    (back : List Byte) :
    tokens reader 0 (front ++ back) = tokens reader 0 front ++ tokens reader 0 back := by
  refine tokens_append hReads.steady (fun b s hMore last hLast => hMore last ?_) hReads.within
    hBreaks (Nat.zero_le _) back
  exact List.mem_getLast?_cons hLast

/- What the tokens of a text are written as. -/
def written (reader : Reader Byte UnicodeChar) (write : UnicodeChar → List Byte)
    (text : List Byte) : List Byte :=
  (tokens reader 0 text).flatMap (Sum.elim ([·]) write)

theorem written_append (hReads : Reads src reader) {front : List Byte} (hBreaks : Breaks front)
    (back : List Byte) :
    written reader write (front ++ back) =
      written reader write front ++ written reader write back := by
  rw [written, tokens_breaks hReads hBreaks, List.flatMap_append]
  rfl

/- A text without zero bytes, in which no code point is zero. -/
def Proper (reader : Reader Byte UnicodeChar) (text : List Byte) : Prop :=
  0 ∉ text ∧ .inr 0 ∉ tokens reader 0 text

/-
  What is in front of the buffer was converted and sent; what
  is behind it has still to come.
-/
def Converted (reader : Reader Byte UnicodeChar) (write : UnicodeChar → List Byte)
    (ci : ConvertInfo) (rest whole : List Byte) : Prop :=
  ∃ front, whole = front ++ (ci.buffer ++ rest) ∧ Breaks front ∧
    ci.sent.flatten = written reader write front

/- A part of the text that begins and ends at breaks. -/
theorem Proper.part (hReads : Reads src reader) {front part back : List Byte}
    (hProper : Proper reader (front ++ (part ++ back))) (hFront : Breaks front)
    (hPart : Breaks part ∨ back = []) : Proper reader part := by
  rcases hProper with ⟨hZero, hTokens⟩
  rw [tokens_breaks hReads hFront, List.mem_append, not_or] at hTokens
  simp only [List.mem_append, not_or] at hZero
  refine ⟨hZero.2.1, ?_⟩
  rcases hPart with hPart | rfl
  · rw [tokens_breaks hReads hPart, List.mem_append, not_or] at hTokens
    exact hTokens.2.1
  · rw [List.append_nil] at hTokens
    exact hTokens.2

variable (hReads : Reads src reader) (hWrites : Writes dst write)
variable (hOther : src.chset ≠ dst.chset)

include hReads hWrites hOther

theorem txtflush_proper {ci : ConvertInfo} {n : Nat} (hProper : Proper reader (ci.buffer.take n)) :
    ∃ next, txtflush (unicodeXconvert · src dst) ci n = some next ∧
      next.buffer = ci.buffer.drop n ∧
      next.sent.flatten = ci.sent.flatten ++ written reader write (ci.buffer.take n) := by
  unfold txtflush
  by_cases hNone : n = 0
  · rw [if_pos hNone, hNone]
    exact ⟨ci, rfl, rfl, (List.append_nil _).symm⟩
  · rw [if_neg hNone, takeWhile_unclosed hProper.1]
    dsimp only
    rw [unicodeXconvert_tokens hReads hWrites hOther hProper.2]
    refine ⟨_, rfl, rfl, ?_⟩
    rw [List.flatten_append, List.flatten_singleton]
    rfl

theorem myhandler_converted {ci : ConvertInfo} {cp rest : List Byte} (hProper : Proper reader whole)
    (hDone : Converted reader write ci (cp ++ rest) whole) :
    ∃ next, myhandler (unicodeXconvert · src dst) ci cp = some next ∧
      Converted reader write next rest whole := by
  induction hLength : cp.length using Nat.strongRecOn generalizing ci cp with
  | _ length ih =>
    unfold myhandler
    by_cases hEnd : cp = []
    · rw [if_pos hEnd]
      rw [hEnd] at hDone
      exact ⟨ci, rfl, hDone⟩
    rw [if_neg hEnd]
    rcases hDone with ⟨front, hWhole, hBreaks, hSent⟩
    generalize hBuffer : ci.buffer ++ cp.take 1024 = buffer
    have hAll : whole = front ++ (buffer.take (breakAt buffer) ++
        (buffer.drop (breakAt buffer) ++ (cp.drop 1024 ++ rest))) := by
      rw [hWhole, ← List.append_assoc (buffer.take _), List.take_append_drop, ← hBuffer]
      simp only [List.append_assoc]
      rw [← List.append_assoc (cp.take _), List.take_append_drop]
    have hPart := (hAll ▸ hProper).part hReads hBreaks (Or.inl (breaks_breakAt buffer))
    rcases @txtflush_proper _ _ _ _ hReads hWrites hOther ⟨buffer, ci.sent⟩ _ hPart with
      ⟨next, hFlush, hLeft, hMore⟩
    dsimp only
    rw [hFlush, Option.bind_some]
    refine ih _ ?_ ⟨_, ?_, breaks_append hBreaks (breaks_breakAt buffer), ?_⟩ rfl
    · rw [← hLength, List.length_drop]
      have hSome := List.length_pos_iff.mpr hEnd
      omega
    · rw [hLeft, List.append_assoc]
      exact hAll
    · rw [hMore, hSent, written_append hReads hBreaks]

theorem foldlM_converted {ci : ConvertInfo} {pieces : List (List Byte)} {rest : List Byte}
    (hProper : Proper reader whole)
    (hDone : Converted reader write ci (pieces.flatten ++ rest) whole) :
    ∃ next, pieces.foldlM (myhandler (unicodeXconvert · src dst)) ci = some next ∧
      Converted reader write next rest whole := by
  induction pieces generalizing ci with
  | nil => exact ⟨ci, rfl, hDone⟩
  | cons cp pieces ih =>
    rw [List.flatten_cons, List.append_assoc] at hDone
    rcases myhandler_converted hReads hWrites hOther hProper hDone with ⟨next, hRun, hNext⟩
    rw [List.foldlM_cons, hRun]
    exact ih hNext

/-
  What the handler is given is the conversion of the whole
  text, however the text is cut into pieces.
-/
theorem decodetextmimesection_whole {pieces : List (List Byte)}
    (hProper : Proper reader pieces.flatten) :
    ∃ sent, decodetextmimesection (unicodeXconvert · src dst) pieces = some sent ∧
      unicodeXconvert pieces.flatten src dst = some sent.flatten := by
  have hStart : Converted reader write ⟨[], []⟩ (pieces.flatten ++ []) pieces.flatten :=
    ⟨[], (List.append_nil _).symm, (fun last hLast => by cases hLast), rfl⟩
  rcases foldlM_converted hReads hWrites hOther hProper hStart with
    ⟨ci, hRun, front, hWhole, hBreaks, hSent⟩
  have hPart := (hWhole ▸ hProper).part hReads hBreaks (Or.inr rfl)
  rw [← List.take_length (l := ci.buffer)] at hPart
  rcases txtflush_proper hReads hWrites hOther hPart with ⟨last, hFlush, _, hLast⟩
  refine ⟨last.sent, ?_, ?_⟩
  · unfold decodetextmimesection
    rw [hRun, Option.bind_some, hFlush]
    rfl
  · rw [unicodeXconvert_tokens hReads hWrites hOther hProper.2, hLast, hSent, List.take_length,
      ← written_append hReads hBreaks, hWhole, List.append_nil]
    rfl

end Whole

/- A character of two bytes that come in two pieces. -/
theorem decodetextmimesection_latin :
    let latin := unicodeIso8859 (bytes "ISO-8859-1") (Vector.ofFn fun i => UInt32.ofNat (i + 128))
    let pieces := [[0x61, 0xC3], [0xA9, 0x20, 0xFF]]
    ∃ sent, decodetextmimesection (unicodeXconvert · unicodeUTF8 latin) pieces = some sent ∧
      unicodeXconvert pieces.flatten unicodeUTF8 latin = some sent.flatten :=
  decodetextmimesection_whole reads_utf8 (writes_iso8859 _ _)
    (show bytes "UTF-8" ≠ bytes "ISO-8859-1" by decide) ⟨by decide, fun hMem => by
      rcases hMem with _ | ⟨_, _ | ⟨_, _ | ⟨_, _ | ⟨_, hNone⟩⟩⟩⟩
      cases hNone⟩

end Wmail.Rfc2045
