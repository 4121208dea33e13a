import Wmail.Gpglib.Mimegpg

/-
  The signed content that a checker recovers is the text that
  was signed, unless a boundary line comes to light in it.

  The signer looks for the boundaries of the enclosing parts
  in the lines as they come in.  What it writes has no
  carriage returns, and nothing of what is behind a zero byte
  in a piece; the checker looks for boundaries in that.

  Key theorems include:
    * `collectContent_text`
    * `checksign_dogpgsign_iff`
-/

namespace Wmail.Gpglib

open Authlib (cString)
open Maildir (bufsiz)

/- `is_boundary` of the first piece of a line. -/
def lineBoundary (stack : MimeStack) (line : List Byte) : Bool :=
  (isBoundary stack ((line ++ [nl]).take (bufsiz - 1))).isSome

/- Some line of the text is a boundary line. -/
def HasBoundaryLine (stack : MimeStack) (text : List Byte) : Prop :=
  ∃ line, line ∈ text.splitOn nl ∧ lineBoundary stack line = true

instance (stack : MimeStack) (text : List Byte) : Decidable (HasBoundaryLine stack text) := by
  unfold HasBoundaryLine
  infer_instance

/- What is seen of a piece, without carriage returns. -/
def visible (piece : List Byte) : List Byte :=
  (cString piece).filter (· ≠ cr)

/-
  The pieces of the content: all of them, or those before the
  boundary line that ends it.
-/
def contentPieces (stack : MimeStack) : Bool → List (List Byte) → List (List Byte)
  | _, [] => []
  | lineStart, piece :: rest =>
    if lineStart && (isBoundary stack (cString piece)).isSome then
      []
    else
      piece :: contentPieces stack (nl ∈ cString piece) rest

/-
  Without its carriage returns, a header that is signed or
  the content has a line that is a boundary of an enclosing
  part.
-/
def HidesBoundary (stack : MimeStack) (h : List (List Byte)) (fpin : List (List Byte)) : Prop :=
  HasBoundaryLine stack ((h.filter encodeHeader).flatMap visible) ∨
    HasBoundaryLine stack ((contentPieces stack true fpin).flatMap visible)

instance (stack : MimeStack) (h : List (List Byte)) (fpin : List (List Byte)) :
    Decidable (HidesBoundary stack h fpin) := by
  unfold HidesBoundary
  infer_instance

section BoundaryLines

variable {stack : MimeStack}

theorem hasBoundaryLine_line {line : List Byte} (hLine : nl ∉ line) :
    HasBoundaryLine stack line ↔ lineBoundary stack line = true := by
  unfold HasBoundaryLine
  rw [List.splitOn_eq_singleton hLine]
  simp

theorem hasBoundaryLine_append (front rest : List Byte) :
    HasBoundaryLine stack (front ++ nl :: rest) ↔ HasBoundaryLine stack front ∨
        HasBoundaryLine stack rest := by
  unfold HasBoundaryLine
  rw [List.splitOn_append_cons_self]
  simp only [List.mem_append, or_and_right, exists_or]

theorem lineBoundary_nil : lineBoundary stack [] = false :=
  rfl

theorem not_hasBoundaryLine_nil : ¬ HasBoundaryLine stack [] := by
  rw [hasBoundaryLine_line List.not_mem_nil, lineBoundary_nil]
  exact Bool.false_ne_true

/- A newline at the end makes no boundary line. -/
theorem hasBoundaryLine_end {tail : List Byte} (hTail : tail = [] ∨ tail = [nl])
    (text : List Byte) :
    HasBoundaryLine stack (text ++ tail) ↔ HasBoundaryLine stack text := by
  rcases hTail with hNone | hNl
  · rw [hNone, List.append_nil]
  · rw [hNl, hasBoundaryLine_append]
    exact or_iff_left not_hasBoundaryLine_nil

end BoundaryLines

------------
-- What Is Signed
------------

/- The content as it is written into the message. -/
def plainContent (stack : MimeStack) : Bool → List (List Byte) → List Byte
  | _, [] => []
  | lineStart, piece :: rest =>
    if lineStart && (isBoundary stack (cString piece)).isSome then
      []
    else
      (if lineStart then [nl] else []) ++ pieceText piece ++
        plainContent stack (nl ∈ cString piece) rest

/- The signed text without its carriage returns. -/
def plainSigned (stack : MimeStack) (h : List (List Byte)) (fpin : List (List Byte)) :
    List Byte :=
  (h.filter encodeHeader).flatMap visible ++
    plainContent stack true fpin ++
    (if stack = [] then [nl] else [])

theorem nl_not_mem_pieceText (piece : List Byte) : nl ∉ pieceText piece := by
  intro hMem
  unfold pieceText at hMem
  have hIn := List.mem_takeWhile_imp (List.mem_filter.mp hMem).1
  simp at hIn

section Signed

variable {stack : MimeStack}

/- The signer puts a carriage return before every newline. -/
theorem signContent_eq (lineStart : Bool) (fpin : List (List Byte)) :
    (signContent stack lineStart fpin).1 = crlf (plainContent stack lineStart fpin) := by
  have hCrlf : bytes "\r\n" = crlf [nl] := rfl
  induction fpin generalizing lineStart with
  | nil => rfl
  | cons piece rest ih =>
    have hText := crlf_line (nl_not_mem_pieceText piece)
    unfold signContent plainContent
    cases lineStart with
    | false => simp [ih, hText]
    | true =>
      cases hBoundary : isBoundary stack (cString piece) with
      | some b => simp
      | none => simp [ih, hText, hCrlf, crlf_cons_nl]

theorem signedContent_eq (h : List (List Byte)) (fpin : List (List Byte)) :
    signedContent stack h fpin = crlf (plainSigned stack h fpin) := by
  have hHeaders : ∀ hs : List (List Byte), hs.flatMap signedHeader = crlf (hs.flatMap visible) := by
    intro hs
    induction hs with
    | nil => rfl
    | cons header hs ih =>
      rw [List.flatMap_cons, List.flatMap_cons, crlf_append, ih]
      congr 1
      unfold signedHeader visible crlf
      apply List.flatMap_congr
      intro b _
      by_cases hNl : b = nl
      · simp [hNl]
      · simp [hNl]
  have hEnd : (if stack = [] then bytes "\r\n" else []) =
      crlf (if stack = [] then [nl] else []) := by
    split
    · rfl
    · rfl
  unfold signedContent plainSigned
  rw [crlf_append, crlf_append, hHeaders, signContent_eq, hEnd]

/- What is seen of a piece is a line, with or without its end. -/
theorem cString_piece {piece : List Byte} (hPiece : IsPiece piece) :
    ∃ line, nl ∉ line ∧ (cString piece = line ∨ cString piece = line ++ [nl]) := by
  rcases hPiece with ⟨_, line, hLine, hEq | hEq⟩
  · refine ⟨cString line, ?_, Or.inl (by rw [hEq])⟩
    intro hMem
    exact hLine (List.takeWhile_subset _ hMem)
  · by_cases hZero : (0 : Byte) ∈ line
    · refine ⟨cString line, ?_, Or.inl ?_⟩
      · intro hMem
        exact hLine (List.takeWhile_subset _ hMem)
      · rw [hEq]
        unfold cString
        rw [List.takeWhile_append]
        split
        · rename_i hLength
          have hAll : line.takeWhile (· ≠ (0 : Byte)) = line :=
            (List.takeWhile_prefix _).eq_of_length hLength
          rw [← hAll] at hZero
          have hOut := List.mem_takeWhile_imp hZero
          simp at hOut
        · rfl
    · refine ⟨line, hLine, Or.inr ?_⟩
      have hNone : (0 : Byte) ∉ line ++ [nl] := by
        intro hMem
        rcases List.mem_append.mp hMem with hIn | hLast
        · exact hZero hIn
        · exact absurd (List.mem_singleton.mp hLast) (by decide)
      rw [hEq]
      exact List.takeWhile_eq_self_iff.mpr (not_separator hNone)

/- A piece is its line, and the newline if that is seen. -/
theorem visible_eq {piece : List Byte} (hPiece : IsPiece piece) :
    visible piece = pieceText piece ++ (if nl ∈ cString piece then [nl] else []) := by
  rcases cString_piece hPiece with ⟨line, hLine, hEq | hEq⟩
  · have hAll : line.takeWhile (· ≠ nl) = line :=
      List.takeWhile_eq_self_iff.mpr (not_separator hLine)
    unfold visible pieceText
    rw [hEq, hAll, if_neg hLine, List.append_nil]
  · have hFront : (line ++ [nl]).takeWhile (· ≠ nl) = line := takeWhile_quoted hLine []
    unfold visible pieceText
    rw [hEq, hFront, if_pos (List.mem_append_right _ List.mem_cons_self), List.filter_append]
    rfl

/-
  The content has its newlines behind the lines, and what is
  written has them before the lines.
-/
theorem plainContent_visible (lineStart : Bool) {fpin : List (List Byte)}
    (hPieces : ∀ piece, piece ∈ fpin → IsPiece piece) :
    ∃ tail, (tail = [] ∨ tail = [nl]) ∧ (if lineStart then [nl] else []) ++
          (contentPieces stack lineStart fpin).flatMap visible =
        plainContent stack lineStart fpin ++ tail := by
  induction fpin generalizing lineStart with
  | nil =>
    cases lineStart with
    | false => exact ⟨[], Or.inl rfl, rfl⟩
    | true => exact ⟨[nl], Or.inr rfl, rfl⟩
  | cons piece rest ih =>
    unfold contentPieces plainContent
    by_cases hStop : (lineStart && (isBoundary stack (cString piece)).isSome) = true
    · rw [if_pos hStop, if_pos hStop]
      cases lineStart with
      | false => exact ⟨[], Or.inl rfl, rfl⟩
      | true => exact ⟨[nl], Or.inr rfl, rfl⟩
    · rw [if_neg hStop, if_neg hStop]
      rcases ih (nl ∈ cString piece) (fun other hMem =>
          hPieces other (List.mem_cons_of_mem piece hMem)) with
        ⟨tail, hTail, hEq⟩
      refine ⟨tail, hTail, ?_⟩
      simp only [decide_eq_true_eq] at hEq
      rw [List.flatMap_cons, visible_eq (hPieces piece List.mem_cons_self)]
      simp only [List.append_assoc]
      rw [hEq]

/- The boundary lines that come to light in the signed text. -/
theorem hasBoundaryLine_plain (h : List (List Byte)) {fpin : List (List Byte)}
    (hPieces : ∀ piece, piece ∈ fpin → IsPiece piece) :
    HasBoundaryLine stack (plainSigned stack h fpin) ↔ HidesBoundary stack h fpin := by
  have hEnd : (if stack = [] then [nl] else []) = [] ∨
      (if stack = [] then [nl] else []) = [nl] := by
    split
    · exact Or.inr rfl
    · exact Or.inl rfl
  rcases @plainContent_visible stack true fpin hPieces with ⟨tail, hTail, hEq⟩
  rw [if_pos rfl, List.singleton_append] at hEq
  unfold plainSigned HidesBoundary
  rw [hasBoundaryLine_end hEnd, ← hasBoundaryLine_end hTail,
    List.append_assoc, ← hEq, hasBoundaryLine_append]

end Signed

/- A byte that is written into the message as it is. -/
def IsPlain (b : Byte) : Prop :=
  b ≠ 0 ∧ b ≠ cr

theorem mem_visible {piece : List Byte} {b : Byte} (hMem : b ∈ visible piece) : IsPlain b := by
  rcases List.mem_filter.mp hMem with ⟨hIn, hOther⟩
  unfold cString at hIn
  have hSeen := List.mem_takeWhile_imp hIn
  constructor
  · exact of_decide_eq_true hSeen
  · exact of_decide_eq_true hOther

theorem mem_pieceText {piece : List Byte} {b : Byte} (hMem : b ∈ pieceText piece) :
    IsPlain b := by
  rcases List.mem_filter.mp hMem with ⟨hIn, hOther⟩
  have hVisible : b ∈ visible piece := List.mem_filter.mpr ⟨List.takeWhile_subset _ hIn, hOther⟩
  exact mem_visible hVisible

theorem isPlain_nl : IsPlain nl := by
  unfold IsPlain
  decide

section Bytes

variable {stack : MimeStack}

theorem mem_plainContent {lineStart : Bool} {fpin : List (List Byte)} {b : Byte}
    (hMem : b ∈ plainContent stack lineStart fpin) : IsPlain b := by
  induction fpin generalizing lineStart with
  | nil => cases hMem
  | cons piece rest ih =>
    unfold plainContent at hMem
    split at hMem
    · cases hMem
    · rcases List.mem_append.mp hMem with hFront | hMore
      · rcases List.mem_append.mp hFront with hStart | hText
        · cases lineStart with
          | false => cases hStart
          | true =>
            rw [List.mem_singleton.mp hStart]
            exact isPlain_nl
        · exact mem_pieceText hText
      · exact ih hMore

theorem mem_plainSigned {h fpin : List (List Byte)} {b : Byte}
    (hMem : b ∈ plainSigned stack h fpin) : IsPlain b := by
  rcases List.mem_append.mp hMem with hFront | hEnd
  · rcases List.mem_append.mp hFront with hHeaders | hContent
    · rcases List.mem_flatMap.mp hHeaders with ⟨_, _, hIn⟩
      exact mem_visible hIn
    · exact mem_plainContent hContent
  · split at hEnd
    · rw [List.mem_singleton.mp hEnd]
      exact isPlain_nl
    · cases hEnd

end Bytes

/- No zero byte hides a part of a piece. -/
theorem flatMap_cString {pieces : List (List Byte)} (hZero : 0 ∉ pieces.flatten) :
    pieces.flatMap cString = pieces.flatten := by
  induction pieces with
  | nil => rfl
  | cons piece rest ih =>
    rw [List.flatten_cons, List.mem_append, not_or] at hZero
    rw [List.flatMap_cons, List.flatten_cons, Authlib.cString_eq_self hZero.1, ih hZero.2]

theorem zero_not_mem_crlf {text : List Byte} (hZero : 0 ∉ text) : 0 ∉ crlf text := by
  intro hMem
  rcases List.mem_flatMap.mp hMem with ⟨b, hIn, hByte⟩
  split at hByte
  · revert hByte
    decide
  · rw [List.mem_singleton.mp hByte] at hZero
    exact hZero hIn

/- What gpg is given, and what is written into the message. -/
theorem signed_texts {text : List Byte} (hText : ∀ b, b ∈ text → IsPlain b) :
    (fgetsAll bufsiz (crlf text)).flatMap cString = crlf text ∧
      (fgetsAll bufsiz (crlf text)).flatMap visible = text := by
  have hZero : 0 ∉ text := fun hMem => (hText 0 hMem).1 rfl
  have hCr : cr ∉ text := fun hMem => (hText cr hMem).2 rfl
  have hFlat := @fgetsAll_flatten bufsiz (crlf text)
  have hAll : (fgetsAll bufsiz (crlf text)).flatMap cString = crlf text := by
    rw [flatMap_cString (by
      rw [hFlat]
      exact zero_not_mem_crlf hZero), hFlat]
  refine ⟨hAll, ?_⟩
  have hVisible : (fgetsAll bufsiz (crlf text)).flatMap visible =
      ((fgetsAll bufsiz (crlf text)).flatMap cString).filter (· ≠ cr) := by
    rw [List.filter_flatMap]
    rfl
  rw [hVisible, hAll, crlf_filter hCr]

------------
-- The New Boundary
------------

/- A boundary that makes one short line. -/
structure OneLine (boundary : List Byte) : Prop where
  zero : 0 ∉ boundary
  cr : cr ∉ boundary
  nl : nl ∉ boundary
  short : boundary.length + 4 < bufsiz

/- Nothing, or what begins with a carriage return or newline. -/
def EndsLine (tail : List Byte) : Prop :=
  ∀ b, tail.head? = some b → b = cr ∨ b = nl

theorem endsLine_take {tail : List Byte} (hTail : EndsLine tail) (n : Nat) :
    EndsLine (tail.take n) := by
  intro b hHead
  cases tail with
  | nil =>
    rw [List.take_nil] at hHead
    cases hHead
  | cons c tail =>
    cases n with
    | zero => cases hHead
    | succ n => exact hTail b hHead

theorem tolower_lineEnd {b c : Byte} (hEnd : c = cr ∨ c = nl)
    (hEq : tolower b = tolower c) : b = c := by
  have hSame : tolower c = c := by
    rcases hEnd with hCr | hNl
    · rw [hCr]
      rfl
    · rw [hNl]
      rfl
  rw [hSame] at hEq
  unfold tolower at hEq
  split at hEq
  · rename_i hUpper
    simp only [Bool.and_eq_true, decide_eq_true_eq, UInt8.le_iff_toNat_le] at hUpper
    have hLow : c.toNat ≤ 13 := by
      rcases hEnd with hCr | hNl
      · rw [hCr]
        exact Nat.le_refl 13
      · rw [hNl]
        exact Nat.le_of_ble_eq_true rfl
    have hBound : (90 : UInt8).toNat = 90 := rfl
    have hStep : (32 : UInt8).toNat = 32 := rfl
    have hSum : (b + 32).toNat = b.toNat + 32 := by
      rw [UInt8.toNat_add, hStep]
      exact Nat.mod_eq_of_lt (by omega)
    rw [← hEq, hSum] at hLow
    omega
  · exact hEq

section Boundary

variable {boundary : List Byte} {stack : MimeStack}

theorem casePrefix_append {line tail : List Byte} (hCr : cr ∉ boundary)
    (hNl : nl ∉ boundary) (hTail : EndsLine tail) :
    casePrefix boundary (line ++ tail) = casePrefix boundary line := by
  induction boundary generalizing line with
  | nil => rfl
  | cons b boundary ih =>
    rw [List.mem_cons, not_or] at hCr hNl
    cases line with
    | nil =>
      cases tail with
      | nil => rfl
      | cons c tail =>
        have hEnd := hTail c rfl
        have hOther : tolower b ≠ tolower c := by
          intro hEq
          have hSame := tolower_lineEnd hEnd hEq
          rcases hEnd with hIsCr | hIsNl
          · exact hCr.1 (hIsCr.symm.trans hSame.symm)
          · exact hNl.1 (hIsNl.symm.trans hSame.symm)
        unfold casePrefix
        rw [List.nil_append, List.map_cons, List.map_cons, List.isPrefixOf_cons_cons,
          beq_false_of_ne hOther, Bool.false_and]
        rfl
    | cons c line =>
      have hRest : casePrefix boundary (line ++ tail) = casePrefix boundary line := ih hCr.2 hNl.2
      unfold casePrefix at hRest ⊢
      simp only [List.cons_append, List.map_cons, List.isPrefixOf_cons_cons]
      rw [hRest]

/- The end of a line is no part of a boundary. -/
theorem startsBoundary_append {line tail : List Byte} (hText : OneLine boundary)
    (hTail : EndsLine tail) :
    startsBoundary boundary (line ++ tail) = startsBoundary boundary line := by
  have hHead : ∀ c, tail.head? = some c → (chr '-' == c) = false := by
    intro c hC
    rcases hTail c hC with hCr | hNl
    · rw [hCr]
      rfl
    · rw [hNl]
      rfl
  have hDashes : bytes "--" = [chr '-', chr '-'] := rfl
  unfold startsBoundary
  rw [hDashes]
  match line with
  | [] =>
    cases tail with
    | nil => rfl
    | cons c tail => simp [List.isPrefixOf, hHead c rfl]
  | [d] =>
    cases tail with
    | nil => rfl
    | cons c tail => simp [List.isPrefixOf, hHead c rfl]
  | d :: e :: line =>
    have hRest := @casePrefix_append boundary line tail hText.cr hText.nl hTail
    simp [List.isPrefixOf, hRest]

theorem startsBoundary_take {tail : List Byte} (hText : OneLine boundary)
    (hTail : EndsLine tail) (line : List Byte) (n : Nat) :
    startsBoundary boundary ((line ++ tail).take n) = startsBoundary boundary (line.take n) := by
  rw [List.take_append]
  exact startsBoundary_append hText (endsLine_take hTail _)

/- A line that does not begin with the new boundary. -/
theorem isBoundary_cons {line : List Byte} (hClear : startsBoundary boundary line = false) :
    isBoundary (boundary :: stack) line = isBoundary stack line := by
  have hDashes : bytes "--" = [chr '-', chr '-'] := rfl
  unfold startsBoundary at hClear
  rw [hDashes] at hClear
  match line with
  | [] => rfl
  | [_] => rfl
  | c :: d :: rest =>
    unfold isBoundary
    by_cases hOther : (c ≠ chr '-' || d ≠ chr '-') = true
    · simp only [if_pos hOther]
    · have hNone : casePrefix boundary rest = false := by
        simp [List.isPrefixOf] at hClear hOther
        exact hClear hOther.1.symm hOther.2.symm
      have hFind : searchMimestack (boundary :: stack) rest = searchMimestack stack rest := by
        unfold searchMimestack
        rw [List.find?_cons_of_neg (by simp [hNone])]
      simp only [if_neg hOther, hFind]

theorem one_lt_bufsiz : 1 < bufsiz := by
  unfold bufsiz
  decide

/-
  A boundary that is in no line of the written text's pieces
  begins no line of the text.
-/
theorem clear_lines (hText : OneLine boundary) {text : List Byte}
    (hClear : ∀ piece, piece ∈ fgetsAll bufsiz (crlf text) →
      startsBoundary boundary piece = false) :
    ∀ line, line ∈ text.splitOn nl → startsBoundary boundary (line.take (bufsiz - 1)) =
        false := by
  revert hClear
  apply line_induction (P := fun text =>
    (∀ piece, piece ∈ fgetsAll bufsiz (crlf text) → startsBoundary boundary piece = false) →
    ∀ line, line ∈ text.splitOn nl → startsBoundary boundary (line.take (bufsiz - 1)) = false)
  · intro line hLine hClear other hOther
    rw [List.splitOn_eq_singleton hLine, List.mem_singleton] at hOther
    subst hOther
    by_cases hNone : other = []
    · rw [hNone]
      rfl
    · rw [crlf_line hLine] at hClear
      rcases fgetsAll_head hLine [] (Or.inl rfl) one_lt_bufsiz (by simpa using hNone) with
        ⟨more, hHead⟩
      rw [List.append_nil] at hHead
      rw [hHead] at hClear
      have hFirst := hClear _ List.mem_cons_self
      rw [List.take_nil, List.append_nil] at hFirst
      exact hFirst
  · intro line rest hLine ih hClear other hOther
    have hEnd : EndsLine [cr, nl] := by
      intro b hHead
      exact Or.inl (Option.some.inj hHead).symm
    have hLineCr : nl ∉ line ++ [cr] := by
      intro hMem
      rcases List.mem_append.mp hMem with hIn | hLast
      · exact hLine hIn
      · exact absurd (List.mem_singleton.mp hLast) (by decide)
    have hText' : crlf (line ++ nl :: rest) = (line ++ [cr]) ++ nl :: crlf rest := by
      rw [crlf_append, crlf_line hLine, crlf_cons_nl, List.append_assoc, List.singleton_append]
    rw [hText'] at hClear
    rw [List.splitOn_append_cons_self, List.splitOn_eq_singleton hLine,
      List.singleton_append, List.mem_cons] at hOther
    rcases hOther with hHere | hMore
    · subst hHere
      rcases fgetsAll_head hLineCr (nl :: crlf rest) (Or.inr rfl) one_lt_bufsiz (by simp) with
        ⟨more, hHead⟩
      rw [hHead] at hClear
      have hFirst := hClear _ List.mem_cons_self
      have hShape : other ++ [cr] ++ (nl :: crlf rest).take 1 = other ++ [cr, nl] := by simp
      rw [hShape, startsBoundary_take hText hEnd] at hFirst
      exact hFirst
    · rcases @fgetsAll_pieces bufsiz _ hLineCr (crlf rest) with ⟨pieces, hPieces, _, _⟩
      rw [hPieces] at hClear
      apply ih _ other hMore
      intro piece hMem
      exact hClear piece (List.mem_append_right _ hMem)

/- The new boundary brings no boundary line to light. -/
theorem hasBoundaryLine_cons (hText : OneLine boundary) {text : List Byte}
    (hClear : ∀ line, line ∈ text.splitOn nl →
      startsBoundary boundary (line.take (bufsiz - 1)) = false) :
    HasBoundaryLine (boundary :: stack) text ↔ HasBoundaryLine stack text := by
  have hEnd : EndsLine [nl] := by
    intro b hHead
    exact Or.inr (Option.some.inj hHead).symm
  unfold HasBoundaryLine
  apply exists_congr
  intro line
  apply and_congr_right
  intro hLine
  have hNone := hClear line hLine
  rw [← startsBoundary_take hText hEnd] at hNone
  unfold lineBoundary
  rw [isBoundary_cons hNone]

/- The host's name is made of bytes of a line. -/
def IsHostname (hostname : List Byte) : Prop :=
  0 ∉ hostname ∧ cr ∉ hostname ∧ nl ∉ hostname

theorem mem_newboundary {hostname : List Byte} {stamp : Stamp} {b : Byte}
    (hMem : b ∈ newboundary hostname stamp) : b ∈ hostname ∨ 32 ≤ b := by
  have hDigit : ∀ room n, b ∈ decimalDigits room n → 32 ≤ b := by
    intro room n hIn
    have hClass := isdigit_decimalDigits hIn
    unfold isdigit at hClass
    rw [Bool.and_eq_true, decide_eq_true_iff] at hClass
    exact UInt8.le_trans (by decide) hClass.1
  have hSign : (bytes "=_mimegpg-").all (32 ≤ ·) = true := by decide
  have hDash : (bytes "-").all (32 ≤ ·) = true := by decide
  have hLiteral : ∀ text : List Byte, text.all (32 ≤ ·) = true → b ∈ text → 32 ≤ b := by
    intro text hAll hIn
    exact of_decide_eq_true (List.all_eq_true.mp hAll b hIn)
  unfold newboundary at hMem
  simp only [List.mem_append] at hMem
  rcases hMem with (((((((hIn | hIn) | hIn) | hIn) | hIn) | hIn) | hIn) | hIn)
  · exact Or.inr (hLiteral _ hSign hIn)
  · unfold hostField at hIn
    split at hIn
    · rw [List.mem_singleton.mp hIn]
      exact Or.inr (UInt8.le_refl 32)
    · exact Or.inl (List.take_subset _ _ hIn)
  · exact Or.inr (hLiteral _ hDash hIn)
  · exact Or.inr (hDigit _ _ hIn)
  · exact Or.inr (hLiteral _ hDash hIn)
  · exact Or.inr (hDigit _ _ hIn)
  · exact Or.inr (hLiteral _ hDash hIn)
  · unfold counterField at hIn
    rcases List.mem_append.mp hIn with hZeros | hDigits
    · rw [List.eq_of_mem_replicate hZeros]
      exact Or.inr (by decide)
    · exact Or.inr (hDigit _ _ hDigits)

theorem length_newboundary (hostname : List Byte) (stamp : Stamp) :
    (newboundary hostname stamp).length ≤ 171 := by
  have hHost : (hostField hostname).length ≤ 128 := by
    unfold hostField
    split
    · exact Nat.le_of_ble_eq_true rfl
    · exact List.length_take_le _ _
  have hPid := length_decimalDigits_le 10 stamp.pid.toNat
  have hTime := length_decimalDigits_le 10 stamp.time.toNat
  have hCounter : (counterField stamp.counter.toNat).length ≤ 10 := by
    have hDigits := length_decimalDigits_le 10 stamp.counter.toNat
    unfold counterField
    rw [List.length_append, List.length_replicate]
    omega
  have hSign : (bytes "=_mimegpg-").length = 10 := rfl
  have hDash : (bytes "-").length = 1 := rfl
  unfold newboundary
  simp only [List.length_append]
  omega

theorem newboundary_oneLine {hostname : List Byte} (hHost : IsHostname hostname)
    (stamp : Stamp) : OneLine (newboundary hostname stamp) := by
  have hOut : ∀ b : Byte, b ∉ hostname → ¬ 32 ≤ b → b ∉ newboundary hostname stamp := by
    intro b hNone hLow hMem
    rcases mem_newboundary hMem with hIn | hHigh
    · exact hNone hIn
    · exact hLow hHigh
  constructor
  · exact hOut 0 hHost.1 (by decide)
  · exact hOut cr hHost.2.1 (by decide)
  · exact hOut nl hHost.2.2 (by decide)
  · have hLength := length_newboundary hostname stamp
    unfold bufsiz
    omega

/- What `get_boundary` says of the boundary that it chose. -/
theorem getBoundary_spec {errmsg hostname : List Byte} {fp : List (List Byte)}
    {stamps : List Stamp} (hHost : IsHostname hostname)
    (hSome : getBoundary stack errmsg fp hostname stamps = some boundary) :
    OneLine boundary ∧ ∀ piece, piece ∈ fp → startsBoundary boundary (cString piece) = false := by
  unfold getBoundary at hSome
  have hGood := List.find?_some hSome
  have hMem := List.mem_of_find?_eq_some hSome
  rcases List.mem_map.mp hMem with ⟨stamp, _, hMade⟩
  constructor
  · rw [← hMade]
    exact newboundary_oneLine hHost stamp
  · unfold goodBoundary at hGood
    simp only [Bool.and_eq_true, Bool.not_eq_true', List.any_eq_false] at hGood
    intro piece hIn
    exact Bool.eq_false_iff.mpr (hGood.2 piece hIn)

end Boundary

------------
-- Collecting the Signed Content
------------

section Collecting

variable {stack : MimeStack}

/- A line end that is written before the next piece. -/
def lineEnd (needNl : Bool) : List Byte :=
  if needNl then [cr, nl] else []

/- The first piece of a line is a part of it, or all of it. -/
theorem first_piece {line piece : List Byte} {more : List (List Byte)}
    (hMore : ∀ other, other ∈ more → IsPiece other)
    (hFlat : piece ++ more.flatten = line ++ [nl]) :
    (∃ back, line = piece ++ back ∧ more.flatten = back ++ [nl]) ∨
      (piece = line ++ [nl] ∧ more = []) := by
  rcases List.append_eq_append_iff.mp hFlat with ⟨back, hHere, hRest⟩ | ⟨back, hHere, hRest⟩
  · exact Or.inl ⟨back, hHere, hRest⟩
  · cases back with
    | nil =>
      refine Or.inl ⟨[], ?_, hRest.symm⟩
      rw [hHere, List.append_nil, List.append_nil]
    | cons b back =>
      rcases List.cons_eq_cons.mp hRest with ⟨hNl, hNone⟩
      have hEmpty := List.append_eq_nil_iff.mp hNone.symm
      right
      constructor
      · rw [hHere, hEmpty.1, ← hNl]
      · cases more with
        | nil => rfl
        | cons other more =>
          have hPiece := hMore other List.mem_cons_self
          have hFirst := List.flatten_eq_nil_iff.mp hEmpty.2 other List.mem_cons_self
          exact absurd hFirst hPiece.1

/- A piece in which no boundary is seen. -/
theorem collectContent_piece {check : Bool} {piece : List Byte}
    (hNone : (check && (isBoundary stack (cString piece)).isSome) = false) (needNl : Bool)
    (rest : List (List Byte)) :
    collectContent stack check needNl (piece :: rest) =
      lineEnd needNl ++ (cString piece).takeWhile (· ≠ nl) ++
        collectContent stack (nl ∈ cString piece) (nl ∈ cString piece) rest := by
  rw [collectContent, hNone]
  rfl

/- The pieces of a line give the line. -/
theorem collectContent_pieces {line : List Byte} (hLine : nl ∉ line) (hZero : 0 ∉ line)
    (needNl : Bool) {pieces : List (List Byte)}
    (hPieces : ∀ piece, piece ∈ pieces → IsPiece piece)
    (hFlat : pieces.flatten = line ++ [nl]) (rest : List (List Byte)) :
    collectContent stack false needNl (pieces ++ rest) = lineEnd needNl ++ line ++
        collectContent stack true true rest := by
  induction pieces generalizing line needNl with
  | nil => exact absurd hFlat.symm (List.append_ne_nil_of_right_ne_nil _ (List.cons_ne_nil nl []))
  | cons piece more ih =>
    have hMore : ∀ other, other ∈ more → IsPiece other :=
      fun other hMem => hPieces other (List.mem_cons_of_mem piece hMem)
    rw [List.cons_append, collectContent_piece (Bool.false_and _)]
    rcases first_piece hMore hFlat with ⟨back, hHere, hRest⟩ | ⟨hHere, hLast⟩
    · rw [hHere, List.mem_append, not_or] at hLine hZero
      have hNext := ih hLine.2 hZero.2 false hMore hRest
      rw [Authlib.cString_eq_self hZero.1, takeWhile_unclosed hLine.1, decide_eq_false hLine.1,
        hNext, hHere]
      simp [lineEnd]
    · have hClean : 0 ∉ line ++ [nl] := by
        intro hMem
        rcases List.mem_append.mp hMem with hIn | hNl
        · exact hZero hIn
        · exact absurd (List.mem_singleton.mp hNl) (by decide)
      have hSeen : nl ∈ line ++ [nl] := List.mem_append_right _ List.mem_cons_self
      rw [hHere, hLast, Authlib.cString_eq_self hClean, takeWhile_quoted hLine [],
        decide_eq_true hSeen, List.nil_append]

/- A line is collected unless it is a boundary line. -/
theorem collectContent_line {line : List Byte} (hLine : nl ∉ line) (hZero : 0 ∉ line)
    (needNl : Bool) (rest : List Byte) :
    collectContent stack true needNl (fgetsAll bufsiz (line ++ nl :: rest)) =
      if lineBoundary stack line then
        []
      else
        lineEnd needNl ++ line ++ collectContent stack true true (fgetsAll bufsiz rest) := by
  rcases fgetsAll_head hLine (nl :: rest) (Or.inr rfl) one_lt_bufsiz (by simp) with ⟨more, hHead⟩
  rcases @fgetsAll_pieces bufsiz line hLine rest with ⟨pieces, hPieces, hFlat, hSome⟩
  have hAll : ∀ piece, piece ∈ pieces → IsPiece piece := by
    intro piece hMem
    have hIn : piece ∈ fgetsAll bufsiz (line ++ nl :: rest) := by
      rw [hPieces]
      exact List.mem_append_left _ hMem
    exact mem_fgetsAll hIn
  have hClean : 0 ∉ (line ++ [nl]).take (bufsiz - 1) := by
    intro hMem
    rcases List.mem_append.mp (List.take_subset _ _ hMem) with hIn | hNl
    · exact hZero hIn
    · exact absurd (List.mem_singleton.mp hNl) (by decide)
  have hFirst : fgetsAll bufsiz (line ++ nl :: rest) =
      (line ++ [nl]).take (bufsiz - 1) :: more := hHead
  unfold lineBoundary
  cases hBoundary : isBoundary stack ((line ++ [nl]).take (bufsiz - 1)) with
  | some b =>
    rw [hFirst, collectContent, Authlib.cString_eq_self hClean, hBoundary]
    rfl
  | none =>
    have hNone : ∀ check, (check && (isBoundary stack (cString ((line ++ [nl]).take
          (bufsiz - 1)))).isSome) = false := by
      intro check
      rw [Authlib.cString_eq_self hClean, hBoundary]
      exact Bool.and_false check
    have hUnchecked : collectContent stack true needNl (fgetsAll bufsiz (line ++ nl :: rest)) =
        collectContent stack false needNl (fgetsAll bufsiz (line ++ nl :: rest)) := by
      rw [hFirst, collectContent_piece (hNone true), collectContent_piece (hNone false)]
    rw [hUnchecked, hPieces, collectContent_pieces hLine hZero needNl hAll hFlat]
    rfl

/-
  All of the text is collected, or less of it when it has a
  boundary line.
-/
def Collected (stack : MimeStack) (needNl : Bool) (text out : List Byte) : Prop :=
  (¬ HasBoundaryLine stack text ∧ out = lineEnd needNl ++ crlf text) ∨
    (HasBoundaryLine stack text ∧ out.length < (lineEnd needNl ++ crlf text).length)

theorem Collected.eq_iff {needNl : Bool} {text out : List Byte}
    (hCollected : Collected stack needNl text out) :
    out = lineEnd needNl ++ crlf text ↔ ¬ HasBoundaryLine stack text := by
  rcases hCollected with ⟨hNone, hEq⟩ | ⟨hSome, hLess⟩
  · exact ⟨fun _ => hNone, fun _ => hEq⟩
  · constructor
    · intro hEq
      rw [hEq] at hLess
      exact absurd hLess (Nat.lt_irrefl _)
    · intro hNone
      exact absurd hSome hNone

/- The last line of a text. -/
theorem collected_line {line : List Byte} (hLine : nl ∉ line) (needNl : Bool) :
    Collected stack needNl line (if lineBoundary stack line then
        []
      else
        lineEnd needNl ++ line) := by
  unfold Collected
  rw [hasBoundaryLine_line hLine, crlf_line hLine]
  cases hBoundary : lineBoundary stack line with
  | true =>
    right
    refine ⟨rfl, ?_⟩
    cases line with
    | nil =>
      rw [lineBoundary_nil] at hBoundary
      cases hBoundary
    | cons b line =>
      rw [if_pos rfl, List.length_append, List.length_cons]
      exact Nat.succ_pos _
  | false =>
    left
    exact ⟨Bool.false_ne_true, if_neg Bool.false_ne_true⟩

/- A line in front of a text. -/
theorem collected_cons {line text out : List Byte} (hLine : nl ∉ line) (needNl : Bool)
    (hOut : Collected stack true text out) :
    Collected stack needNl (line ++ nl :: text) (if lineBoundary stack line then
        []
      else
        lineEnd needNl ++ line ++ out) := by
  have hCrlf : crlf (line ++ nl :: text) = line ++ (lineEnd true ++ crlf text) := by
    rw [crlf_append, crlf_line hLine]
    rfl
  unfold Collected
  rw [hasBoundaryLine_append, hasBoundaryLine_line hLine, hCrlf]
  cases lineBoundary stack line with
  | true =>
    right
    refine ⟨Or.inl rfl, ?_⟩
    rw [if_pos rfl]
    have hTwo : (lineEnd true).length = 2 := rfl
    simp only [List.length_append, List.length_nil]
    omega
  | false =>
    rw [if_neg Bool.false_ne_true]
    rcases hOut with ⟨hNone, hEq⟩ | ⟨hSome, hLess⟩
    · left
      refine ⟨?_, ?_⟩
      · rw [not_or]
        exact ⟨Bool.false_ne_true, hNone⟩
      · rw [hEq, List.append_assoc]
    · right
      refine ⟨Or.inr hSome, ?_⟩
      simp only [List.length_append] at hLess ⊢
      omega

/- What is collected of a text, up to its first boundary line. -/
theorem collectContent_text {text : List Byte} (hZero : 0 ∉ text) (needNl : Bool)
    {rest : List Byte}
    (hRest : collectContent stack true true (fgetsAll bufsiz rest) = []) :
    Collected stack needNl text (collectContent stack true needNl
        (fgetsAll bufsiz (text ++ nl :: rest))) := by
  revert hZero needNl
  apply line_induction (P := fun text => 0 ∉ text →
    ∀ needNl, Collected stack needNl text (collectContent stack true needNl
        (fgetsAll bufsiz (text ++ nl :: rest))))
  · intro line hLine hZero needNl
    rw [collectContent_line hLine hZero, hRest, List.append_nil]
    exact collected_line hLine needNl
  · intro line more hLine ih hZero needNl
    rw [List.mem_append, List.mem_cons, not_or, not_or] at hZero
    rw [List.append_assoc, List.cons_append, collectContent_line hLine hZero.1]
    exact collected_cons hLine needNl (ih hZero.2.2 true)

end Collecting

section Entity

variable {boundary : List Byte} {stack : MimeStack}

/- The line that the signed content stands behind. -/
theorem isBoundary_own (boundary : List Byte) : isBoundary (boundary :: stack)
        (bytes "--" ++ boundary ++ [nl]) =
      some (boundary, false) := by
  have hPrefix : casePrefix boundary (boundary ++ [nl]) = true := by
    unfold casePrefix
    rw [List.map_append, List.isPrefixOf_iff_prefix]
    exact List.prefix_append _ _
  have hFind : searchMimestack (boundary :: stack) (boundary ++ [nl]) = some boundary := by
    unfold searchMimestack
    exact List.find?_cons_of_pos hPrefix
  have hLine : bytes "--" ++ boundary ++ [nl] =
      chr '-' :: chr '-' :: (boundary ++ [nl]) := rfl
  rw [hLine]
  unfold isBoundary
  simp only [hFind, List.drop_left]
  rfl

theorem fgetsAll_own (hText : OneLine boundary) (rest : List Byte) :
    fgetsAll bufsiz (bytes "--" ++ boundary ++ nl :: rest) =
        (bytes "--" ++ boundary ++ [nl]) ::
          fgetsAll bufsiz rest ∧
      cString (bytes "--" ++ boundary ++ [nl]) =
        bytes "--" ++ boundary ++ [nl] := by
  have hDashes : bytes "--" = [chr '-', chr '-'] := rfl
  have hLine : nl ∉ bytes "--" ++ boundary := by
    rw [hDashes, List.mem_append, not_or]
    exact ⟨by decide, hText.nl⟩
  have hZero : 0 ∉ bytes "--" ++ boundary ++ [nl] := by
    rw [hDashes, List.mem_append, List.mem_append, not_or, not_or]
    exact ⟨⟨by decide, hText.zero⟩, by decide⟩
  have hShort := hText.short
  constructor
  · apply fgetsAll_line hLine
    rw [hDashes, List.length_append]
    exact Nat.lt_of_le_of_lt (by simp; omega) hShort
  · exact Authlib.cString_eq_self hZero

/- A line of the preamble. -/
theorem findBoundary_line {line : List Byte} (hOther : line.head? ≠ some (chr '-'))
    (hLine : nl ∉ line) (hZero : 0 ∉ line) (hShort : line.length + 1 < bufsiz)
    (rest : List Byte) :
    findBoundary false stack (fgetsAll bufsiz (line ++ nl :: rest)) =
      findBoundary false stack (fgetsAll bufsiz rest) := by
  have hClean : 0 ∉ line ++ [nl] := by
    rw [List.mem_append, not_or]
    exact ⟨hZero, by decide⟩
  have hSeen : nl ∈ line ++ [nl] := List.mem_append_right _ List.mem_cons_self
  have hNone : isBoundary stack (line ++ [nl]) = none := by
    match line with
    | [] => rfl
    | [b] =>
      have hB : b ≠ chr '-' := fun hEq => hOther (congrArg some hEq)
      simp [isBoundary, hB]
    | b :: c :: line =>
      have hB : b ≠ chr '-' := fun hEq => hOther (congrArg some hEq)
      simp [isBoundary, hB]
  rw [fgetsAll_line hLine hShort, findBoundary, Authlib.cString_eq_self hClean, hNone]
  simp

/- The characters of a line of the preamble, with its end. -/
def preambleLine (l : List Char) : Bool :=
  l.getLast? == some '\n' && l.dropLast.all (fun c => c.toUInt8 != nl && c.toUInt8 != 0) &&
    (l.dropLast.map Char.toUInt8).head? != some (chr '-') &&
    l.length.ble 100

theorem findBoundary_chars {l : List Char} (hLine : preambleLine l = true) (rest : List Byte) :
    findBoundary false stack (fgetsAll bufsiz (bytes (String.ofList l) ++ rest)) =
      findBoundary false stack (fgetsAll bufsiz rest) := by
  unfold preambleLine at hLine
  simp only [Bool.and_eq_true, beq_iff_eq, bne_iff_ne, List.all_eq_true, Nat.ble_eq] at hLine
  rcases hLine with ⟨⟨⟨hLast, hAll⟩, hHead⟩, hLength⟩
  rcases List.getLast?_eq_some_iff.mp hLast with ⟨front, hL⟩
  subst hL
  rw [List.dropLast_concat] at hAll hHead
  have hBytes : bytes (String.ofList (front ++ ['\n'])) ++ rest =
      front.map Char.toUInt8 ++ nl :: rest := by
    rw [bytes_ofList, List.map_append, List.append_assoc]
    rfl
  rw [hBytes]
  apply findBoundary_line hHead
  · intro hMem
    rcases List.mem_map.mp hMem with ⟨c, hIn, hEq⟩
    exact (hAll c hIn).1 hEq
  · intro hMem
    rcases List.mem_map.mp hMem with ⟨c, hIn, hEq⟩
    exact (hAll c hIn).2 hEq
  · rw [List.length_append, List.length_singleton] at hLength
    rw [List.length_map]
    unfold bufsiz
    omega

/- The text above the first boundary line is skipped. -/
theorem findBoundary_preamble (hText : OneLine boundary) (rest : List Byte) :
    findBoundary false (boundary :: stack) (fgetsAll bufsiz (signedPreamble ++ nl ::
            (bytes "--" ++ boundary ++ nl :: rest))) =
      some (boundary :: stack, fgetsAll bufsiz rest) := by
  rcases fgetsAll_own hText rest with ⟨hPieces, hSeen⟩
  have hEmpty := @findBoundary_line (boundary :: stack) []
    nofun List.not_mem_nil List.not_mem_nil one_lt_bufsiz
    (bytes "--" ++ boundary ++ nl :: rest)
  unfold signedPreamble
  rw [List.append_assoc]
  refine (findBoundary_chars rfl _).trans ?_
  refine (findBoundary_chars rfl _).trans ?_
  refine hEmpty.trans ?_
  rw [hPieces, findBoundary, hSeen, isBoundary_own]
  rfl

/- The signed content ends at the next boundary line. -/
theorem collectContent_own (hText : OneLine boundary) (rest : List Byte) :
    collectContent (boundary :: stack) true true (fgetsAll bufsiz
          (bytes "--" ++ boundary ++ nl :: rest)) = [] := by
  rcases fgetsAll_own hText rest with ⟨hPieces, hSeen⟩
  rw [hPieces, collectContent, hSeen, isBoundary_own]
  rfl

end Entity

------------
-- Signing and Checking
------------

section Checking

variable {stack : MimeStack} {h : List (List Byte)} {input : List Byte}
variable {hostname : List Byte} {stamps : List Stamp} {gpg : List Byte → List Byte} {out : Signed}

/-
  The body is the preamble, the text without its carriage
  returns between two boundary lines, and what is behind it.
-/
theorem dogpgsign_spec (hHost : IsHostname hostname)
    (hSigned : dogpgsign stack h (fgetsAll bufsiz input) hostname stamps gpg = some out) :
    OneLine out.boundary ∧ out.signed = crlf (plainSigned stack h (fgetsAll bufsiz input)) ∧
      (∃ rest, out.body =
        signedPreamble ++ nl ::
          (bytes "--" ++ out.boundary ++ nl ::
            (plainSigned stack h (fgetsAll bufsiz input) ++
              nl :: (bytes "--" ++ out.boundary ++
                nl :: rest)))) ∧
      ∀ line, line ∈ (plainSigned stack h (fgetsAll bufsiz input)).splitOn nl →
        startsBoundary out.boundary (line.take (bufsiz - 1)) = false := by
  unfold dogpgsign at hSigned
  cases hBoundary : getBoundary stack [] (fgetsAll bufsiz
        (signedContent stack h (fgetsAll bufsiz input)))
      hostname stamps with
  | none =>
    simp only [hBoundary] at hSigned
    cases hSigned
  | some boundary =>
    simp only [hBoundary, Option.some.injEq] at hSigned
    subst hSigned
    rcases getBoundary_spec hHost hBoundary with ⟨hText, hClear⟩
    have hPlain : ∀ b, b ∈ plainSigned stack h (fgetsAll bufsiz input) → IsPlain b :=
      fun b hMem => mem_plainSigned hMem
    have hZero := zero_not_mem_crlf fun hMem => (hPlain 0 hMem).1 rfl
    have hDashes : bytes "\n--" = nl :: bytes "--" := rfl
    rcases signed_texts hPlain with ⟨hSigned, hBody⟩
    unfold visible at hBody
    rw [signedContent_eq] at hClear ⊢
    refine ⟨hText, hSigned, ?_, ?_⟩
    · refine ⟨bytes "Content-Type: application/pgp-signature\n" ++
        bytes "Content-Transfer-Encoding: 7bit\n\n" ++
        gpg (crlf (plainSigned stack h (fgetsAll bufsiz input))) ++
        bytes "\n--" ++ boundary ++ bytes "--\n" ++
        closingLine (signContent stack true (fgetsAll bufsiz input)).2.1, ?_⟩
      simp only [hSigned, hBody, hDashes, List.append_assoc, List.cons_append, List.nil_append]
    · apply clear_lines hText
      intro piece hMem
      have hSeen : 0 ∉ piece := by
        intro hIn
        apply hZero
        rw [← @fgetsAll_flatten bufsiz (crlf (plainSigned stack h (fgetsAll bufsiz input)))]
        exact List.mem_flatten_of_mem hMem hIn
      rw [← Authlib.cString_eq_self hSeen]
      exact hClear piece hMem

/-
  What is recovered from the written entity: all of the text
  that gpg was given, or less of it when a boundary line comes
  to light.
-/
theorem checksign_collected (hHost : IsHostname hostname)
    (hSigned : dogpgsign stack h (fgetsAll bufsiz input)
      hostname stamps gpg = some out) (tail : List Byte) :
    ∃ collected, checksign (out.boundary :: stack) (fgetsAll bufsiz (out.body ++ tail)) =
        some collected ∧
      (collected = out.signed ↔ ¬ HidesBoundary stack h (fgetsAll bufsiz input)) := by
  rcases dogpgsign_spec hHost hSigned with ⟨hText, hGiven, ⟨rest, hBody⟩, hClear⟩
  have hZero : 0 ∉ plainSigned stack h (fgetsAll bufsiz input) :=
    fun hMem => (mem_plainSigned hMem).1 rfl
  have hEnd := @collectContent_own out.boundary stack hText (rest ++ tail)
  have hCollected := collectContent_text hZero false hEnd
  have hFind := @findBoundary_preamble out.boundary stack hText
    (plainSigned stack h (fgetsAll bufsiz input) ++ nl ::
      (bytes "--" ++ out.boundary ++ nl :: (rest ++ tail)))
  have hFile : out.body ++ tail = signedPreamble ++ nl ::
        (bytes "--" ++ out.boundary ++ nl ::
          (plainSigned stack h (fgetsAll bufsiz input) ++ nl ::
            (bytes "--" ++ out.boundary ++ nl ::
              (rest ++ tail)))) := by
    rw [hBody]
    simp only [List.append_assoc, List.cons_append]
  have hPieces : ∀ piece, piece ∈ fgetsAll bufsiz input → IsPiece piece :=
    fun piece hMem => mem_fgetsAll hMem
  unfold checksign
  rw [hFile, hFind, hGiven, ← hasBoundaryLine_plain h hPieces, ← hasBoundaryLine_cons hText hClear]
  exact ⟨_, rfl, hCollected.eq_iff⟩

/-
  What is recovered from the written entity is what gpg was
  given, exactly when no boundary line of an enclosing part
  comes to light in it.
-/
theorem checksign_dogpgsign_iff (hHost : IsHostname hostname)
    (hSigned : dogpgsign stack h (fgetsAll bufsiz input)
      hostname stamps gpg = some out) (tail : List Byte) :
    checksign (out.boundary :: stack) (fgetsAll bufsiz (out.body ++ tail)) =
      some out.signed ↔ ¬ HidesBoundary stack h (fgetsAll bufsiz input) := by
  rcases checksign_collected hHost hSigned tail with ⟨collected, hCheck, hIff⟩
  rw [hCheck, Option.some.injEq]
  exact hIff

/- A boundary is all that signing needs. -/
theorem exists_dogpgsign
    (hSome : (getBoundary stack []
      (fgetsAll bufsiz (signedContent stack h (fgetsAll bufsiz input)))
      hostname stamps).isSome = true) :
    ∃ out, dogpgsign stack h (fgetsAll bufsiz input) hostname stamps gpg = some out := by
  rcases Option.isSome_iff_exists.mp hSome with ⟨boundary, hBoundary⟩
  unfold dogpgsign
  simp only [hBoundary]
  exact ⟨_, rfl⟩

end Checking

theorem isHostname_host : IsHostname (bytes "host") := by
  unfold IsHostname
  decide

/- A message of one line. -/
theorem checksign_dogpgsign_hello : ∃ out, dogpgsign [] [bytes "Content-Type: text/plain\n"]
          (fgetsAll bufsiz (bytes "Hello\n")) (bytes "host")
          [⟨7, 9, 1⟩] (fun _ => bytes "signature\n") =
        some out ∧
      checksign [out.boundary] (fgetsAll bufsiz (out.body ++ [])) = some out.signed := by
  have hClear : ¬ HidesBoundary []
      [bytes "Content-Type: text/plain\n"]
      (fgetsAll bufsiz (bytes "Hello\n")) := by
    decide
  rcases @exists_dogpgsign []
    [bytes "Content-Type: text/plain\n"] (bytes "Hello\n")
    (bytes "host") [⟨7, 9, 1⟩] (fun _ => bytes "signature\n")
    (by decide) with ⟨out, hOut⟩
  exact ⟨out, hOut, (checksign_dogpgsign_iff isHostname_host hOut []).mpr hClear⟩

/-
  A carriage return hides the boundary of the enclosing part
  from the signer, and it is dropped from the message.
-/
theorem checksign_dogpgsign_hidden : ∃ out, dogpgsign [bytes "x"]
          [bytes "Content-Type: text/plain\n"]
          (fgetsAll bufsiz (bytes "\r--x\n--x--\n"))
          (bytes "host") [⟨7, 9, 1⟩]
          (fun _ => bytes "signature\n") =
        some out ∧
      checksign [out.boundary, bytes "x"] (fgetsAll bufsiz (out.body ++ [])) ≠
        some out.signed := by
  have hHidden : HidesBoundary [bytes "x"]
      [bytes "Content-Type: text/plain\n"]
      (fgetsAll bufsiz (bytes "\r--x\n--x--\n")) := by
    decide
  rcases @exists_dogpgsign [bytes "x"]
    [bytes "Content-Type: text/plain\n"]
    (bytes "\r--x\n--x--\n") (bytes "host") [⟨7, 9, 1⟩]
    (fun _ => bytes "signature\n") (by decide) with
    ⟨out, hOut⟩
  rcases checksign_collected isHostname_host hOut [] with ⟨collected, hCheck, hIff⟩
  refine ⟨out, hOut, ?_⟩
  intro hEq
  rw [hCheck, Option.some.injEq] at hEq
  exact hIff.mp hEq hHidden

end Wmail.Gpglib
