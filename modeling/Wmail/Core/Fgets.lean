import Wmail.Core.Lines

/-
  The pieces of a text that `fgets` reads one after the other.

  Key theorems include:
    * `fgetsAll_pieces`
    * `crlf_filter`
-/

namespace Wmail

section Pieces

variable (size : Nat)

/-
  What `fgets` reads into a buffer of `size` bytes, one after
  the other and with the newlines, when `line` is in the
  buffer already.
-/
def fgetsAllFrom (line : List Byte) : List Byte → List (List Byte)
  | [] => if line = [] then [] else [line]
  | b :: rest =>
    if b = nl then
      (line ++ [b]) :: fgetsAllFrom [] rest
    else if line.length + 2 < size then
      fgetsAllFrom (line ++ [b]) rest
    else
      (line ++ [b]) :: fgetsAllFrom [] rest

def fgetsAll (text : List Byte) : List (List Byte) :=
  fgetsAllFrom size [] text

variable {size}

theorem fgetsAllFrom_flatten (line text : List Byte) :
    (fgetsAllFrom size line text).flatten = line ++ text := by
  induction text generalizing line with
  | nil =>
    unfold fgetsAllFrom
    split
    · rename_i hNone
      simp [hNone]
    · simp
  | cons b rest ih =>
    unfold fgetsAllFrom
    split
    · simp [ih]
    · split
      · simp [ih]
      · simp [ih]

/- Nothing is lost. -/
theorem fgetsAll_flatten (text : List Byte) : (fgetsAll size text).flatten = text :=
  fgetsAllFrom_flatten [] text

/- A newline ends its piece. -/
def IsPiece (piece : List Byte) : Prop :=
  piece ≠ [] ∧ ∃ line, nl ∉ line ∧ (piece = line ∨ piece = line ++ [nl])

theorem isPiece_append {line : List Byte} (hLine : nl ∉ line) (b : Byte) :
    IsPiece (line ++ [b]) := by
  refine ⟨List.append_ne_nil_of_right_ne_nil _ (List.cons_ne_nil b []), ?_⟩
  by_cases hNl : b = nl
  · exact ⟨line, hLine, Or.inr (by rw [hNl])⟩
  · refine ⟨line ++ [b], ?_, Or.inl rfl⟩
    intro hMem
    rcases List.mem_append.mp hMem with hOld | hNew
    · exact hLine hOld
    · exact hNl (List.mem_singleton.mp hNew).symm

theorem mem_fgetsAllFrom {line text piece : List Byte} (hLine : nl ∉ line)
    (hMem : piece ∈ fgetsAllFrom size line text) : IsPiece piece := by
  induction text generalizing line with
  | nil =>
    unfold fgetsAllFrom at hMem
    split at hMem
    · cases hMem
    · rename_i hSome
      rw [List.mem_singleton.mp hMem]
      exact ⟨hSome, line, hLine, Or.inl rfl⟩
  | cons b rest ih =>
    have hNil : nl ∉ ([] : List Byte) := List.not_mem_nil
    unfold fgetsAllFrom at hMem
    split at hMem
    · rcases List.mem_cons.mp hMem with hHere | hMore
      · rw [hHere]
        exact isPiece_append hLine b
      · exact ih hNil hMore
    · rename_i hOther
      split at hMem
      · apply ih _ hMem
        intro hIn
        rcases List.mem_append.mp hIn with hOld | hNew
        · exact hLine hOld
        · exact hOther (List.mem_singleton.mp hNew).symm
      · rcases List.mem_cons.mp hMem with hHere | hMore
        · rw [hHere]
          exact isPiece_append hLine b
        · exact ih hNil hMore

theorem mem_fgetsAll {text piece : List Byte} (hMem : piece ∈ fgetsAll size text) :
    IsPiece piece :=
  mem_fgetsAllFrom List.not_mem_nil hMem

/-
  The first piece of a line holds as much of it as there is
  room for.
-/
theorem fgetsAllFrom_head {front line rest : List Byte} (hLine : nl ∉ line)
    (hRest : rest = [] ∨ rest.head? = some nl) (hRoom : front.length + 1 < size)
    (hSome : front ++ line ++ rest ≠ []) :
    ∃ more, fgetsAllFrom size front (line ++ rest) =
        (front ++ line ++ rest.take 1).take (size - 1) :: more := by
  induction line generalizing front with
  | nil =>
    have hFits : ∀ b, (front ++ [b]).length ≤ size - 1 := by
      intro b
      rw [List.length_append, List.length_singleton]
      exact Nat.le_sub_one_of_lt hRoom
    rcases hRest with hNone | hNl
    · subst hNone
      rw [List.append_nil, List.append_nil] at hSome
      refine ⟨[], ?_⟩
      rw [List.nil_append, List.append_nil]
      unfold fgetsAllFrom
      rw [if_neg hSome, List.take_nil, List.append_nil, List.take_of_length_le]
      exact Nat.le_sub_one_of_lt (Nat.lt_of_succ_lt hRoom)
    · cases rest with
      | nil => cases hNl
      | cons b rest =>
        cases Option.some.inj hNl
        refine ⟨fgetsAllFrom size [] rest, ?_⟩
        rw [List.nil_append, List.append_nil, fgetsAllFrom, if_pos rfl, List.take_succ_cons,
          List.take_zero, List.take_of_length_le (hFits nl)]
  | cons b line ih =>
    have hOther : b ≠ nl := (List.ne_of_not_mem_cons hLine).symm
    have hMore : nl ∉ line := List.not_mem_of_not_mem_cons hLine
    have hShift : front ++ b :: line = front ++ [b] ++ line := by
      rw [List.append_assoc, List.singleton_append]
    rw [List.cons_append, fgetsAllFrom, if_neg hOther]
    split
    · rename_i hFits
      have hNext : (front ++ [b]).length + 1 < size := by
        rw [List.length_append, List.length_singleton]
        exact hFits
      rw [hShift]
      exact ih hMore hNext (by simp)
    · rename_i hFull
      have hLength : (front ++ [b]).length = size - 1 := by
        rw [List.length_append, List.length_singleton]
        omega
      refine ⟨fgetsAllFrom size [] (line ++ rest), ?_⟩
      rw [hShift, List.append_assoc (front ++ [b]), List.take_append_of_le_length (Nat.le_of_eq
          hLength.symm), List.take_of_length_le (Nat.le_of_eq hLength)]

theorem fgetsAll_head {line : List Byte} (hLine : nl ∉ line) (rest : List Byte)
    (hRest : rest = [] ∨ rest.head? = some nl) (hRoom : 1 < size) (hSome : line ++ rest ≠ []) :
    ∃ more, fgetsAll size (line ++ rest) = (line ++ rest.take 1).take (size - 1) :: more := by
  have hFrom := @fgetsAllFrom_head size [] line rest hLine
    hRest (by simpa using hRoom) (by simpa using hSome)
  rw [List.nil_append] at hFrom
  exact hFrom

/- The pieces of a line, and then those behind it. -/
theorem fgetsAllFrom_pieces (front : List Byte) {line : List Byte} (hLine : nl ∉ line)
    (rest : List Byte) :
    ∃ pieces, fgetsAllFrom size front (line ++ nl :: rest) = pieces ++ fgetsAll size rest ∧
      pieces.flatten = front ++ line ++ [nl] ∧
      pieces ≠ [] := by
  induction line generalizing front with
  | nil =>
    refine ⟨[front ++ [nl]], ?_, ?_, List.cons_ne_nil _ _⟩
    · rw [List.nil_append, fgetsAllFrom, if_pos rfl]
      rfl
    · simp
  | cons b line ih =>
    have hOther : b ≠ nl := (List.ne_of_not_mem_cons hLine).symm
    have hMore : nl ∉ line := List.not_mem_of_not_mem_cons hLine
    have hShift : front ++ b :: line = front ++ [b] ++ line := by
      rw [List.append_assoc, List.singleton_append]
    rw [List.cons_append, fgetsAllFrom, if_neg hOther, hShift]
    split
    · exact ih (front ++ [b]) hMore
    · rcases ih [] hMore with ⟨pieces, hPieces, hFlat, _⟩
      refine ⟨(front ++ [b]) :: pieces, ?_, ?_, List.cons_ne_nil _ _⟩
      · rw [hPieces, List.cons_append]
      · rw [List.flatten_cons, hFlat, List.nil_append, List.append_assoc (front ++ [b])]

theorem fgetsAll_pieces {line : List Byte} (hLine : nl ∉ line) (rest : List Byte) :
    ∃ pieces, fgetsAll size (line ++ nl :: rest) = pieces ++ fgetsAll size rest ∧
      pieces.flatten = line ++ [nl] ∧
      pieces ≠ [] := by
  have hFrom := @fgetsAllFrom_pieces size [] line hLine rest
  rw [List.nil_append] at hFrom
  exact hFrom

/- A line that fits is one piece. -/
theorem fgetsAllFrom_line {front line : List Byte} (hLine : nl ∉ line)
    (hShort : front.length + line.length + 1 < size) (rest : List Byte) :
    fgetsAllFrom size front (line ++ nl :: rest) =
      (front ++ line ++ [nl]) :: fgetsAll size rest := by
  induction line generalizing front with
  | nil =>
    rw [List.nil_append, List.append_nil, fgetsAllFrom, if_pos rfl]
    rfl
  | cons b line ih =>
    have hOther : b ≠ nl := (List.ne_of_not_mem_cons hLine).symm
    have hMore : nl ∉ line := List.not_mem_of_not_mem_cons hLine
    rw [List.length_cons] at hShort
    have hFits : front.length + 2 < size := by omega
    have hNext : (front ++ [b]).length + line.length + 1 < size := by
      rw [List.length_append, List.length_singleton]
      omega
    have hShift : front ++ b :: line = front ++ [b] ++ line := by
      rw [List.append_assoc, List.singleton_append]
    rw [List.cons_append, fgetsAllFrom, if_neg hOther, if_pos hFits, hShift]
    exact ih hMore hNext

theorem fgetsAll_line {line : List Byte} (hLine : nl ∉ line)
    (hShort : line.length + 1 < size) (rest : List Byte) :
    fgetsAll size (line ++ nl :: rest) = (line ++ [nl]) :: fgetsAll size rest := by
  have hFrom := @fgetsAllFrom_line size [] line hLine (by simpa using hShort) rest
  rw [List.nil_append] at hFrom
  exact hFrom

end Pieces

/- A text is a line, or a line with a text behind it. -/
theorem line_cases (text : List Byte) : nl ∉ text ∨ ∃ line rest,
      nl ∉ line ∧ text = line ++ nl :: rest := by
  by_cases hMem : nl ∈ text
  · rcases List.append_of_mem hMem with ⟨front, back, hText⟩
    induction front generalizing text back with
    | nil => exact Or.inr ⟨[], back, List.not_mem_nil, hText⟩
    | cons b front ih =>
      by_cases hNl : b = nl
      · subst hNl
        exact Or.inr ⟨[], front ++ nl :: back, List.not_mem_nil, hText⟩
      · have hIn : nl ∈ front ++ nl :: back := List.mem_append_right _ List.mem_cons_self
        rcases ih (front ++ nl :: back) hIn back rfl with hNone | ⟨line, rest, hLine, hEq⟩
        · exact absurd hIn hNone
        · refine Or.inr ⟨b :: line, rest, ?_, ?_⟩
          · rw [List.mem_cons, not_or]
            exact ⟨fun hEq => hNl hEq.symm, hLine⟩
          · rw [hText, List.cons_append, hEq, List.cons_append]
  · exact Or.inl hMem

/- Induction over the lines of a text. -/
theorem line_induction {P : List Byte → Prop} (hLast : ∀ line, nl ∉ line → P line)
    (hMore : ∀ line rest, nl ∉ line → P rest →
      P (line ++ nl :: rest)) (text : List Byte) : P text := by
  generalize hLength : text.length = n
  induction n using Nat.strongRecOn generalizing text with
  | ind n ih =>
    rcases line_cases text with hLine | ⟨line, rest, hLine, hEq⟩
    · exact hLast text hLine
    · subst hEq
      apply hMore line rest hLine
      apply ih rest.length _ rest rfl
      rw [← hLength, List.length_append, List.length_cons]
      omega

/- Every newline with a carriage return before it. -/
def crlf (text : List Byte) : List Byte :=
  text.flatMap fun b => if b = nl then [cr, nl] else [b]

@[simp] theorem crlf_nil : crlf [] = [] :=
  rfl

@[simp] theorem crlf_append (front rest : List Byte) :
    crlf (front ++ rest) = crlf front ++ crlf rest := by
  unfold crlf
  exact List.flatMap_append

theorem crlf_cons_nl (rest : List Byte) : crlf (nl :: rest) = cr :: nl :: crlf rest :=
  rfl

theorem crlf_cons {b : Byte} (hOther : b ≠ nl) (rest : List Byte) :
    crlf (b :: rest) = b :: crlf rest := by
  unfold crlf
  rw [List.flatMap_cons, if_neg hOther]
  rfl

/- A line stays as it is. -/
theorem crlf_line {line : List Byte} (hLine : nl ∉ line) : crlf line = line := by
  induction line with
  | nil => rfl
  | cons b line ih =>
    rw [List.mem_cons, not_or] at hLine
    rw [crlf_cons (fun hEq => hLine.1 hEq.symm), ih hLine.2]

/- Without carriage returns the text comes back. -/
theorem crlf_filter {text : List Byte} (hText : cr ∉ text) :
    (crlf text).filter (· ≠ cr) = text := by
  induction text with
  | nil => rfl
  | cons b text ih =>
    rw [List.mem_cons, not_or] at hText
    have hRest := ih hText.2
    by_cases hNl : b = nl
    · subst hNl
      rw [crlf_cons_nl, List.filter_cons_of_neg (by decide),
        List.filter_cons_of_pos (by decide), hRest]
    · have hKept : decide (b ≠ cr) = true := decide_eq_true fun hEq => hText.1 hEq.symm
      rw [crlf_cons hNl, List.filter_cons, if_pos hKept, hRest]

end Wmail
