import Wmail.Core.Bytes
import Mathlib.Data.List.Infix

/-
  Lines of a text and their lengths.

  Key theorems include:
    * `fgetsLines_line`
    * `not_mem_of_mem_fgetsLines`
-/

namespace Wmail

/-
  No line has more than `limit` bytes: every piece of the
  text without a newline is that short.
-/
def LinesAtMost (limit : Nat) (text : List Byte) : Prop :=
  ∀ line, line <:+: text → nl ∉ line → line.length ≤ limit

/-
  No line has more than `limit` bytes, when `col` bytes of
  the first one have been read already.
-/
def linesFit (limit col : Nat) (text : List Byte) : Prop :=
  match text with
  | [] => col ≤ limit
  | c :: rest =>
    if c = nl then col ≤ limit ∧ linesFit limit 0 rest else linesFit limit (col + 1) rest

/- A text without newline lengthens the current line. -/
theorem linesFit_line (limit col : Nat) (line rest : List Byte) (hLine : nl ∉ line) :
    linesFit limit col (line ++ rest) ↔ linesFit limit (col + line.length) rest := by
  induction line generalizing col with
  | nil => simp
  | cons c line ih =>
    have hParts : nl ≠ c ∧ nl ∉ line := by simpa using hLine
    rw [List.cons_append, linesFit, if_neg hParts.1.symm, ih _ hParts.2, List.length_cons]
    rw [show col + 1 + line.length = col + (line.length + 1) by omega]

/- A line is complete at its newline. -/
theorem linesFit_nl (limit col : Nat) (rest : List Byte) :
    linesFit limit col (nl :: rest) ↔ col ≤ limit ∧ linesFit limit 0 rest := by
  simp [linesFit]

theorem linesFit_mono {limit col less : Nat} {text : List Byte}
    (hFit : linesFit limit col text) (hLess : less ≤ col) : linesFit limit less text := by
  induction text generalizing col less with
  | nil => exact hLess.trans hFit
  | cons c text ih =>
    unfold linesFit at hFit ⊢
    split
    · next hLine =>
        rw [if_pos hLine] at hFit
        exact ⟨hLess.trans hFit.1, hFit.2⟩
    · next hLine =>
        rw [if_neg hLine] at hFit
        exact ih hFit (by omega)

theorem LinesAtMost.of_linesFit {limit col : Nat} {text : List Byte}
    (hFit : linesFit limit col text) : LinesAtMost limit text := by
  rintro line ⟨front, rest, rfl⟩ hLine
  induction front generalizing col with
  | nil =>
    rw [List.nil_append, linesFit_line _ _ _ _ hLine] at hFit
    have hZero := linesFit_mono hFit (Nat.le_add_left _ _)
    clear hFit
    induction rest generalizing line with
    | nil => exact hZero
    | cons c rest ih =>
      by_cases hNl : c = nl
      · subst c
        exact ((linesFit_nl _ _ _).mp hZero).1
      · rw [linesFit, if_neg hNl] at hZero
        have hNext : nl ∉ line ++ [c] := by
          rw [List.mem_append, List.mem_singleton]
          rintro (hMem | hMem)
          · exact hLine hMem
          · exact hNl hMem.symm
        have hMore := ih (line ++ [c]) hNext (by simpa using hZero)
        rw [List.length_append] at hMore
        omega
  | cons c front ih =>
    simp only [List.cons_append] at hFit
    unfold linesFit at hFit
    split at hFit
    · exact ih hFit.2
    · exact ih hFit

/-
  The lines of a text, without their newlines, when `line`
  has been read of the first one already.  The last line may
  lack its newline.
-/
def linesFrom (line : List Byte) : List Byte → List (List Byte)
  | [] => if line = [] then [] else [line]
  | b :: rest =>
    if b = nl then line :: linesFrom [] rest else linesFrom (line ++ [b]) rest

def linesOf (text : List Byte) : List (List Byte) :=
  linesFrom [] text

theorem linesFrom_line (front : List Byte) {line : List Byte} (hLine : nl ∉ line)
    (rest : List Byte) : linesFrom front (line ++ rest) = linesFrom (front ++ line) rest := by
  induction line generalizing front with
  | nil => rw [List.nil_append, List.append_nil]
  | cons b more ih =>
    rw [List.mem_cons, not_or] at hLine
    rw [List.cons_append, linesFrom, if_neg (fun hEq => hLine.1 hEq.symm), ih _ hLine.2,
      List.append_assoc, List.singleton_append]

/- A line ends at its newline. -/
theorem linesOf_line {line : List Byte} (hLine : nl ∉ line) (rest : List Byte) :
    linesOf (line ++ nl :: rest) = line :: linesOf rest := by
  unfold linesOf
  rw [linesFrom_line [] hLine, List.nil_append, linesFrom, if_pos rfl]

theorem not_mem_of_mem_linesFrom {front text line : List Byte} (hFront : nl ∉ front)
    (hMem : line ∈ linesFrom front text) : nl ∉ line := by
  induction text generalizing front with
  | nil =>
    rw [linesFrom] at hMem
    split at hMem
    · cases hMem
    · rwa [List.mem_singleton.mp hMem]
  | cons b rest ih =>
    rw [linesFrom] at hMem
    split at hMem
    · rcases List.mem_cons.mp hMem with hHere | hMore
      · rwa [hHere]
      · exact ih List.not_mem_nil hMore
    · rename_i hOther
      apply ih _ hMem
      simp only [List.mem_append, List.mem_singleton]
      rintro (hOld | hNew)
      · exact hFront hOld
      · exact hOther hNew.symm

/- No line has a newline left. -/
theorem not_mem_of_mem_linesOf {text line : List Byte} (hMem : line ∈ linesOf text) : nl ∉ line :=
  not_mem_of_mem_linesFrom List.not_mem_nil hMem

/- Whole lines come back as they were. -/
theorem linesOf_flatMap {lines : List (List Byte)}
    (hLines : ∀ line, line ∈ lines → nl ∉ line) (rest : List Byte) :
    linesOf (lines.flatMap (· ++ [nl]) ++ rest) = lines ++ linesOf rest := by
  induction lines with
  | nil => rfl
  | cons line more ih =>
    have hMore : ∀ other, other ∈ more → nl ∉ other :=
      fun other hMem => hLines other (List.mem_cons_of_mem line hMem)
    rw [List.flatMap_cons, List.append_assoc, List.append_assoc, List.singleton_append,
      linesOf_line (hLines line List.mem_cons_self), ih hMore, List.cons_append]

section Fgets

variable (size : Nat)

/-
  The lines that `fgets` reads into a buffer of `size` bytes,
  one after the other and without their newlines, when `line`
  is in the buffer already.  A line that does not fit comes
  in several parts.
-/
def fgetsFrom (line : List Byte) : List Byte → List (List Byte)
  | [] => if line = [] then [] else [line]
  | b :: rest =>
    if b = nl then
      line :: fgetsFrom [] rest
    else if line.length + 2 < size then
      fgetsFrom (line ++ [b]) rest
    else
      (line ++ [b]) :: fgetsFrom [] rest

def fgetsLines (text : List Byte) : List (List Byte) :=
  fgetsFrom size [] text

variable {size}

theorem fgetsFrom_line (front : List Byte) {line : List Byte} (hLine : nl ∉ line)
    (hShort : front.length + line.length + 1 < size) (rest : List Byte) :
    fgetsFrom size front (line ++ nl :: rest) = (front ++ line) :: fgetsLines size rest := by
  induction line generalizing front with
  | nil => simp [fgetsFrom, fgetsLines]
  | cons b more ih =>
    rw [List.mem_cons, not_or] at hLine
    rw [List.length_cons] at hShort
    have hFits : front.length + 2 < size := by omega
    have hMore : (front ++ [b]).length + more.length + 1 < size := by
      simp
      omega
    rw [List.cons_append, fgetsFrom, if_neg (fun hEq => hLine.1 hEq.symm), if_pos hFits,
      ih _ hLine.2 hMore, List.append_assoc,
      List.singleton_append]

/- A line that fits ends at its newline. -/
theorem fgetsLines_line {line : List Byte} (hLine : nl ∉ line)
    (hShort : line.length + 1 < size) (rest : List Byte) :
    fgetsLines size (line ++ nl :: rest) = line :: fgetsLines size rest := by
  have hShortest : ([] : List Byte).length + line.length + 1 < size := by
    simpa using hShort
  exact fgetsFrom_line [] hLine hShortest rest

theorem not_mem_of_mem_fgetsFrom {front text line : List Byte} (hFront : nl ∉ front)
    (hMem : line ∈ fgetsFrom size front text) : nl ∉ line := by
  induction text generalizing front with
  | nil =>
    rw [fgetsFrom] at hMem
    split at hMem
    · cases hMem
    · rw [List.mem_singleton] at hMem
      rwa [hMem]
  | cons b rest ih =>
    have hNil : nl ∉ ([] : List Byte) := List.not_mem_nil
    rw [fgetsFrom] at hMem
    split at hMem
    · rcases List.mem_cons.mp hMem with hHead | hTail
      · rwa [hHead]
      · exact ih hNil hTail
    · rename_i hOther
      have hMore : nl ∉ front ++ [b] := by
        simp only [List.mem_append, List.mem_singleton]
        rintro (hOld | hNew)
        · exact hFront hOld
        · exact hOther hNew.symm
      split at hMem
      · exact ih hMore hMem
      · rcases List.mem_cons.mp hMem with hHead | hTail
        · rwa [hHead]
        · exact ih hNil hTail

/- No line that is read has a newline left. -/
theorem not_mem_of_mem_fgetsLines {text line : List Byte}
    (hMem : line ∈ fgetsLines size text) : nl ∉ line :=
  not_mem_of_mem_fgetsFrom List.not_mem_nil hMem

end Fgets

end Wmail
