import Wmail.Core.Chunking
import Wmail.Core.Decimal
import Wmail.Core.Lines
import Wmail.Core.Runs

/-
  The display of plain text (filter.c).

  Key theorems include:
    * `undo_dodisplay`
    * `filterRun_display`
-/

namespace Wmail.Sqwebmail

/- What `dodisplay` prints in place of a byte, if anything. -/
def entity (b : Byte) : Option (List Byte) :=
  if b = chr '<' then
    some (bytes "&lt;")
  else if b = chr '>' then
    some (bytes "&gt;")
  else if b = chr '&' then
    some (bytes "&amp;")
  else if b = chr '"' then
    some (bytes "&quot;")
  else if b < 32 ∧ b ≠ nl then
    some (bytes "&#" ++ decimalDigits 3 b.toNat ++ bytes ";")
  else
    none

/- The loop of `dodisplay`; `pending` is the text from `j` to `i`. -/
def displayLoop (pending : List Byte) : List Byte → List Byte
  | [] => pending
  | b :: rest =>
    match entity b with
    | some p => pending ++ p ++ displayLoop [] rest
    | none => displayLoop (pending ++ [b]) rest

def dodisplay (buf : List Byte) : List Byte :=
  displayLoop [] buf

/-
  The inner loop of `wordwrap`: where the line ends, and
  where the next starts, both from the start of this one.
-/
def scanLine (linesize : Nat) : List Byte → Nat → Nat → Nat → Nat × Nat
  | rest, j, spacepos, restartpos =>
    if linesize ≤ j ∧ spacepos ≤ j then
      (spacepos, restartpos)
    else
      match rest with
      | [] => (j, j)
      | b :: rest =>
        if b = chr ' ' then
          scanLine linesize rest (j + 1) j (j + 1)
        else
          scanLine linesize rest (j + 1) spacepos restartpos

/- The outer loop: a round takes a byte at least. -/
def wrapLines (linesize : Nat) : Nat → List Byte → List Byte
  | 0, _ => []
  | fuel + 1, buf =>
    if buf = [] then
      []
    else
      let ends := scanLine linesize buf 0 buf.length buf.length
      dodisplay (buf.take ends.1) ++ (dodisplay [nl] ++ wrapLines linesize fuel (buf.drop ends.2))

def wordwrap (linesize : Nat) (buf : List Byte) : List Byte :=
  if buf = [] ∨ buf.head? = some (chr '>') then
    dodisplay buf ++ dodisplay [nl]
  else
    wrapLines linesize buf.length buf

/- `disp_buf`, and what the handler got. -/
structure Display where
  buf : List Byte
  output : List Byte

/- The loop of `filter_for_display` over the lines. -/
def displayLines (linesize : Nat) (s : Display) : Display :=
  let line := s.buf.takeWhile (· ≠ nl)
  if line.length < s.buf.length then
    displayLines linesize ⟨s.buf.drop (line.length + 1), s.output ++ wordwrap linesize line⟩
  else
    s
termination_by s.buf.length
decreasing_by
  simp only [List.length_drop]
  omega

/- `FILTER_FOR_DISPLAY` and `FILTER_FOR_PREVIEW`. -/
inductive FilterMode where
  | display
  | preview

/- `EXTLINESIZE` and `MYLINESIZE`. -/
def FilterMode.linesize : FilterMode → Nat
  | .display => 80
  | .preview => 76

/- `filter_start`, `filter` and `filter_end`. -/
def filterer (mode : FilterMode) : Transducer Byte Display (List Byte) where
  init := ⟨[], []⟩
  feed s ptr := displayLines mode.linesize ⟨s.buf ++ ptr, s.output⟩
  finish s :=
    if s.buf ≠ [] then s.output ++ wordwrap mode.linesize s.buf else s.output

/- The byte that an entity stands for. -/
def entityByte (name : List Byte) : List Byte :=
  if name = bytes "lt" then
    [chr '<']
  else if name = bytes "gt" then
    [chr '>']
  else if name = bytes "amp" then
    [chr '&']
  else if name = bytes "quot" then
    [chr '"']
  else
    [UInt8.ofNat (decimalValue name.tail)]

/- A text with its entities undone; in one, its name so far. -/
def undoFrom : Option (List Byte) → List Byte → List Byte
  | _, [] => []
  | none, b :: rest => if b = chr '&' then undoFrom (some []) rest else b :: undoFrom none rest
  | some name, b :: rest =>
    if b = chr ';' then
      entityByte name ++ undoFrom none rest
    else
      undoFrom (some (name ++ [b])) rest

def undo (text : List Byte) : List Byte :=
  undoFrom none text

/- What is printed for a byte. -/
def shown (b : Byte) : List Byte :=
  (entity b).getD [b]

theorem dodisplay_eq (buf : List Byte) : dodisplay buf = buf.flatMap shown := by
  have hLoop : ∀ pending, displayLoop pending buf = pending ++ buf.flatMap shown := by
    induction buf with
    | nil => intro pending; simp [displayLoop]
    | cons b rest ih =>
      intro pending
      rw [displayLoop, List.flatMap_cons, shown]
      cases entity b with
      | some p => simp [ih]
      | none => simp [ih]
  exact hLoop []

theorem undoFrom_name (front : List Byte) {name : List Byte} (hName : chr ';' ∉ name)
    (rest : List Byte) :
    undoFrom (some front) (name ++ chr ';' :: rest) =
      entityByte (front ++ name) ++ undoFrom none rest := by
  induction name generalizing front with
  | nil => rw [List.nil_append, undoFrom, if_pos rfl, List.append_nil]
  | cons b name ih =>
    rw [List.mem_cons, not_or] at hName
    rw [List.cons_append, undoFrom, if_neg (fun hThis => hName.1 hThis.symm), ih _ hName.2,
      List.append_assoc]
    rfl

/- A byte is printed as itself, or as an entity that stands for it. -/
theorem shown_forms : ∀ b : Byte, (shown b = [b] ∧ b ≠ chr '&') ∨
    (shown b = chr '&' :: ((shown b).tail.dropLast ++ [chr ';']) ∧
      chr ';' ∉ (shown b).tail.dropLast ∧
      entityByte (shown b).tail.dropLast = [b]) := by
  apply byte_forall
  decide +kernel

theorem shown_clean : ∀ b : Byte, (shown b).all (fun c =>
    c ≠ chr '<' && c ≠ chr '>' && c ≠ chr '"' && (32 ≤ c || c = nl)) = true := by
  apply byte_forall
  decide +kernel

theorem undo_dodisplay (buf : List Byte) : undo (dodisplay buf) = buf := by
  rw [dodisplay_eq]
  induction buf with
  | nil => rfl
  | cons b rest ih =>
    unfold undo at ih ⊢
    rw [List.flatMap_cons]
    rcases shown_forms b with hPlain | ⟨hShown, hName, hByte⟩
    · rw [hPlain.1, List.singleton_append, undoFrom, if_neg hPlain.2, ih]
    · rw [hShown, List.cons_append, List.append_assoc, undoFrom, if_pos rfl,
        List.singleton_append, undoFrom_name _ hName, ih, List.nil_append, hByte]
      rfl

/- Longer than the line size only without a blank. -/
def Unwrappable (linesize : Nat) (text : List Byte) : Prop :=
  linesize < text.length → chr ' ' ∉ text

/- Where a line ends: at the end of the text, or at a blank. -/
def EndsLine (linesize : Nat) (buf : List Byte) (ends : Nat × Nat) : Prop :=
  (ends = (buf.length, buf.length) ∧ Unwrappable linesize buf) ∨
    ∃ a b, buf = a ++ chr ' ' :: b ∧ ends = (a.length, a.length + 1) ∧ Unwrappable linesize a

/-
  The induction is on what is left of the text behind
  `front`; either no blank was met, or the last one has
  `a` before it.
-/
theorem scanLine_spec {linesize : Nat} (rest front : List Byte) (spacepos restartpos : Nat)
    (hSeen : (spacepos = (front ++ rest).length ∧
        restartpos = (front ++ rest).length ∧ chr ' ' ∉ front) ∨
      ∃ a b, front = a ++ chr ' ' :: b ∧ spacepos = a.length ∧
        restartpos = a.length + 1 ∧ Unwrappable linesize a) :
    EndsLine linesize (front ++ rest)
      (scanLine linesize rest front.length spacepos restartpos) := by
  induction rest generalizing front spacepos restartpos with
  | nil =>
    rw [scanLine, List.append_nil]
    split
    · rename_i hStop
      rcases hSeen with hNone | ⟨a, b, hFront, hSpace, hRestart, hA⟩
      · left
        rw [hNone.1, hNone.2.1, List.append_nil]
        exact ⟨rfl, fun _ => hNone.2.2⟩
      · right
        exact ⟨a, b, hFront, by rw [hSpace, hRestart], hA⟩
    · rename_i hGo
      left
      refine ⟨rfl, fun hLong => ?_⟩
      rcases hSeen with hNone | ⟨a, b, hFront, hSpace, _, _⟩
      · exact hNone.2.2
      · have hLess : a.length < front.length := by simp [hFront]
        omega
  | cons c rest ih =>
    have hWhole : front ++ c :: rest = (front ++ [c]) ++ rest := List.append_cons front c rest
    rw [scanLine]
    split
    · rename_i hStop
      rcases hSeen with hNone | ⟨a, b, hFront, hSpace, hRestart, hA⟩
      · rw [hNone.1, List.length_append, List.length_cons] at hStop
        omega
      · right
        exact ⟨a, b ++ c :: rest, by simp [hFront], by rw [hSpace, hRestart], hA⟩
    · rename_i hGo
      have hNext := ih (front ++ [c])
      have hLength : (front ++ [c]).length = front.length + 1 := by simp
      rw [← hWhole, hLength] at hNext
      split
      · rename_i hBlank
        apply hNext
        right
        refine ⟨front, [], by rw [hBlank], rfl, rfl, fun hLong => ?_⟩
        rcases hSeen with hNone | ⟨a, b, hFront, hSpace, _, _⟩
        · exact hNone.2.2
        · have hLess : a.length < front.length := by simp [hFront]
          omega
      · rename_i hOther
        apply hNext
        rcases hSeen with hNone | ⟨a, b, hFront, hSpace, hRestart, hA⟩
        · left
          refine ⟨hNone.1, hNone.2.1, ?_⟩
          rw [List.mem_append, List.mem_singleton, not_or]
          exact ⟨hNone.2.2, fun hThis => hOther hThis.symm⟩
        · right
          exact ⟨a, b ++ [c], by simp [hFront], hSpace, hRestart, hA⟩

/-
  A line of the text as it is shown in lines: some of its
  blanks are newlines, one at its end may be gone.
-/
def Refilled (linesize : Nat) (line : List Byte) (out : List (List Byte)) : Prop :=
  if line.head? = some (chr '>') then
    out = [line]
  else
    out ≠ [] ∧ (line = [chr ' '].intercalate out ∨ line = [chr ' '].intercalate out ++ [chr ' ']) ∧
      ∀ text, text ∈ out → Unwrappable linesize text

/- Lines as they are printed. -/
def shownLines (out : List (List Byte)) : List Byte :=
  dodisplay (out.flatMap (· ++ [nl]))

theorem shownLines_cons (text : List Byte) (out : List (List Byte)) :
    shownLines (text :: out) = dodisplay text ++ (dodisplay [nl] ++ shownLines out) := by
  simp [shownLines, dodisplay_eq]

theorem wrapLines_spec {linesize : Nat} (fuel : Nat) (buf : List Byte)
    (hFuel : buf.length ≤ fuel) (hSome : buf ≠ []) :
    ∃ out, wrapLines linesize fuel buf = shownLines out ∧ out ≠ [] ∧
      (buf = [chr ' '].intercalate out ∨ buf = [chr ' '].intercalate out ++ [chr ' ']) ∧
      ∀ text, text ∈ out → Unwrappable linesize text := by
  induction fuel generalizing buf with
  | zero => exact absurd (List.eq_nil_of_length_eq_zero (by omega)) hSome
  | succ fuel ih =>
    have hEmpty : wrapLines linesize fuel [] = shownLines [] := by
      cases fuel <;> rfl
    have hEnds := @scanLine_spec linesize buf [] buf.length buf.length
      (Or.inl ⟨rfl, rfl, List.not_mem_nil⟩)
    rw [wrapLines, if_neg hSome]
    dsimp only
    rw [List.nil_append, List.length_nil] at hEnds
    rcases hEnds with ⟨hEnds, hFits⟩ | ⟨a, b, hBuf, hEnds, hFits⟩
    · rw [hEnds, List.take_length, List.drop_length, hEmpty]
      refine ⟨[buf], (shownLines_cons buf []).symm, List.cons_ne_nil _ _, Or.inl ?_, ?_⟩
      · exact List.intercalate_singleton.symm
      · exact fun text hMem => List.mem_singleton.mp hMem ▸ hFits
    · have hDrop : buf.drop (a.length + 1) = b := by simp [hBuf]
      have hTake : buf.take a.length = a := by simp [hBuf]
      rw [hEnds, hDrop, hTake]
      by_cases hLast : b = []
      · refine ⟨[a], ?_, List.cons_ne_nil _ _, Or.inr ?_, ?_⟩
        · rw [hLast, hEmpty, shownLines_cons]
        · rw [hBuf, hLast, List.intercalate_singleton]
        · exact fun text hMem => List.mem_singleton.mp hMem ▸ hFits
      · have hShort : b.length ≤ fuel := by
          rw [hBuf, List.length_append, List.length_cons] at hFuel
          omega
        rcases ih b hShort hLast with ⟨out, hOut, hMore, hText, hAll⟩
        refine ⟨a :: out, ?_, List.cons_ne_nil _ _, ?_, ?_⟩
        · rw [hOut, shownLines_cons]
        · rw [List.intercalate_cons_of_ne_nil hMore, hBuf]
          rcases hText with hText | hText
          · exact Or.inl (by rw [hText]; simp)
          · exact Or.inr (by rw [hText]; simp)
        · exact List.forall_mem_cons.mpr ⟨hFits, hAll⟩

theorem wordwrap_spec (linesize : Nat) (line : List Byte) :
    ∃ out, wordwrap linesize line = shownLines out ∧ Refilled linesize line out := by
  unfold wordwrap Refilled
  by_cases hQuoted : line.head? = some (chr '>')
  · refine ⟨[line], ?_, ?_⟩
    · rw [if_pos (Or.inr hQuoted), shownLines_cons]
      simp [shownLines, dodisplay_eq]
    · rw [if_pos hQuoted]
  · simp only [hQuoted, or_false, if_false]
    split
    · rename_i hEmpty
      refine ⟨[[]], ?_, List.cons_ne_nil _ _, Or.inl (by simp [hEmpty]), ?_⟩
      · rw [hEmpty, shownLines_cons]
        simp [shownLines, dodisplay_eq]
      · intro text hMem
        rw [List.mem_singleton.mp hMem]
        exact fun _ => List.not_mem_nil
    · rename_i hSome
      exact wrapLines_spec line.length line (Nat.le_refl _) hSome

/- `disp_buf` is the line that is not finished. -/
def Shows (linesize : Nat) (text : List Byte) (s : Display) : Prop :=
  ∃ lines : List (List Byte), (∀ line, line ∈ lines → nl ∉ line) ∧ nl ∉ s.buf ∧
    text = lines.flatMap (· ++ [nl]) ++ s.buf ∧
    s.output = lines.flatMap (wordwrap linesize)

theorem displayLines_spec {linesize : Nat} (s : Display) (lines : List (List Byte))
    (hLines : ∀ line, line ∈ lines → nl ∉ line)
    (hOutput : s.output = lines.flatMap (wordwrap linesize)) :
    Shows linesize (lines.flatMap (· ++ [nl]) ++ s.buf) (displayLines linesize s) := by
  fun_induction displayLines linesize s generalizing lines with
  | case1 s line hMore ih =>
    have hSplit : s.buf = line ++ s.buf.dropWhile (· ≠ nl) := List.takeWhile_append_dropWhile.symm
    rcases dropWhile_separator nl s.buf with hEnd | ⟨rest, hRest⟩
    · rw [hEnd, List.append_nil] at hSplit
      rw [← hSplit] at hMore
      exact absurd hMore (Nat.lt_irrefl _)
    · rw [hRest] at hSplit
      have hDrop : s.buf.drop (line.length + 1) = rest := by
        rw [hSplit]
        simp
      have hLine : nl ∉ line := not_mem_takeWhile_separator nl s.buf
      have hNext := ih (lines ++ [line])
        (fun other hMem => (List.mem_append.mp hMem).elim (hLines other)
          fun hNew => List.mem_singleton.mp hNew ▸ hLine)
        (by simp [hOutput])
      rw [hDrop] at hNext
      rw [hSplit]
      simpa using hNext
  | case2 s line hMore =>
    refine ⟨lines, hLines, ?_, rfl, hOutput⟩
    have hSplit : line ++ s.buf.dropWhile (· ≠ nl) = s.buf := List.takeWhile_append_dropWhile
    have hLength := congrArg List.length hSplit
    rw [List.length_append] at hLength
    have hEnd := List.eq_nil_of_length_eq_zero (show (s.buf.dropWhile (· ≠ nl)).length = 0 by omega)
    rw [← hSplit, hEnd, List.append_nil]
    exact not_mem_takeWhile_separator nl s.buf

theorem realizes_filterer (mode : FilterMode) :
    (filterer mode).Realizes (fun _ => True) (Shows mode.linesize)
      (fun text => (linesOf text).flatMap (wordwrap mode.linesize)) where
  dom_prefix _ _ _ := trivial
  init := ⟨[], fun _ hMem => absurd hMem List.not_mem_nil, List.not_mem_nil, rfl, rfl⟩
  feed := by
    rintro text s ptr - ⟨lines, hLines, -, hText, hOutput⟩
    have hShows := displayLines_spec ⟨s.buf ++ ptr, s.output⟩ lines hLines hOutput
    rw [hText, List.append_assoc]
    exact hShows
  finish := by
    rintro text s - ⟨lines, hLines, hBuf, hText, hOutput⟩
    rw [hText, linesOf_flatMap hLines, List.flatMap_append, ← hOutput]
    unfold filterer
    dsimp only
    split
    · rename_i hSome
      have hLine := linesFrom_line [] hBuf []
      rw [List.append_nil, List.nil_append, linesFrom, if_neg hSome] at hLine
      rw [linesOf, hLine, List.flatMap_singleton]
    · rename_i hNone
      rw [not_not.mp hNone]
      exact (List.append_nil _).symm

/-
  The output depends on the text alone, not on the calls; it
  has no byte that the browser could take for markup; with
  its entities undone it is the lines of the text, each with
  a newline behind it, and each as it is shown in lines.
-/
theorem filterRun_display (mode : FilterMode) (calls : List (List Byte)) :
    let output := (filterer mode).run calls
    output = (filterer mode).run [calls.flatten] ∧
      (∀ c, c ∈ output → c ≠ chr '<' ∧ c ≠ chr '>' ∧ c ≠ chr '"' ∧ (c < 32 → c = nl)) ∧
      ∃ outs : List (List (List Byte)),
        List.Forall₂ (Refilled mode.linesize) (linesOf calls.flatten) outs ∧
        undo output = outs.flatten.flatMap (· ++ [nl]) := by
  intro output
  have hRun : ∀ calls, (filterer mode).run calls =
      (linesOf calls.flatten).flatMap (wordwrap mode.linesize) :=
    fun calls => (realizes_filterer mode).run_eq calls trivial
  have hOuts : ∀ lines : List (List Byte), ∃ outs : List (List (List Byte)),
      List.Forall₂ (Refilled mode.linesize) lines outs ∧
      lines.flatMap (wordwrap mode.linesize) = shownLines outs.flatten := by
    intro lines
    induction lines with
    | nil => exact ⟨[], .nil, by simp [shownLines, dodisplay_eq]⟩
    | cons line lines ih =>
      rcases wordwrap_spec mode.linesize line with ⟨out, hOut, hRefilled⟩
      rcases ih with ⟨outs, hEach, hAll⟩
      refine ⟨out :: outs, .cons hRefilled hEach, ?_⟩
      rw [List.flatMap_cons, hOut, hAll]
      simp [shownLines, dodisplay_eq]
  rcases hOuts (linesOf calls.flatten) with ⟨outs, hEach, hAll⟩
  have hOutput : output = shownLines outs.flatten := (hRun calls).trans hAll
  refine ⟨?_, ?_, outs, hEach, ?_⟩
  · rw [hRun [calls.flatten], List.flatten_singleton]
    exact hRun calls
  · intro c hMem
    rw [hOutput, shownLines, dodisplay_eq] at hMem
    rcases List.mem_flatMap.mp hMem with ⟨b, -, hC⟩
    have hClean := List.all_eq_true.mp (shown_clean b) c hC
    simp only [Bool.and_eq_true, Bool.or_eq_true, decide_eq_true_eq] at hClean
    refine ⟨hClean.1.1.1, hClean.1.1.2, hClean.1.2, fun hLow => ?_⟩
    exact hClean.2.resolve_left (UInt8.not_le.mpr hLow)
  · rw [hOutput]
    exact undo_dodisplay _

end Wmail.Sqwebmail
