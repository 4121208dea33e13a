import Wmail.Core.Lines
import Wmail.Core.Runs

/-
  Texts that end at a line with a single dot.

  The writer puts a dot in front of every line that begins
  with one, and the reader takes it away.  The reader leaves
  out carriage returns, and does not notice those at the
  beginning of a line; the writer does.

  Key theorems include:
    * `hiddenDot_iff`
    * `plain_eq`
-/

namespace Wmail

/- One byte; `seeneol` says that it begins a line. -/
def stuffByte (seeneol : Bool) (c : Byte) : List Byte :=
  if seeneol && c = chr '.' then [chr '.', c] else [c]

/- A text, and the line that ends it. -/
def stuff : Bool → List Byte → List Byte
  | true, [] => [chr '.', nl]
  | false, [] => [nl, chr '.', nl]
  | seeneol, c :: rest => stuffByte seeneol c ++ stuff (c = nl) rest

/-
  Where the reader is: at the beginning of a line, or behind
  the dot that one begins with.
-/
structure Undot where
  seeneol : Bool
  seendot : Bool
deriving DecidableEq

/- One byte, which may be part of the text; or the end. -/
def Undot.step (s : Undot) (c : Byte) : Option (Undot × Option Byte) :=
  if c = cr then
    some (s, none)
  else if c = nl then
    if s.seendot then none else some (⟨true, false⟩, some c)
  else if s.seeneol ∧ c = chr '.' then
    some (⟨false, true⟩, none)
  else
    some (⟨false, false⟩, some c)

/- The text up to its end, and what is behind it. -/
def undot : Undot → List Byte → Option (List Byte × List Byte)
  | _, [] => none
  | s, c :: rest =>
    match s.step c with
    | none => some ([], rest)
    | some (s, out) =>
      (undot s rest).map fun (text, more) => (out.toList ++ text, more)

/- At the beginning of a text. -/
def Undot.start : Undot :=
  ⟨true, false⟩

/-
  What the reader should get: no carriage returns, and a
  newline at the end.
-/
def plain : Bool → List Byte → List Byte
  | true, [] => []
  | false, [] => [nl]
  | _, c :: rest =>
    if c = cr then plain false rest else c :: plain (c = nl) rest

/-
  A dot that begins a line for the reader, but not for the
  writer.
-/
def hiddenDot : Bool → Bool → List Byte → Bool
  | _, _, [] => false
  | written, read, c :: rest =>
    if c = cr then
      hiddenDot false read rest
    else if c = nl then
      hiddenDot true true rest
    else
      (c = chr '.' && read && !written) ||
        hiddenDot false false rest

section Bytes

variable {written read : Bool} {c : Byte}

theorem stuff_cons (written : Bool) (c : Byte) (rest : List Byte) :
    stuff written (c :: rest) = stuffByte written c ++ stuff (c = nl) rest := by
  cases written with
  | true => rfl
  | false => rfl

theorem plain_cons (written : Bool) (c : Byte) (rest : List Byte) : plain written (c :: rest) =
      if c = cr then plain false rest else c :: plain (c = nl) rest := by
  cases written with
  | true => rfl
  | false => rfl

/- A byte that the reader takes for text. -/
theorem undot_text {s next : Undot} (hStep : s.step c = some (next, some c)) (rest : List Byte) :
    undot s (c :: rest) = (undot next rest).map fun (text, more) => (c :: text, more) := by
  rw [undot, hStep]
  rfl

/- A byte that it leaves out. -/
theorem undot_skip {s next : Undot} (hStep : s.step c = some (next, none))
    (rest : List Byte) : undot s (c :: rest) = undot next rest := by
  rw [undot, hStep]
  dsimp only
  cases undot next rest with
  | none => rfl
  | some found => rfl

theorem step_cr (s : Undot) : s.step cr = some (s, none) :=
  if_pos rfl

theorem step_nl (read : Bool) : Undot.step ⟨read, false⟩ nl = some (⟨true, false⟩, some nl) :=
  rfl

theorem step_dot (seendot : Bool) : Undot.step ⟨true, seendot⟩ (chr '.') =
      some (⟨false, true⟩, none) :=
  rfl

theorem step_text {s : Undot} (hCr : c ≠ cr) (hNl : c ≠ nl)
    (hDot : ¬ (s.seeneol ∧ c = chr '.')) : s.step c = some (⟨false, false⟩, some c) := by
  unfold Undot.step
  rw [if_neg hCr, if_neg hNl, if_neg hDot]

/- A carriage return changes nothing for the reader. -/
theorem undot_stuffByte_cr (written : Bool) (s : Undot) (rest : List Byte) :
    undot s (stuffByte written cr ++ rest) = undot s rest := by
  have hDot : cr ≠ chr '.' := by decide
  have hByte : stuffByte written cr = [cr] := by
    unfold stuffByte
    rw [if_neg]
    simp [hDot]
  rw [hByte]
  exact undot_skip (step_cr s) rest

/- Any other byte comes back, unless it is a hidden dot. -/
theorem undot_stuffByte (hAgree : written = true → read = true) (hCr : c ≠ cr)
    (hClear : ¬ (c = chr '.' ∧ read = true ∧ written = false)) (rest : List Byte) :
    undot ⟨read, false⟩ (stuffByte written c ++ rest) =
      (undot ⟨c = nl, false⟩ rest).map fun (text, more) => (c :: text, more) := by
  by_cases hDot : c = chr '.'
  · subst c
    have hText : Undot.step ⟨false, read⟩ (chr '.') = some (⟨false, false⟩, some (chr '.')) :=
      step_text hCr (by decide) (by simp)
    cases written with
    | true =>
      have hRead := hAgree rfl
      subst read
      exact (undot_skip (step_dot false) _).trans (undot_text hText rest)
    | false =>
      have hRead : read = false := by simpa using hClear
      subst read
      exact undot_text hText rest
  · have hByte : stuffByte written c = [c] := by
      unfold stuffByte
      rw [if_neg]
      simp [hDot]
    rw [hByte]
    by_cases hNl : c = nl
    · subst c
      exact undot_text (step_nl read) rest
    · rw [decide_eq_false hNl]
      exact undot_text (step_text hCr hNl (fun hBoth => hDot hBoth.2)) rest

end Bytes

/- The text comes back, and nothing behind it is read. -/
theorem undot_stuff {written read : Bool} {text : List Byte}
    (hAgree : written = true → read = true) (hClear : hiddenDot written read text = false)
    (more : List Byte) :
    undot ⟨read, false⟩ (stuff written text ++ more) = some (plain written text, more) := by
  induction text generalizing written read with
  | nil =>
    cases written with
    | true =>
      rw [hAgree rfl]
      rfl
    | false => rfl
  | cons c rest ih =>
    rw [hiddenDot] at hClear
    rw [stuff_cons, plain_cons, List.append_assoc]
    split at hClear
    · rename_i hCr
      subst c
      rw [undot_stuffByte_cr, if_pos rfl]
      exact ih nofun hClear
    · rename_i hCr
      rw [if_neg hCr]
      have hStep : ¬ (c = chr '.' ∧ read = true ∧ written = false) := by
        rintro ⟨hDot, hRead, hWritten⟩
        subst c
        rw [if_neg (by decide), hRead, hWritten] at hClear
        exact absurd hClear (by simp)
      have hNext : hiddenDot (c = nl) (c = nl) rest = false := by
        by_cases hNl : c = nl
        · rw [if_pos hNl] at hClear
          rw [decide_eq_true hNl]
          exact hClear
        · rw [if_neg hNl, Bool.or_eq_false_iff] at hClear
          rw [decide_eq_false hNl]
          exact hClear.2
      rw [undot_stuffByte hAgree hCr hStep, ih id hNext]
      rfl

/- Without carriage returns there are no hidden dots. -/
theorem hiddenDot_agree {text : List Byte} (hText : cr ∉ text) (agreed : Bool) :
    hiddenDot agreed agreed text = false := by
  induction text generalizing agreed with
  | nil => rfl
  | cons c rest ih =>
    rw [List.mem_cons, not_or] at hText
    rw [hiddenDot, if_neg (Ne.symm hText.1)]
    split
    · exact ih hText.2 true
    · rw [ih hText.2 false, Bool.or_false, Bool.and_assoc, Bool.and_not_self, Bool.and_false]

/- How much shorter the text must be. -/
def shortfall (written : Bool) (s : Undot) (text : List Byte) : Nat :=
  if s.seendot = false ∧ hiddenDot written s.seeneol text then 1 else 0

theorem shortfall_le (written : Bool) (s : Undot) (text : List Byte) :
    shortfall written s text ≤ 1 := by
  unfold shortfall
  split
  · exact Nat.le_refl 1
  · exact Nat.zero_le 1

theorem shortfall_behindDot (written read : Bool) (text : List Byte) :
    shortfall written ⟨read, true⟩ text = 0 := by
  unfold shortfall
  rw [if_neg]
  exact fun hBoth => nomatch hBoth.1

theorem shortfall_cr (written : Bool) (s : Undot) (rest : List Byte) :
    shortfall written s (cr :: rest) = shortfall false s rest := by
  unfold shortfall
  rw [hiddenDot, if_pos rfl]

/- Behind a byte that is not a hidden dot. -/
theorem shortfall_text {written read : Bool} {c : Byte} (hCr : c ≠ cr)
    (hClear : ¬ (c = chr '.' ∧ read = true ∧ written = false)) (rest : List Byte) :
    shortfall written ⟨read, false⟩ (c :: rest) = shortfall (c = nl) ⟨c = nl, false⟩ rest := by
  have hByte : (decide (c = chr '.') && read && !written) = false := by simpa using hClear
  unfold shortfall
  rw [hiddenDot, if_neg hCr, hByte, Bool.false_or]
  by_cases hNl : c = nl
  · rw [if_pos hNl, decide_eq_true hNl]
  · rw [if_neg hNl, decide_eq_false hNl]

/-
  Whatever the text is, the reader ends, and what it gets is
  not longer.  With a hidden dot it is shorter.
-/
theorem undot_stuff_length (written : Bool) (s : Undot) (text : List Byte)
    (hAgree : written = true → s = Undot.start)
    (hPlace : s.seendot = true → s.seeneol = false) (more : List Byte) :
    ∃ got rest, undot s (stuff written text ++ more) = some (got, rest) ∧
        got.length + shortfall written s text ≤ (plain written text).length := by
  induction text generalizing written s with
  | nil =>
    rcases s with ⟨read, seendot⟩
    cases written with
    | true =>
      rw [hAgree rfl]
      exact ⟨[], more, rfl, Nat.le_refl 0⟩
    | false =>
      cases seendot with
      | true => exact ⟨[], _, rfl, Nat.zero_le 1⟩
      | false => exact ⟨[nl], more, rfl, Nat.le_refl 1⟩
  | cons c rest ih =>
    rw [stuff_cons, plain_cons, List.append_assoc]
    by_cases hCr : c = cr
    · subst c
      rw [undot_stuffByte_cr, if_pos rfl, shortfall_cr]
      exact ih false s nofun hPlace
    · rw [if_neg hCr, List.length_cons]
      rcases s with ⟨read, seendot⟩
      cases seendot with
      | true =>
        have hRead : read = false := hPlace rfl
        have hWritten : written = false := by
          cases written with
          | true => cases hAgree rfl
          | false => rfl
        subst read written
        rw [shortfall_behindDot]
        by_cases hNl : c = nl
        · subst c
          exact ⟨[], _, rfl, Nat.zero_le _⟩
        · have hText : Undot.step ⟨false, true⟩ c = some (⟨false, false⟩, some c) :=
            step_text hCr hNl (by simp)
          rw [decide_eq_false hNl]
          rcases ih false ⟨false, false⟩ nofun nofun with ⟨got, tail, hRun, hLength⟩
          refine ⟨c :: got, tail, ?_, ?_⟩
          · exact (undot_text hText _).trans (congrArg _ hRun)
          · rw [List.length_cons]
            omega
      | false =>
        by_cases hHidden : c = chr '.' ∧ read = true ∧ written = false
        · rcases hHidden with ⟨hDot, hRead, hWritten⟩
          subst c read written
          rcases ih false ⟨false, true⟩ nofun (fun _ => rfl) with ⟨got, tail, hRun, hLength⟩
          have hShort := shortfall_le false ⟨true, false⟩ (chr '.' :: rest)
          refine ⟨got, tail, ?_, ?_⟩
          · exact (undot_skip (step_dot false) _).trans hRun
          · have hSame : decide (chr '.' = nl) = false := by decide
            rw [hSame]
            omega
        · have hRead : written = true → read = true := by
            intro hWritten
            exact congrArg Undot.seeneol (hAgree hWritten)
          have hStart : decide (c = nl) = true → (⟨c = nl, false⟩ : Undot) = Undot.start := by
            intro hNl
            rw [hNl]
            rfl
          rcases ih _ _ hStart nofun with ⟨got, tail, hRun, hLength⟩
          rw [undot_stuffByte hRead hCr hHidden, hRun, shortfall_text hCr hHidden]
          refine ⟨c :: got, tail, rfl, ?_⟩
          rw [List.length_cons]
          omega

/- Exactly without hidden dots a text comes back. -/
theorem undot_stuff_iff (text more : List Byte) :
    undot Undot.start (stuff true text ++ more) = some (plain true text, more) ↔
      hiddenDot true true text = false := by
  constructor
  · intro hBack
    rcases undot_stuff_length true Undot.start text (fun _ => rfl) nofun more with
      ⟨got, tail, hRun, hLength⟩
    rw [hBack] at hRun
    cases hRun
    rw [Bool.eq_false_iff]
    intro hHidden
    have hOne : shortfall true Undot.start text = 1 := if_pos ⟨rfl, hHidden⟩
    omega
  · intro hClear
    exact undot_stuff (fun _ => rfl) hClear more

/- Carriage returns, and a dot behind them. -/
def hiddenLine (line : List Byte) : Bool :=
  line.head? = some cr && (line.dropWhile (· = cr)).head? = some (chr '.')

theorem hiddenLine_append (front : List Byte) (c : Byte) :
    hiddenLine (front ++ [c]) = (hiddenLine front || (c = chr '.' && front.all (· = cr) &&
          !front.isEmpty)) := by
  have hOther : cr ≠ chr '.' := by decide
  unfold hiddenLine
  rw [List.dropWhile_append]
  cases front with
  | nil =>
    by_cases hCr : c = cr
    · simp [hCr]
    · simp [hCr]
  | cons a more =>
    by_cases hAll : (a :: more).all (· = cr) = true
    · have hNone : (a :: more).dropWhile (· = cr) = [] := by
        rw [List.dropWhile_eq_nil_iff]
        exact List.all_eq_true.mp hAll
      have hHead : a = cr := by simpa using List.all_eq_true.mp hAll a List.mem_cons_self
      rw [hNone, hAll]
      by_cases hCr : c = cr
      · simp [hCr, hHead, hOther]
      · simp [hCr, hHead]
    · have hSome : (a :: more).dropWhile (· = cr) ≠ [] := by
        intro hNone
        rw [List.dropWhile_eq_nil_iff] at hNone
        exact hAll (List.all_eq_true.mpr hNone)
      rw [Bool.not_eq_true] at hAll
      rw [hAll]
      cases hDrop : (a :: more).dropWhile (· = cr) with
      | nil => exact absurd hDrop hSome
      | cons b rest => simp

/- The walk finds the lines that have one. -/
theorem hiddenDot_linesFrom (front text : List Byte) : (linesFrom front text).any hiddenLine =
      (hiddenLine front ||
        hiddenDot front.isEmpty (front.all (· = cr)) text) := by
  induction text generalizing front with
  | nil =>
    have hStop : ∀ written read, hiddenDot written read [] = false := fun _ _ => rfl
    rw [linesFrom, hStop]
    split
    · rename_i hNone
      rw [hNone]
      rfl
    · simp
  | cons c rest ih =>
    rw [linesFrom, hiddenDot]
    by_cases hNl : c = nl
    · have hCr : ¬ nl = cr := by decide
      subst c
      rw [if_pos rfl, if_neg hCr, if_pos rfl, List.any_cons, ih]
      rfl
    · have hGrow : (front ++ [c]).isEmpty = false := by
        cases front with
        | nil => rfl
        | cons a more => rfl
      rw [if_neg hNl, ih, hiddenLine_append, hGrow]
      by_cases hCr : c = cr
      · subst c
        have hDot : ¬ cr = chr '.' := by decide
        simp [hDot]
      · rw [if_neg hCr, if_neg hNl]
        simp [hCr, Bool.or_assoc]

theorem hiddenDot_linesOf (text : List Byte) : hiddenDot true true text =
      (linesOf text).any hiddenLine :=
  (hiddenDot_linesFrom [] text).symm

theorem plain_eq {text : List Byte} (hSome : text ≠ []) (written : Bool) :
    plain written text = text.filter (· ≠ cr) ++
        if text.getLast? = some nl then [] else [nl] := by
  induction text generalizing written with
  | nil => exact absurd rfl hSome
  | cons c rest ih =>
    rw [plain_cons]
    cases rest with
    | nil =>
      by_cases hCr : c = cr
      · subst c
        rfl
      · by_cases hNl : c = nl
        · subst c
          rfl
        · simp [hCr, hNl, plain]
    | cons d more =>
      rw [List.getLast?_cons_cons, List.filter_cons, ih (List.cons_ne_nil d more),
        ih (List.cons_ne_nil d more)]
      by_cases hCr : c = cr
      · simp [hCr]
      · simp [hCr]

/-
  What a reader has taken has no carriage returns, and is
  empty or ends with a newline.
-/
theorem undot_ends {s : Undot} {input text more : List Byte}
    (hRun : undot s input = some (text, more)) : cr ∉ text ∧
      (text.getLast? = some nl ∨ text = [] ∧ (s.seeneol = true ∨ s.seendot = true)) := by
  induction input generalizing s text with
  | nil => cases hRun
  | cons c rest ih =>
    unfold undot Undot.step at hRun
    by_cases hCr : c = cr
    · rw [if_pos hCr] at hRun
      rcases Option.map_eq_some_iff.mp hRun with ⟨found, hRest, hSame⟩
      cases hSame
      exact ih hRest
    rw [if_neg hCr] at hRun
    by_cases hNl : c = nl
    · rw [if_pos hNl] at hRun
      by_cases hDot : s.seendot = true
      · rw [if_pos hDot] at hRun
        cases hRun
        exact ⟨List.not_mem_nil, Or.inr ⟨rfl, Or.inr hDot⟩⟩
      rw [if_neg hDot] at hRun
      rcases Option.map_eq_some_iff.mp hRun with ⟨⟨later, _⟩, hRest, hSame⟩
      cases hSame
      rcases ih hRest with ⟨hNone, hEnd⟩
      refine ⟨List.not_mem_cons_of_ne_of_not_mem (Ne.symm hCr) hNone, Or.inl ?_⟩
      rcases hEnd with hLast | ⟨rfl, _⟩
      · exact List.mem_getLast?_cons hLast
      · exact congrArg some hNl
    rw [if_neg hNl] at hRun
    by_cases hDot : s.seeneol = true ∧ c = chr '.'
    · rw [if_pos hDot] at hRun
      rcases Option.map_eq_some_iff.mp hRun with ⟨⟨later, _⟩, hRest, hSame⟩
      cases hSame
      rcases ih hRest with ⟨hNone, hEnd⟩
      exact ⟨hNone, hEnd.imp_right fun hNil => ⟨hNil.1, Or.inl hDot.1⟩⟩
    · rw [if_neg hDot] at hRun
      rcases Option.map_eq_some_iff.mp hRun with ⟨⟨later, _⟩, hRest, hSame⟩
      cases hSame
      rcases ih hRest with ⟨hNone, hEnd⟩
      refine ⟨List.not_mem_cons_of_ne_of_not_mem (Ne.symm hCr) hNone, Or.inl ?_⟩
      rcases hEnd with hLast | ⟨_, hSeen⟩
      · exact List.mem_getLast?_cons hLast
      · exact absurd hSeen (by decide)

end Wmail
