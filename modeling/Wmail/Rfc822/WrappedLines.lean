import Wmail.Core.Halting
import Wmail.Core.TwoPass
import Wmail.Rfc822.Getaddrs
import Wmail.Rfc822.NulFree
import Mathlib.Data.List.GetD

/-
  The lines that `rfc822_getaddrs_wrap` makes.

  The list is cut at the blanks of its separators; the
  pieces of a line are joined by blanks, and the lines by
  newlines.

  Key theorems include:
    * `run_pieces`
    * `getaddrsWrap_lines`
-/

namespace Wmail

open TwoPass

namespace Rfc822

/- The pieces of a line, with blanks between them. -/
def lineOf (g : List (List Byte)) : List Byte :=
  [chr ' '].intercalate g

theorem intercalate_cons_eq (c : Byte) (p : List Byte) (rest : List (List Byte)) :
    [c].intercalate (p :: rest) = p ++ rest.flatMap (c :: ·) := by
  induction rest generalizing p with
  | nil => simp
  | cons q rest ih =>
    rw [List.intercalate_cons_cons, ih, List.flatMap_cons, List.append_assoc]
    rfl

theorem lineOf_append {g : List (List Byte)} (hSome : g ≠ []) (p : List Byte) :
    lineOf (g ++ [p]) = lineOf g ++ chr ' ' :: p := by
  rcases List.exists_cons_of_ne_nil hSome with ⟨q, rest, rfl⟩
  unfold lineOf
  rw [List.cons_append, intercalate_cons_eq, intercalate_cons_eq, List.flatMap_append,
    List.append_assoc]
  simp only [List.flatMap_cons, List.flatMap_nil, List.append_nil]

theorem lineOf_singleton (p : List Byte) : lineOf [p] = p :=
  List.intercalate_singleton

/- Lines, each with the newline behind it. -/
def finished (done : List (List (List Byte))) : List Byte :=
  done.flatMap fun g => lineOf g ++ [nl]

theorem finished_append (done : List (List (List Byte))) (g : List (List Byte)) :
    finished (done ++ [g]) = finished done ++ (lineOf g ++ [nl]) := by
  unfold finished
  rw [List.flatMap_append]
  simp only [List.flatMap_cons, List.flatMap_nil, List.append_nil]

/- The last line has no newline behind it. -/
theorem finished_last (done : List (List (List Byte))) (g : List (List Byte)) :
    [nl].intercalate ((done ++ [g]).map lineOf) = finished done ++ lineOf g := by
  induction done with
  | nil => exact List.intercalate_singleton
  | cons first done ih =>
    rw [List.cons_append, List.map_cons, List.intercalate_cons_of_ne_nil (by simp), ih]
    simp only [finished, List.flatMap_cons, List.append_assoc]

------------
-- A Round of the Loop
------------

/- The variables of the loop; pointers are indices. -/
structure Wrapping where
  addrbuf : List Byte
  start : Nat
  lastnl : Option Nat
  ptr : Nat

/-
  A round of the loop of `rfc822_getaddrs_wrap`, none where
  it ends; the byte behind the text is 0.
-/
def wrapRound (w : Int) (s : Wrapping) : Option Wrapping :=
  if s.addrbuf.getD s.ptr 0 = 0 then
    none
  else
    let ptr := s.ptr + ((s.addrbuf.drop s.ptr).takeWhile fun c => c ≠ 0 ∧ c ≠ nl).length
    let next := if s.addrbuf.getD ptr 0 ≠ 0 then ptr + 1 else ptr
    if (ptr : Int) - s.start < w then
      let addrbuf :=
        match s.lastnl with
        | some last => s.addrbuf.set last (chr ' ')
        | none => s.addrbuf
      some ⟨addrbuf, s.start, some ptr, next⟩
    else
      match s.lastnl with
      | some last => some ⟨s.addrbuf, last + 1, none, ptr⟩
      | none => some ⟨s.addrbuf, ptr + 1, none, next⟩

theorem wrapRound_end (w : Int) (addrbuf : List Byte) (start : Nat) (lastnl : Option Nat) :
    wrapRound w ⟨addrbuf, start, lastnl, addrbuf.length⟩ = none := by
  unfold wrapRound
  exact if_pos (by simp)

theorem getD_zero {addrbuf : List Byte} (hZero : 0 ∉ addrbuf) (ptr : Nat) :
    addrbuf.getD ptr 0 = 0 ↔ addrbuf.length ≤ ptr := by
  constructor
  · intro hThis
    by_contra hMore
    rw [List.getD_eq_getElem _ _ (Nat.lt_of_not_le hMore)] at hThis
    exact hZero (hThis ▸ List.getElem_mem _)
  · intro hEnd
    simp [hEnd]

theorem takeWhile_nulFree {text : List Byte} (hZero : 0 ∉ text) :
    text.takeWhile (fun c => c ≠ 0 ∧ c ≠ nl) = text.takeWhile (· ≠ nl) := by
  induction text with
  | nil => rfl
  | cons c text ih =>
    rw [List.mem_cons, not_or] at hZero
    have hC : c ≠ 0 := fun hThis => hZero.1 hThis.symm
    rw [List.takeWhile_cons, List.takeWhile_cons, ih hZero.2]
    simp only [ne_eq, hC, not_false_eq_true, true_and]

def Wrapping.left (s : Wrapping) : Nat :=
  2 * (s.addrbuf.length - s.ptr) + s.lastnl.toList.length

/- A round of `wrapLoop` is a round, and less is left. -/
theorem wrapLoop_round {w : Nat} (fuel : Nat) {s : Wrapping} (hZero : 0 ∉ s.addrbuf)
    (hMore : s.ptr < s.addrbuf.length) :
    ∃ u, wrapRound w s = some u ∧ 0 ∉ u.addrbuf ∧ u.left < s.left ∧
      wrapLoop w (fuel + 1) s.addrbuf s.start s.lastnl s.ptr =
        wrapLoop w fuel u.addrbuf u.start u.lastnl u.ptr := by
  have hDrop : 0 ∉ s.addrbuf.drop s.ptr := fun hIn => hZero (List.mem_of_mem_drop hIn)
  have hSet : ∀ last, 0 ∉ s.addrbuf.set last (chr ' ') := by
    intro last hIn
    rcases List.mem_or_eq_of_mem_set hIn with hOld | hNew
    · exact hZero hOld
    · exact absurd hNew (by decide)
  have hLeft : ((s.addrbuf.drop s.ptr).takeWhile (· ≠ nl)).length ≤ s.addrbuf.length - s.ptr := by
    rw [← List.length_drop]
    exact (List.takeWhile_sublist _).length_le
  have hHere : ¬ s.addrbuf.getD s.ptr 0 = 0 := by
    rw [getD_zero hZero]
    omega
  rw [wrapRound, if_neg hHere, takeWhile_nulFree hDrop, wrapLoop, if_pos hMore]
  dsimp only
  generalize ((s.addrbuf.drop s.ptr).takeWhile (· ≠ nl)).length = n at *
  have hWidth : ((s.ptr + n : Nat) : Int) - s.start < w ↔ s.ptr + n < w + s.start := by omega
  simp only [hWidth, ne_eq, getD_zero hZero (s.ptr + n), Nat.not_le]
  rcases s with ⟨addrbuf, start, lastnl, ptr⟩
  dsimp only at *
  unfold Wrapping.left
  cases lastnl with
  | none =>
    split <;> refine ⟨_, rfl, hZero, ?_, rfl⟩
    all_goals
      simp only [Option.toList_none, Option.toList_some, List.length_nil, List.length_singleton]
      split <;> omega
  | some last =>
    split
    · refine ⟨_, rfl, hSet last, ?_, rfl⟩
      simp only [Option.toList_some, List.length_singleton, List.length_set]
      split <;> omega
    · refine ⟨_, rfl, hZero, ?_, rfl⟩
      simp only [Option.toList_none, Option.toList_some, List.length_nil, List.length_singleton]
      omega

/- With enough fuel `wrapLoop` comes to the end of the run. -/
theorem wrapLoop_eq {w : Nat} (fuel : Nat) {s t : Wrapping} (hZero : 0 ∉ s.addrbuf)
    (hFuel : s.left ≤ fuel) (hRun : Steps (wrapRound w) s t) (hEnd : wrapRound w t = none) :
    wrapLoop w fuel s.addrbuf s.start s.lastnl s.ptr = t.addrbuf := by
  induction fuel generalizing s with
  | zero =>
    have hNone : wrapRound w s = none := by
      unfold Wrapping.left at hFuel
      exact if_pos ((getD_zero hZero _).mpr (by omega))
    rcases Relation.ReflTransGen.cases_head hRun with hSame | ⟨u, hStep, _⟩
    · rw [wrapLoop, hSame]
    · rw [hNone] at hStep
      cases hStep
  | succ fuel ih =>
    by_cases hMore : s.ptr < s.addrbuf.length
    · rcases wrapLoop_round fuel hZero hMore with ⟨u, hRound, hFree, hLess, hLoop⟩
      rcases Relation.ReflTransGen.cases_head hRun with hSame | ⟨v, hStep, hRest⟩
      · rw [hSame, hEnd] at hRound
        cases hRound
      · rw [hRound] at hStep
        rw [hLoop, Option.some.inj hStep]
        rw [Option.some.inj hStep] at hFree hLess
        exact ih hFree (by omega) hRest
    · have hNone : wrapRound w s = none :=
        if_pos ((getD_zero hZero _).mpr (Nat.le_of_not_lt hMore))
      rcases Relation.ReflTransGen.cases_head hRun with hSame | ⟨u, hStep, _⟩
      · rw [wrapLoop, if_neg hMore, hSame]
      · rw [hNone] at hStep
        cases hStep

/- A piece that the loop passes over. -/
def Unbroken (p : List Byte) : Prop :=
  0 ∉ p ∧ nl ∉ p

section Round

variable {w : Int} {front p : List Byte} {rest : List (List Byte)} {start ptr : Nat}

theorem drop_piece (hLow : front.length ≤ ptr) (hHigh : ptr ≤ front.length + p.length) :
    (front ++ (p ++ rest.flatMap (nl :: ·))).drop ptr =
      p.drop (ptr - front.length) ++ rest.flatMap (nl :: ·) := by
  rw [List.drop_append, List.drop_eq_nil_of_le hLow, List.nil_append,
    List.drop_append_of_le_length (by omega)]

/- The place where the scan of a round stops. -/
theorem scan_piece (hPlain : Unbroken p) (hLow : front.length ≤ ptr)
    (hHigh : ptr ≤ front.length + p.length) :
    ptr + (((front ++ (p ++ rest.flatMap (nl :: ·))).drop ptr).takeWhile
        fun c => c ≠ 0 ∧ c ≠ nl).length =
      front.length + p.length := by
  have hAll : ∀ c, c ∈ p.drop (ptr - front.length) → decide (c ≠ 0 ∧ c ≠ nl) = true := by
    intro c hMem
    have hIn := List.mem_of_mem_drop hMem
    exact decide_eq_true ⟨fun hZero => hPlain.1 (hZero ▸ hIn), fun hNl => hPlain.2 (hNl ▸ hIn)⟩
  have hTail : (rest.flatMap (nl :: ·)).takeWhile (fun c => decide (c ≠ 0 ∧ c ≠ nl)) = [] := by
    cases rest with
    | nil => rfl
    | cons q rest => rfl
  rw [drop_piece hLow hHigh, List.takeWhile_append_of_pos hAll, hTail,
    List.append_nil, List.length_drop]
  omega

/- Only the end of the text is 0. -/
theorem getD_piece (hPlain : Unbroken p) (hLow : front.length ≤ ptr)
    (hHigh : ptr ≤ front.length + p.length) :
    (front ++ (p ++ rest.flatMap (nl :: ·))).getD ptr 0 = 0 ↔
      ptr = front.length + p.length ∧ rest = [] := by
  rw [List.getD_eq_getElem?_getD, ← List.head?_drop, drop_piece hLow hHigh]
  cases hDrop : p.drop (ptr - front.length) with
  | nil =>
    have hEnd := List.drop_eq_nil_iff.mp hDrop
    cases rest with
    | nil =>
      simp only [List.flatMap_nil, List.append_nil, List.head?_nil,
        Option.getD_none, and_true, true_iff]
      omega
    | cons q rest =>
      have hNl : nl ≠ (0 : Byte) := by decide
      simp [hNl]
  | cons c after =>
    have hIn : c ∈ p := List.mem_of_mem_drop (hDrop ▸ List.mem_cons_self)
    have hZero : c ≠ 0 := fun hThis => hPlain.1 (hThis ▸ hIn)
    have hMore : ptr - front.length < p.length := by
      by_contra hNot
      rw [List.drop_eq_nil_of_le (by omega)] at hDrop
      cases hDrop
    simp only [List.cons_append, List.head?_cons, Option.getD_some, hZero, false_iff]
    omega

variable {lastnl : Option Nat}

/- A round that does not end the loop. -/
theorem wrapRound_piece (hPlain : Unbroken p) (hLow : front.length ≤ ptr)
    (hHigh : ptr ≤ front.length + p.length) (hMore : ptr = front.length + p.length → rest ≠ []) :
    wrapRound w ⟨front ++ (p ++ rest.flatMap (nl :: ·)), start, lastnl, ptr⟩ =
      let stop := front.length + p.length
      let next := if rest = [] then stop else stop + 1
      if (stop : Int) - start < w then
        let addrbuf :=
          match lastnl with
          | some last => (front ++ (p ++ rest.flatMap (nl :: ·))).set last (chr ' ')
          | none => front ++ (p ++ rest.flatMap (nl :: ·))
        some ⟨addrbuf, start, some stop, next⟩
      else
        match lastnl with
        | some last => some ⟨front ++ (p ++ rest.flatMap (nl :: ·)), last + 1, none, stop⟩
        | none => some ⟨front ++ (p ++ rest.flatMap (nl :: ·)), stop + 1, none, next⟩ := by
  have hHere : ¬ (front ++ (p ++ rest.flatMap (nl :: ·))).getD ptr 0 = 0 := by
    rw [getD_piece hPlain hLow hHigh]
    exact fun hThis => hMore hThis.1 hThis.2
  have hNext : (if (front ++ (p ++ rest.flatMap (nl :: ·))).getD
        (front.length + p.length) 0 ≠ 0 then
      front.length + p.length + 1 else front.length + p.length) =
      if rest = [] then front.length + p.length else front.length + p.length + 1 := by
    have hEnd := @getD_piece front p rest _ hPlain
      (Nat.le_add_right front.length p.length) (Nat.le_refl _)
    simp only [ne_eq, hEnd, true_and, ite_not]
  unfold wrapRound
  dsimp only
  rw [if_neg hHere, scan_piece hPlain hLow hHigh, hNext]

end Round

------------
-- A Run of the Loop
------------

/- A line is short, or has a single piece. -/
def Fits (w : Int) (g : List (List Byte)) : Prop :=
  g ≠ [] ∧ (((lineOf g).length : Int) < w ∨ g.length = 1)

/- The text is the pieces in lines, none of which is too long. -/
def Wraps (w : Int) (ps : List (List Byte)) (text : List Byte) : Prop :=
  ∃ groups : List (List (List Byte)), groups.flatten = ps ∧ (∀ g, g ∈ groups → Fits w g) ∧
    text = [nl].intercalate (groups.map lineOf)

/- The loop ends with the pieces in lines. -/
def Ends (w : Int) (ps : List (List Byte)) (s : Wrapping) : Prop :=
  ∃ t, Steps (wrapRound w) s t ∧ wrapRound w t = none ∧ Wraps w ps t.addrbuf

section Run

variable {w : Int} {ps : List (List Byte)}

theorem Ends.step {s t : Wrapping} (hStep : wrapRound w s = some t) (hEnds : Ends w ps t) :
    Ends w ps s := by
  rcases hEnds with ⟨last, hRun, hEnd⟩
  exact ⟨last, hRun.head hStep, hEnd⟩

theorem fits_append {done : List (List (List Byte))} {g : List (List Byte)}
    (hDone : ∀ h, h ∈ done → Fits w h) (hFits : Fits w g) : ∀ h, h ∈ done ++ [g] → Fits w h := by
  intro h hMem
  rcases List.mem_append.mp hMem with hOld | hNew
  · exact hDone h hOld
  · exact List.mem_singleton.mp hNew ▸ hFits

/- What is left of the text is one line. -/
theorem Ends.last {done : List (List (List Byte))} {g : List (List Byte)}
    (hDone : ∀ h, h ∈ done → Fits w h) (hFits : Fits w g) {start ptr : Nat}
    {lastnl : Option Nat} (hEnd : ptr = (finished done ++ lineOf g).length) :
    Ends w (done.flatten ++ g) ⟨finished done ++ lineOf g, start, lastnl, ptr⟩ := by
  refine ⟨_, Steps.refl _, ?_, done ++ [g], ?_, ?_, (finished_last done g).symm⟩
  · rw [hEnd]
    exact wrapRound_end _ _ _ _
  · simp
  · exact fits_append hDone hFits

/- The loop at the start of a line whose first piece is `p`. -/
def AtStart (w : Int) (p : List Byte) (rest : List (List Byte)) : Prop :=
  ∀ done, (∀ h, h ∈ done → Fits w h) → ∀ ptr, (finished done).length ≤ ptr →
    ptr ≤ (finished done).length + p.length →
    Ends w (done.flatten ++ p :: rest)
      ⟨finished done ++ (p ++ rest.flatMap (nl :: ·)), (finished done).length, none, ptr⟩

/- The loop behind the pieces `g` of a line, which fit. -/
def Behind (w : Int) (p : List Byte) (rest : List (List Byte)) : Prop :=
  ∀ done, (∀ h, h ∈ done → Fits w h) → ∀ g, g ≠ [] → ((lineOf g).length : Int) < w →
    Ends w (done.flatten ++ (g ++ p :: rest))
      ⟨finished (done ++ [g]) ++ (p ++ rest.flatMap (nl :: ·)), (finished done).length,
        some ((finished done).length + (lineOf g).length), (finished (done ++ [g])).length⟩

variable {p q : List Byte} {rest : List (List Byte)}

theorem fits_singleton (p : List Byte) : Fits w [p] :=
  ⟨List.cons_ne_nil p [], Or.inr rfl⟩

theorem atStart_nil (hP : Unbroken p) : AtStart w p [] := by
  intro done hDone ptr hLow hHigh
  have hLast : ∀ start ptr lastnl, ptr = (finished done ++ p).length →
      Ends w (done.flatten ++ [p]) ⟨finished done ++ p, start, lastnl, ptr⟩ := by
    intro start ptr lastnl hEnd
    have hEnds := @Ends.last w done [p] hDone (fits_singleton p) start ptr lastnl
    rw [lineOf_singleton] at hEnds
    exact hEnds hEnd
  rw [List.flatMap_nil, List.append_nil]
  by_cases hEnd : ptr = (finished done).length + p.length
  · exact hLast _ _ _ (by rw [List.length_append, hEnd])
  · have hRound := @wrapRound_piece w (finished done) p []
      (finished done).length ptr none hP hLow hHigh (fun hThis => absurd hThis hEnd)
    rw [List.flatMap_nil, List.append_nil] at hRound
    dsimp only at hRound
    rw [if_pos rfl] at hRound
    split at hRound
    · exact Ends.step hRound (hLast _ _ _ (by rw [List.length_append]))
    · exact Ends.step hRound (hLast _ _ _ (by rw [List.length_append]))

theorem atStart_cons (hP : Unbroken p) (hStart : AtStart w q rest)
    (hBehind : Behind w q rest) : AtStart w p (q :: rest) := by
  intro done hDone ptr hLow hHigh
  have hRound := @wrapRound_piece w (finished done) p (q :: rest)
    (finished done).length ptr none hP hLow hHigh (fun _ => List.cons_ne_nil q rest)
  have hText : finished done ++ (p ++ (q :: rest).flatMap (nl :: ·)) =
      finished (done ++ [[p]]) ++ (q ++ rest.flatMap (nl :: ·)) := by
    simp [finished_append, lineOf_singleton]
  have hNext : (finished done).length + p.length + 1 = (finished (done ++ [[p]])).length := by
    simp [finished_append, lineOf_singleton, Nat.add_assoc]
  dsimp only at hRound
  rw [if_neg (List.cons_ne_nil q rest), hText, hNext] at hRound
  rw [hText]
  split at hRound
  · rename_i hFit
    have hShort : ((lineOf [p]).length : Int) < w := by
      rw [lineOf_singleton]
      omega
    have hEnds := hBehind done hDone [p] (List.cons_ne_nil p []) hShort
    rw [lineOf_singleton] at hEnds
    exact Ends.step hRound hEnds
  · have hEnds := hStart (done ++ [[p]]) (fits_append hDone (fits_singleton p)) _
      (Nat.le_refl _) (Nat.le_add_right _ _)
    rw [List.flatten_append, List.append_assoc] at hEnds
    exact Ends.step hRound hEnds

/- The newline behind a line becomes a blank. -/
theorem set_newline (done : List (List (List Byte))) (g : List (List Byte)) (after : List Byte) :
    (finished (done ++ [g]) ++ after).set ((finished done).length + (lineOf g).length) (chr ' ') =
      finished done ++ (lineOf g ++ chr ' ' :: after) := by
  have hSplit : finished (done ++ [g]) ++ after = (finished done ++ lineOf g) ++ nl :: after := by
    simp [finished_append]
  rw [hSplit, ← List.length_append, List.set_append_right _ _ (Nat.le_refl _), Nat.sub_self,
    List.set_cons_zero, List.append_assoc]

/- Where the piece does not fit, it starts a line. -/
theorem behind_of_atStart (hP : Unbroken p) (hStart : AtStart w p rest)
    {done : List (List (List Byte))} (hDone : ∀ h, h ∈ done → Fits w h)
    {g : List (List Byte)} (hSome : g ≠ []) (hShort : ((lineOf g).length : Int) < w)
    (hMore : p = [] → rest ≠ [])
    (hFit : ¬ (((finished (done ++ [g])).length + p.length : Nat) : Int) -
      (finished done).length < w) :
    Ends w (done.flatten ++ (g ++ p :: rest))
      ⟨finished (done ++ [g]) ++ (p ++ rest.flatMap (nl :: ·)), (finished done).length,
        some ((finished done).length + (lineOf g).length), (finished (done ++ [g])).length⟩ := by
  have hRound := @wrapRound_piece w (finished (done ++ [g])) p rest (finished done).length _
    (some ((finished done).length + (lineOf g).length)) hP (Nat.le_refl _)
    (Nat.le_add_right _ _) (fun hEnd => hMore (List.eq_nil_of_length_eq_zero (by omega)))
  have hNext : (finished done).length + (lineOf g).length + 1 =
      (finished (done ++ [g])).length := by
    simp [finished_append, Nat.add_assoc]
  have hEnds := hStart (done ++ [g]) (fits_append hDone ⟨hSome, Or.inl hShort⟩) _
    (Nat.le_add_right _ p.length) (Nat.le_refl _)
  dsimp only at hRound
  rw [if_neg hFit, hNext] at hRound
  simp only [List.flatten_append, List.flatten_cons, List.flatten_nil, List.append_nil,
    List.append_assoc] at hEnds
  exact Ends.step hRound hEnds

theorem behind_nil (hP : Unbroken p) (hStart : AtStart w p []) : Behind w p [] := by
  intro done hDone g hSome hShort
  have hG : Fits w g := ⟨hSome, Or.inl hShort⟩
  by_cases hNone : p = []
  · have hEnds := @Ends.last w (done ++ [g]) [p] (fits_append hDone hG) (fits_singleton p)
      (finished done).length _ (some ((finished done).length + (lineOf g).length)) rfl
    simpa [hNone, lineOf_singleton] using hEnds
  by_cases hFit : (((finished (done ++ [g])).length + p.length : Nat) : Int) -
      (finished done).length < w
  · have hRound := @wrapRound_piece w (finished (done ++ [g])) p [] (finished done).length _
      (some ((finished done).length + (lineOf g).length)) hP (Nat.le_refl _)
      (Nat.le_add_right _ _)
      (fun hEnd => absurd (List.eq_nil_of_length_eq_zero (by omega)) hNone)
    dsimp only at hRound
    rw [if_pos hFit, set_newline, if_pos rfl, List.flatMap_nil, List.append_nil,
      ← lineOf_append hSome] at hRound
    have hLength : (finished (done ++ [g])).length + p.length =
        (finished done ++ lineOf (g ++ [p])).length := by
      simp [finished_append, lineOf_append hSome]
      omega
    have hLine : Fits w (g ++ [p]) := by
      refine ⟨List.append_ne_nil_of_left_ne_nil hSome _, Or.inl ?_⟩
      rw [hLength, List.length_append] at hFit
      omega
    rw [List.flatMap_nil, List.append_nil]
    exact Ends.step hRound (Ends.last hDone hLine hLength)
  · exact behind_of_atStart hP hStart hDone hSome hShort (fun hThis => absurd hThis hNone) hFit

theorem behind_cons (hP : Unbroken p) (hStart : AtStart w p (q :: rest))
    (hBehind : Behind w q rest) : Behind w p (q :: rest) := by
  intro done hDone g hSome hShort
  by_cases hFit : (((finished (done ++ [g])).length + p.length : Nat) : Int) -
      (finished done).length < w
  · have hRound := @wrapRound_piece w (finished (done ++ [g])) p (q :: rest)
      (finished done).length _ (some ((finished done).length + (lineOf g).length)) hP
      (Nat.le_refl _) (Nat.le_add_right _ _) (fun _ => List.cons_ne_nil q rest)
    have hLength : (finished (done ++ [g])).length + p.length =
        (finished done).length + (lineOf (g ++ [p])).length := by
      simp [finished_append, lineOf_append hSome]
      omega
    have hText : finished done ++ (lineOf g ++ chr ' ' :: (p ++ (q :: rest).flatMap (nl :: ·))) =
        finished (done ++ [g ++ [p]]) ++ (q ++ rest.flatMap (nl :: ·)) := by
      simp [finished_append, lineOf_append hSome]
    have hNext : (finished done).length + (lineOf (g ++ [p])).length + 1 =
        (finished (done ++ [g ++ [p]])).length := by
      simp [finished_append, Nat.add_assoc]
    dsimp only at hRound
    rw [if_pos hFit, set_newline, if_neg (List.cons_ne_nil q rest), hLength, hText, hNext] at hRound
    have hEnds := hBehind done hDone (g ++ [p]) (List.append_ne_nil_of_left_ne_nil hSome _)
      (by omega)
    rw [List.append_assoc] at hEnds
    exact Ends.step hRound hEnds
  · exact behind_of_atStart hP hStart hDone hSome hShort (fun _ => List.cons_ne_nil q rest) hFit

/- From every place, by induction on the pieces that are left. -/
theorem run_pieces (hPlain : ∀ r, r ∈ p :: rest → Unbroken r) :
    AtStart w p rest ∧ Behind w p rest := by
  induction rest generalizing p with
  | nil =>
    have hP := hPlain p List.mem_cons_self
    exact ⟨atStart_nil hP, behind_nil hP (atStart_nil hP)⟩
  | cons q rest ih =>
    have hP := hPlain p List.mem_cons_self
    rcases ih (fun r hMem => hPlain r (List.mem_cons_of_mem p hMem)) with ⟨hStart, hBehind⟩
    have hThis := atStart_cons hP hStart hBehind
    exact ⟨hThis, behind_cons hP hThis hBehind⟩

end Run

/-
  A list cut at the blanks of its separators: the separator
  is empty, or a blank, or a comma and a blank.
-/
def pieces : List Addr → List (List Byte)
  | [] => [[]]
  | [a] => [printAddr a]
  | a :: next :: rest =>
    let separator := printSeparator a next
    let after := pieces (next :: rest)
    if separator = [] then
      (printAddr a ++ after.headD []) :: after.tail
    else
      (printAddr a ++ separator.dropLast) :: after

/- A separator is cut at the one blank at its end. -/
theorem separator_forms (a next : Addr) :
    printSeparator a next = [] ∨ printSeparator a next = bytes " " ∨
      printSeparator a next = bytes ", " := by
  unfold printSeparator
  repeat' split
  all_goals
    simp only [true_or, or_true]

theorem pieces_ne_nil (addrs : List Addr) : pieces addrs ≠ [] := by
  cases addrs with
  | nil => exact List.cons_ne_nil _ _
  | cons a rest =>
    cases rest with
    | nil => exact List.cons_ne_nil _ _
    | cons next rest =>
      rw [pieces]
      split <;> exact List.cons_ne_nil _ _

/- The list is printed as its pieces, with `c` between them. -/
theorem printSep_pieces (c : Byte) (f : List Byte → List Byte) (hNil : f [] = [])
    (hBlank : f (bytes " ") = [c]) (hComma : f (bytes ", ") = [chr ',', c])
    (addrs : List Addr) : rfc822PrintSep f addrs = [c].intercalate (pieces addrs) := by
  induction addrs with
  | nil => rfl
  | cons a rest ih =>
    cases rest with
    | nil => exact List.intercalate_singleton.symm
    | cons next rest =>
      rcases List.exists_cons_of_ne_nil (pieces_ne_nil (next :: rest)) with ⟨p, ps, hPs⟩
      rw [hPs, intercalate_cons_eq] at ih
      rw [rfc822PrintSep, pieces, ih, hPs]
      rcases separator_forms a next with hSep | hSep | hSep
      · rw [hSep, hNil, if_pos rfl, intercalate_cons_eq]
        simp
      · rw [hSep, hBlank, if_neg (by decide), intercalate_cons_eq]
        simp [bytes]
      · rw [hSep, hComma, if_neg (by decide), intercalate_cons_eq]
        simp [bytes]

/- Neither a NUL nor a newline is in a piece. -/
theorem unbroken_pieces {addrs : List Addr} (hPlain : ∀ a, a ∈ addrs → Unbroken (printAddr a)) :
    ∀ p, p ∈ pieces addrs → Unbroken p := by
  have hNone : Unbroken [] := ⟨List.not_mem_nil, List.not_mem_nil⟩
  have hAppend : ∀ p q, Unbroken p → Unbroken q → Unbroken (p ++ q) := fun p q hP hQ =>
    ⟨List.not_mem_append hP.1 hQ.1, List.not_mem_append hP.2 hQ.2⟩
  induction addrs with
  | nil => exact fun p hMem => List.mem_singleton.mp hMem ▸ hNone
  | cons a rest ih =>
    have hA := hPlain a List.mem_cons_self
    have hRest := ih fun b hMem => hPlain b (List.mem_cons_of_mem a hMem)
    cases rest with
    | nil => exact fun p hMem => List.mem_singleton.mp hMem ▸ hA
    | cons next rest =>
      rcases List.exists_cons_of_ne_nil (pieces_ne_nil (next :: rest)) with ⟨q, qs, hQs⟩
      rw [hQs] at hRest
      intro p hMem
      rw [pieces, hQs] at hMem
      have hComma : Unbroken (bytes ", ").dropLast := ⟨by decide, by decide⟩
      rcases separator_forms a next with hSep | hSep | hSep
      · rw [hSep, if_pos rfl] at hMem
        rcases List.mem_cons.mp hMem with hHead | hTail
        · rw [hHead]
          exact hAppend _ _ hA (hRest q List.mem_cons_self)
        · exact hRest p (List.mem_cons_of_mem q hTail)
      · rw [hSep, if_neg (by decide)] at hMem
        rcases List.mem_cons.mp hMem with hHead | hTail
        · rw [hHead]
          exact hAppend _ _ hA hNone
        · exact hRest p hTail
      · rw [hSep, if_neg (by decide)] at hMem
        rcases List.mem_cons.mp hMem with hHead | hTail
        · rw [hHead]
          exact hAppend _ _ hA hComma
        · exact hRest p hTail

/- What the second pass writes, and the place behind it. -/
def secondPass (addrs : List Addr) : Option (Option (Slots Byte)) :=
  Slots.writes ((rfc822PrintSep saveaddrsepWrap addrs).map fun c _ => c)
    (some ⟨List.replicate ((rfc822Print addrs).length + 1) 0, 0⟩)

section Parsed

variable {text : List Byte}

theorem unbroken_parsed (hPrint : ∀ a, a ∈ parseaddr (tokenize text) → nl ∉ printAddr a) :
    ∀ a, a ∈ parseaddr (tokenize text) → Unbroken (printAddr a) :=
  fun a hMem => ⟨zero_printAddr (nulFree_of_text hMem), hPrint a hMem⟩

theorem ends_getaddrsWrap (w : Int) {addrs : List Addr}
    (hPlain : ∀ a, a ∈ addrs → Unbroken (printAddr a)) :
    Ends w (pieces addrs) ⟨rfc822PrintSep saveaddrsepWrap addrs, 0, none, 0⟩ := by
  rcases List.exists_cons_of_ne_nil (pieces_ne_nil addrs) with ⟨p, rest, hPieces⟩
  have hRun := (@run_pieces w p rest (hPieces ▸ unbroken_pieces hPlain)).1 []
    (fun h hMem => absurd hMem List.not_mem_nil) 0 (Nat.zero_le _) (Nat.zero_le _)
  rw [printSep_pieces nl saveaddrsepWrap rfl (by decide) (by decide), hPieces, intercalate_cons_eq]
  exact hRun

/- So is what `rfc822GetaddrsWrap` gives with its fuel. -/
theorem wraps_getaddrsWrap (w : Nat)
    (hPrint : ∀ a, a ∈ parseaddr (tokenize text) → nl ∉ printAddr a) :
    Wraps w (pieces (parseaddr (tokenize text)))
      (rfc822GetaddrsWrap (parseaddr (tokenize text)) w) := by
  have hPlain := unbroken_parsed hPrint
  have hZero : 0 ∉ rfc822PrintSep saveaddrsepWrap (parseaddr (tokenize text)) := by
    rcases List.exists_cons_of_ne_nil (pieces_ne_nil (parseaddr (tokenize text))) with
      ⟨p, rest, hPieces⟩
    have hEach := unbroken_pieces hPlain
    rw [hPieces] at hEach
    rw [printSep_pieces nl saveaddrsepWrap rfl (by decide) (by decide), hPieces,
      intercalate_cons_eq]
    intro hIn
    rcases List.mem_append.mp hIn with hFirst | hRest
    · exact (hEach p List.mem_cons_self).1 hFirst
    · rcases List.mem_flatMap.mp hRest with ⟨q, hQ, hInside⟩
      rcases List.mem_cons.mp hInside with hNl | hText
      · exact absurd hNl (by decide)
      · exact (hEach q (List.mem_cons_of_mem p hQ)).1 hText
  rcases ends_getaddrsWrap w hPlain with ⟨t, hRun, hEnd, hWraps⟩
  have hLoop := wrapLoop_eq _ hZero (Nat.le_refl _) hRun hEnd
  unfold rfc822GetaddrsWrap
  dsimp only
  have hSame : wrapLoop w (2 * (rfc822PrintSep saveaddrsepWrap
      (parseaddr (tokenize text))).length) _ 0 none 0 = t.addrbuf := hLoop
  rw [hSame]
  exact hWraps

/-
  A parsed list whose addresses print without newlines: the
  buffer of the first pass is filled, but for its last byte;
  the loop ends; the result has the pieces of the list in
  lines, each of which is short or a single piece.
-/
theorem getaddrsWrap_lines (w : Int)
    (hPrint : ∀ a, a ∈ parseaddr (tokenize text) → nl ∉ printAddr a) :
    let addrs := parseaddr (tokenize text)
    let addrbuf := rfc822PrintSep saveaddrsepWrap addrs
    secondPass addrs = some (some ⟨addrbuf ++ [0], (rfc822Print addrs).length⟩) ∧
      rfc822Print addrs = lineOf (pieces addrs) ∧
      (∀ p, p ∈ pieces addrs → Unbroken p) ∧
      ∃ t, Steps (wrapRound w) ⟨addrbuf, 0, none, 0⟩ t ∧ wrapRound w t = none ∧
        Wraps w (pieces addrs) t.addrbuf := by
  intro addrs addrbuf
  have hBuf : addrbuf = [nl].intercalate (pieces addrs) :=
    printSep_pieces nl saveaddrsepWrap rfl (by decide) (by decide) addrs
  have hPrinted : rfc822Print addrs = lineOf (pieces addrs) := by
    rw [rfc822Print_eq]
    exact printSep_pieces (chr ' ') id rfl (by decide) (by decide) addrs
  have hLength : addrbuf.length = (rfc822Print addrs).length := by
    rcases List.exists_cons_of_ne_nil (pieces_ne_nil addrs) with ⟨p, rest, hPieces⟩
    rw [hBuf, hPrinted, hPieces, lineOf, intercalate_cons_eq, intercalate_cons_eq]
    simp
  have hPlain := unbroken_parsed hPrint
  refine ⟨?_, hPrinted, unbroken_pieces hPlain, ends_getaddrsWrap w hPlain⟩
  change Slots.writes (addrbuf.map fun c _ => c) _ = _
  rw [Slots.writes_items, ← hLength, List.length_replicate,
    if_pos (Nat.le_succ _), List.drop_replicate, Nat.add_sub_cancel_left]
  rfl

/- Three addresses in lines of less than 10 bytes. -/
theorem getaddrsWrap_three : let addrs := parseaddr (tokenize (bytes "a@b, c@d, e@f"))
    let addrbuf := rfc822PrintSep saveaddrsepWrap addrs
    secondPass addrs = some (some ⟨addrbuf ++ [0], (rfc822Print addrs).length⟩) ∧
      rfc822Print addrs = lineOf (pieces addrs) ∧
      (∀ p, p ∈ pieces addrs → Unbroken p) ∧
      ∃ t, Steps (wrapRound 10) ⟨addrbuf, 0, none, 0⟩ t ∧ wrapRound 10 t = none ∧
        Wraps 10 (pieces addrs) t.addrbuf :=
  getaddrsWrap_lines 10 (by decide +kernel)

end Parsed

end Rfc822

end Wmail
