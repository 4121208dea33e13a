import Mathlib.Data.List.TakeWhile

/-
  The run of a list that meets a condition, and what is
  behind it.

  Key theorems include:
    * `cutAt_quoted`
    * `cutAt_eq`
-/

namespace Wmail

section Runs

variable {α : Type} {P : α → Bool}

theorem forall_takeWhile (P : α → Bool) (p : List α) : ∀ b, b ∈ p.takeWhile P → P b = true := by
  intro b hMem
  exact List.mem_takeWhile_imp hMem

theorem head_dropWhile_stop {p : List α} : ∀ b, (p.dropWhile P).head? = some b → P b = false := by
  intro b hHead
  have hStop := List.head?_dropWhile_not P p
  rw [hHead] at hStop
  simpa using hStop

/- A run ends where its condition first fails. -/
theorem takeWhile_run {front rest : List α} (hFront : ∀ b, b ∈ front → P b = true)
    (hRest : ∀ b, rest.head? = some b → P b = false) : (front ++ rest).takeWhile P = front := by
  rw [List.takeWhile_append_of_pos hFront]
  cases rest with
  | nil => rw [List.takeWhile_nil, List.append_nil]
  | cons b rest =>
    have hStop : ¬ P b = true := Bool.eq_false_iff.mp (hRest b rfl)
    rw [List.takeWhile_cons_of_neg hStop, List.append_nil]

theorem dropWhile_run {front rest : List α} (hFront : ∀ b, b ∈ front → P b = true)
    (hRest : ∀ b, rest.head? = some b → P b = false) : (front ++ rest).dropWhile P = rest := by
  rw [List.dropWhile_append_of_pos hFront]
  cases rest with
  | nil => rfl
  | cons b rest =>
    have hStop : ¬ P b = true := Bool.eq_false_iff.mp (hRest b rfl)
    rw [List.dropWhile_cons_of_neg hStop]

/- What is behind a run. -/
theorem drop_takeWhile_length (P : α → Bool) (p : List α) :
    p.drop (p.takeWhile P).length = p.dropWhile P := by
  have hSplit : p.takeWhile P ++ p.dropWhile P = p := List.takeWhile_append_dropWhile
  calc p.drop (p.takeWhile P).length = (p.takeWhile P ++ p.dropWhile P).drop
          (p.takeWhile P).length := by rw [hSplit]
    _ = p.dropWhile P := List.drop_left

end Runs

section Separators

variable {α : Type} [DecidableEq α] {q : α} {text : List α}

theorem not_separator (hText : q ∉ text) : ∀ b, b ∈ text → decide (b ≠ q) = true := by
  intro b hMem
  exact decide_eq_true (fun hSame => hText (hSame ▸ hMem))

theorem takeWhile_quoted (hText : q ∉ text) (rest : List α) :
    (text ++ q :: rest).takeWhile (· ≠ q) = text := by
  apply takeWhile_run (not_separator hText)
  intro b hHead
  cases hHead
  simp

theorem dropWhile_quoted (hText : q ∉ text) (rest : List α) :
    (text ++ q :: rest).dropWhile (· ≠ q) = q :: rest := by
  apply dropWhile_run (not_separator hText)
  intro b hHead
  cases hHead
  simp

theorem takeWhile_unclosed (hText : q ∉ text) : text.takeWhile (· ≠ q) = text := by
  rw [List.takeWhile_eq_self_iff]
  exact not_separator hText

theorem not_mem_takeWhile_separator (q : α) (text : List α) : q ∉ text.takeWhile (· ≠ q) := by
  intro hMem
  have hPass := forall_takeWhile _ text q hMem
  simp at hPass

/- The run ends with the text, or in front of a separator. -/
theorem dropWhile_separator (q : α) (text : List α) :
    text.dropWhile (· ≠ q) = [] ∨ ∃ rest, text.dropWhile (· ≠ q) = q :: rest := by
  cases hDrop : text.dropWhile (· ≠ q) with
  | nil => exact Or.inl rfl
  | cons b rest =>
    have hStop : decide (b ≠ q) = false := by
      apply head_dropWhile_stop b
      rw [hDrop]
      rfl
    have hHere : b = q := by simpa using hStop
    exact Or.inr ⟨rest, by rw [hHere]⟩

/- A text cut at its first separator, which is left out. -/
def cutAt (q : α) (text : List α) : Option (List α × List α) :=
  match text.dropWhile (· ≠ q) with
  | [] => none
  | _ :: rest => some (text.takeWhile (· ≠ q), rest)

theorem cutAt_quoted (hText : q ∉ text) (rest : List α) :
    cutAt q (text ++ q :: rest) = some (text, rest) := by
  unfold cutAt
  rw [dropWhile_quoted hText, takeWhile_quoted hText]

theorem cutAt_unclosed (hText : q ∉ text) : cutAt q text = none := by
  have hNone : text.dropWhile (· ≠ q) = [] := by
    rw [List.dropWhile_eq_nil_iff]
    exact not_separator hText
  unfold cutAt
  rw [hNone]

/- What is cut off is followed by the separator. -/
theorem cutAt_eq {front rest : List α} (hCut : cutAt q text = some (front, rest)) :
    q ∉ front ∧ text = front ++ q :: rest := by
  have hSplit : text.takeWhile (· ≠ q) ++ text.dropWhile (· ≠ q) = text :=
    List.takeWhile_append_dropWhile
  unfold cutAt at hCut
  rcases dropWhile_separator q text with hNone | ⟨more, hDrop⟩
  · rw [hNone] at hCut
    cases hCut
  · rw [hDrop] at hCut hSplit
    cases hCut
    exact ⟨not_mem_takeWhile_separator q text, hSplit.symm⟩

end Separators

end Wmail
