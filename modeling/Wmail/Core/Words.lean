import Wmail.Core.Runs
import Mathlib.Data.List.Basic

/-
  Lists cut at a separator, and their words.

  Key theorems include:
    * `wordsOf_seps_append`
    * `wordsOf_append_seps`
-/

namespace Wmail

section Words

variable {α : Type} [DecidableEq α] (sep : α)

/- The nonempty parts between separators. -/
def wordsOf (text : List α) : List (List α) :=
  (text.splitOn sep).filter (!·.isEmpty)

@[simp] theorem wordsOf_nil : wordsOf sep ([] : List α) = [] := by
  unfold wordsOf
  rw [List.splitOn_nil]
  rfl

/- A separator ends a word. -/
theorem wordsOf_append_sep (front rest : List α) :
    wordsOf sep (front ++ sep :: rest) = wordsOf sep front ++ wordsOf sep rest := by
  unfold wordsOf
  rw [List.splitOn_append_cons_self, List.filter_append]

@[simp] theorem wordsOf_cons_sep (rest : List α) :
    wordsOf sep (sep :: rest) = wordsOf sep rest := by
  have hOut := wordsOf_append_sep sep [] rest
  rw [List.nil_append, wordsOf_nil, List.nil_append] at hOut
  exact hOut

variable {sep}

theorem wordsOf_word {word : List α} (hWord : sep ∉ word) (hSome : word ≠ []) :
    wordsOf sep word = [word] := by
  unfold wordsOf
  rw [List.splitOn_eq_singleton hWord]
  simp [hSome]

/- The first word of a text that begins with none. -/
theorem wordsOf_append_word {word : List α} (hWord : sep ∉ word) (hSome : word ≠ [])
    (rest : List α) :
    wordsOf sep (word ++ rest) = (word ++ rest.takeWhile (· ≠ sep)) ::
        wordsOf sep (rest.dropWhile (· ≠ sep)) := by
  have hFront : sep ∉ word ++ rest.takeWhile (· ≠ sep) := by
    intro hMem
    rcases List.mem_append.mp hMem with hIn | hIn
    · exact hWord hIn
    · exact not_mem_takeWhile_separator sep rest hIn
  have hNe : word ++ rest.takeWhile (· ≠ sep) ≠ [] := by
    intro hNil
    exact hSome (List.append_eq_nil_iff.mp hNil).1
  have hSplit : word ++ rest = word ++ rest.takeWhile (· ≠ sep) ++ rest.dropWhile (· ≠ sep) := by
    rw [List.append_assoc, List.takeWhile_append_dropWhile]
  rw [hSplit]
  rcases dropWhile_separator sep rest with hNone | ⟨more, hRest⟩
  · rw [hNone, List.append_nil, wordsOf_word hFront hNe, wordsOf_nil]
  · rw [hRest, wordsOf_append_sep, wordsOf_word hFront hNe, wordsOf_cons_sep]
    rfl

/- Separators in front make no word. -/
theorem wordsOf_dropWhile (text : List α) : wordsOf sep (text.dropWhile (· = sep)) =
      wordsOf sep text := by
  induction text with
  | nil => rfl
  | cons b rest ih =>
    by_cases hSep : b = sep
    · subst hSep
      rw [List.dropWhile_cons_of_pos (by simp), ih, wordsOf_cons_sep]
    · rw [List.dropWhile_cons_of_neg (by simpa using hSep)]

theorem wordsOf_seps_append {seps : List α} (hSeps : ∀ b, b ∈ seps → b = sep)
    (text : List α) : wordsOf sep (seps ++ text) = wordsOf sep text := by
  induction seps with
  | nil => rfl
  | cons b rest ih =>
    rw [hSeps b List.mem_cons_self, List.cons_append, wordsOf_cons_sep]
    exact ih fun d hMem => hSeps d (List.mem_cons_of_mem b hMem)

/- Separators at the end make no word. -/
theorem wordsOf_append_seps {seps : List α} (hSeps : ∀ b, b ∈ seps → b = sep)
    (text : List α) : wordsOf sep (text ++ seps) = wordsOf sep text := by
  cases seps with
  | nil => rw [List.append_nil]
  | cons b rest =>
    have hNone : wordsOf sep rest = [] := by
      have hOut := wordsOf_seps_append (fun d hMem => hSeps d (List.mem_cons_of_mem b hMem)) []
      rw [List.append_nil, wordsOf_nil] at hOut
      exact hOut
    rw [hSeps b List.mem_cons_self, wordsOf_append_sep, hNone, List.append_nil]

end Words

end Wmail
