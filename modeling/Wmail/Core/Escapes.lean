import Mathlib.Data.List.Basic

/-
  Texts in which an escape takes the meaning of the element
  after it.

  Key theorems include:
    * `unescaped_of_not_mem`
    * `unescaped_escapeAll`
-/

namespace Wmail

section Escapes

variable {α : Type} [DecidableEq α] (esc : α)

/-
  Whether `clean` holds of every element that is not escaped,
  and no escape is left open at the end.
-/
def unescaped (clean : α → Bool) : List α → Bool
  | [] => true
  | b :: rest =>
    if b = esc then
      match rest with
      | [] => false
      | _ :: rest => unescaped clean rest
    else
      clean b && unescaped clean rest

/- Every element is escaped that is not plain. -/
def escapeAll (plain : α → Bool) (text : List α) : List α :=
  text.flatMap fun b => if plain b then [b] else [esc, b]

variable {esc}

@[simp] theorem unescaped_nil (clean : α → Bool) : unescaped esc clean [] = true :=
  rfl

@[simp] theorem unescaped_esc (clean : α → Bool) (b : α) (rest : List α) :
    unescaped esc clean (esc :: b :: rest) = unescaped esc clean rest := by
  rw [unescaped, if_pos rfl]

theorem unescaped_cons (clean : α → Bool) {b : α} (hOther : b ≠ esc) (rest : List α) :
    unescaped esc clean (b :: rest) = (clean b && unescaped esc clean rest) := by
  rw [unescaped.eq_def]
  exact if_neg hOther

/- Conditions that agree on fine elements agree on texts. -/
theorem unescaped_congr {fine clean other : α → Bool} {text : List α}
    (hFine : unescaped esc fine text = true) (hSame : ∀ b, fine b = true → clean b = other b) :
    unescaped esc clean text = unescaped esc other text := by
  fun_induction unescaped esc fine text with
  | case1 => rfl
  | case2 => cases hFine
  | case3 b rest ih => rw [unescaped_esc, unescaped_esc, ih hFine]
  | case4 b rest hOther ih =>
    rw [Bool.and_eq_true] at hFine
    rw [unescaped_cons _ hOther, unescaped_cons _ hOther, hSame b hFine.1, ih hFine.2]

/- Where nothing is escaped the condition is on all. -/
theorem unescaped_of_not_mem (clean : α → Bool) {text : List α} (hNone : esc ∉ text) :
    unescaped esc clean text = text.all clean := by
  induction text with
  | nil => rfl
  | cons b rest ih =>
    rw [List.mem_cons, not_or] at hNone
    rw [unescaped_cons clean (Ne.symm hNone.1), ih hNone.2, List.all_cons]

/- What is all escaped meets every condition on the rest. -/
theorem unescaped_escapeAll {clean plain : α → Bool} (hEsc : plain esc = false)
    (hPlain : ∀ b, plain b = true → clean b = true) (text : List α) :
    unescaped esc clean (escapeAll esc plain text) = true := by
  induction text with
  | nil => rfl
  | cons b rest ih =>
    have hStep : escapeAll esc plain (b :: rest) = (if plain b then [b] else [esc, b]) ++
          escapeAll esc plain rest := rfl
    rw [hStep]
    cases hByte : plain b with
    | true =>
      have hOther : b ≠ esc := by
        intro hEq
        rw [hEq, hEsc] at hByte
        cases hByte
      rw [if_pos rfl, List.singleton_append, unescaped_cons clean hOther, hPlain b hByte, ih]
      rfl
    | false =>
      rw [if_neg Bool.false_ne_true]
      simpa using ih

end Escapes

end Wmail
