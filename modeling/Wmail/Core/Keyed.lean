import Mathlib.Data.List.Nodup

/-
  Lists whose elements are told apart by a key.

  Key theorems include:
    * `filter_filterMap_of_keys`
    * `mem_set_keyed`
-/

namespace Wmail

section Keyed

variable {α κ : Type} {key : α → κ} {f : α → Option α}

/- What is left out or changed keeps the order of the keys. -/
theorem keys_filterMap_sublist (hKey : ∀ a b, f a = some b → key b = key a) (l : List α) :
    ((l.filterMap f).map key).Sublist (l.map key) := by
  induction l with
  | nil => exact List.Sublist.refl []
  | cons a l ih =>
    cases hHere : f a with
    | none =>
      rw [List.filterMap_cons_none hHere]
      exact ih.cons (key a)
    | some b =>
      rw [List.filterMap_cons_some hHere, List.map_cons, List.map_cons, hKey a b hHere]
      exact ih.cons_cons (key a)

/- Elements with other keys stay, in their order. -/
theorem filter_filterMap_of_keys {p : κ → Bool} (hKey : ∀ a b, f a = some b → key b = key a)
    (hOther : ∀ a, p (key a) = true → f a = some a) (l : List α) :
    (l.filterMap f).filter (fun a => p (key a)) = l.filter fun a => p (key a) := by
  induction l with
  | nil => rfl
  | cons a l ih =>
    cases hPass : p (key a) with
    | true =>
      rw [List.filterMap_cons_some (hOther a hPass), List.filter_cons, List.filter_cons, ih]
    | false =>
      rw [List.filter_cons, hPass, if_neg Bool.false_ne_true]
      cases hHere : f a with
      | none => rw [List.filterMap_cons_none hHere, ih]
      | some b =>
        rw [List.filterMap_cons_some hHere, List.filter_cons, hKey a b hHere, hPass,
          if_neg Bool.false_ne_true, ih]

variable {l : List α} {k : Nat} {a b x : α}

/- An element that is replaced by one with the same key. -/
theorem map_set_keyed {γ : Type} {f : α → γ} (hAt : l[k]? = some a) (hSame : f b = f a) :
    (l.set k b).map f = l.map f := by
  rw [List.map_set, hSame]
  apply List.ext_getElem?
  intro j
  rw [List.getElem?_set]
  split
  · rename_i hHere
    subst hHere
    split
    · rw [List.getElem?_map, hAt]
      rfl
    · rename_i hOut
      rw [List.getElem?_eq_none (Nat.le_of_not_lt hOut)]
  · rfl

/- With distinct keys, the others are those with other keys. -/
theorem mem_set_keyed (hNodup : (l.map key).Nodup) (hAt : l[k]? = some a)
    (hMem : x ∈ l.set k b) : x = b ∨ (x ∈ l ∧ key x ≠ key a) := by
  rcases List.mem_iff_getElem?.mp hMem with ⟨j, hJ⟩
  rw [List.getElem?_set] at hJ
  by_cases hHere : k = j
  · rw [if_pos hHere] at hJ
    split at hJ
    · exact Or.inl (Option.some.inj hJ).symm
    · cases hJ
  · rw [if_neg hHere] at hJ
    refine Or.inr ⟨List.mem_of_getElem? hJ, ?_⟩
    intro hSame
    apply hHere
    have hBoth : (l.map key)[k]? = (l.map key)[j]? := by
      rw [List.getElem?_map, List.getElem?_map, hAt, hJ, Option.map_some, Option.map_some, hSame]
    have hLess : k < (l.map key).length := by
      rw [List.length_map]
      exact (List.getElem?_eq_some_iff.mp hAt).1
    exact (List.getElem?_inj hLess hNodup).mp hBoth

end Keyed

end Wmail
