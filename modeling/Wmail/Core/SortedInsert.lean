import Mathlib.Data.List.Sort

/-
  Lists that are kept in order while their elements come in
  any order.

  Key theorems include:
    * `foldl_insertByKey_pairwise`
    * `foldl_insertByKey_eq`
-/

namespace Wmail

section

variable {α κ : Type} [LinearOrder κ] (key : α → κ)

/- Insert before the first element with a larger key. -/
def insertByKey (a : α) (l : List α) : List α :=
  l.orderedInsert (key · < key ·) a

theorem insertByKey_perm (a : α) (l : List α) : (insertByKey key a l).Perm (a :: l) :=
  List.perm_orderedInsert (key · < key ·) a l

theorem insertByKey_pairwise (a : α) {l : List α} (hOrder : l.Pairwise (key · ≤ key ·)) :
    (insertByKey key a l).Pairwise (key · ≤ key ·) := by
  induction l with
  | nil => exact List.pairwise_singleton _ a
  | cons b rest ih =>
    rcases List.pairwise_cons.mp hOrder with ⟨hFirst, hRest⟩
    rw [insertByKey, List.orderedInsert]
    split
    · rename_i hLess
      refine List.pairwise_cons.mpr ⟨?_, hOrder⟩
      intro c hMem
      rcases List.mem_cons.mp hMem with rfl | hLater
      · exact le_of_lt hLess
      · exact (le_of_lt hLess).trans (hFirst c hLater)
    · rename_i hOther
      refine List.pairwise_cons.mpr ⟨?_, ih hRest⟩
      intro c hMem
      rcases List.mem_cons.mp ((insertByKey_perm key a rest).mem_iff.mp hMem) with rfl | hLater
      · exact not_lt.mp hOther
      · exact hFirst c hLater

/- All that comes in is in the list, and nothing else. -/
theorem foldl_insertByKey_perm (l acc : List α) :
    (l.foldl (fun acc a => insertByKey key a acc) acc).Perm (l ++ acc) := by
  induction l generalizing acc with
  | nil => exact List.Perm.refl acc
  | cons a rest ih =>
    have hFirst := (insertByKey_perm key a acc).append_left rest
    exact ((ih _).trans hFirst).trans List.perm_middle

theorem foldl_insertByKey_pairwise (l : List α) {acc : List α}
    (hOrder : acc.Pairwise (key · ≤ key ·)) :
    (l.foldl (fun acc a => insertByKey key a acc) acc).Pairwise (key · ≤ key ·) := by
  induction l generalizing acc with
  | nil => exact hOrder
  | cons a rest ih => exact ih (insertByKey_pairwise key a hOrder)

/-
  Elements with different keys end up in the one order of
  their keys, in whatever order they come.
-/
theorem foldl_insertByKey_eq {l ordered : List α}
    (hOrder : ordered.Pairwise (key · < key ·)) (hSame : l.Perm ordered) :
    l.foldl (fun acc a => insertByKey key a acc) [] = ordered := by
  have hPerm := foldl_insertByKey_perm key l []
  rw [List.append_nil] at hPerm
  have hSorted := @foldl_insertByKey_pairwise α κ _ key l [] List.Pairwise.nil
  refine List.Perm.eq_of_pairwise ?_ hSorted (hOrder.imp le_of_lt) (hPerm.trans hSame)
  intro a b hLeft hRight hLe hGe
  have hMem := (hPerm.trans hSame).mem_iff.mp hLeft
  have hDistinct : (ordered.map key).Nodup := List.pairwise_map.mpr (hOrder.imp ne_of_lt)
  exact List.inj_on_of_nodup_map hDistinct hMem hRight (le_antisymm hLe hGe)

end

end Wmail
