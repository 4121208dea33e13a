import Mathlib.Data.List.Nodup
import Mathlib.Data.List.Basic

/-
  Numbered visits of a tree.

  The nodes inside a node are numbered one after the other,
  the path of numbers that leads to a node is its id, and a
  node with the number zero is left out with all inside it.

  Key theorems include:
    * `visits_enough`
    * `number_lt`
-/

namespace Wmail.NumberedTree

variable {α : Type}

section

variable (inner : α → List α) (first : α → Nat)

/-
  A node and the nodes inside it, at most `depth` levels
  deep, each with its id.
-/
def visits : Nat → List Nat → α → List (α × List Nat)
  | 0, _, _ => []
  | depth + 1, id, r =>
    (r, id) ::
      ((inner r).zipIdx (first r)).flatMap fun c =>
        if c.2 = 0 then [] else visits depth (id ++ [c.2]) c.1

end

variable {inner : α → List α} {first : α → Nat}

/- The id of a node begins with the ids around it. -/
theorem prefix_of_mem {depth : Nat} {id : List Nat} {r : α} {v : α × List Nat}
    (hVisit : v ∈ visits inner first depth id r) : id <+: v.2 := by
  induction depth generalizing id r with
  | zero => cases hVisit
  | succ depth ih =>
    rcases List.mem_cons.mp hVisit with hHere | hInside
    · exact hHere ▸ List.prefix_refl id
    · rcases List.mem_flatMap.mp hInside with ⟨c, _, hMem⟩
      split at hMem
      · cases hMem
      · exact (List.prefix_append id [c.2]).trans (ih hMem)

/- The ids inside a node begin with its own. -/
theorem prefix_of_inside {depth : Nat} {id found : List Nat} {c : α × Nat}
    (hFound : found ∈
      (if c.2 = 0 then
        []
      else
        visits inner first depth (id ++ [c.2]) c.1).map Prod.snd) : id ++ [c.2] <+: found := by
  rcases List.mem_map.mp hFound with ⟨v, hVisit, hSame⟩
  split at hVisit
  · cases hVisit
  · exact hSame ▸ prefix_of_mem hVisit

/- What leads on with two numbers leads on with one. -/
theorem number_unique {id found : List Nat} {k l : Nat} (hLeft : id ++ [k] <+: found)
    (hRight : id ++ [l] <+: found) : k = l := by
  have hSame : id ++ [k] = id ++ [l] :=
    (List.prefix_of_prefix_length_le hLeft hRight (by simp)).eq_of_length (by simp)
  exact List.singleton_inj.mp (List.append_cancel_left hSame)

theorem zipIdx_pairwise (l : List α) (start : Nat) :
    (l.zipIdx start).Pairwise fun c d => c.2 ≠ d.2 := by
  have hNumbers : ((l.zipIdx start).map Prod.snd).Nodup := by
    rw [List.zipIdx_map_snd]
    exact List.nodup_range'
  exact List.pairwise_map.mp hNumbers

/- No id is given twice. -/
theorem nodup_ids (depth : Nat) (id : List Nat) (r : α) :
    ((visits inner first depth id r).map Prod.snd).Nodup := by
  induction depth generalizing id r with
  | zero => exact List.nodup_nil
  | succ depth ih =>
    rw [visits, List.map_cons, List.map_flatMap]
    apply List.nodup_cons.mpr
    constructor
    · intro hMem
      rcases List.mem_flatMap.mp hMem with ⟨c, _, hInside⟩
      have hLength := (prefix_of_inside hInside).length_le
      rw [List.length_append] at hLength
      exact Nat.not_succ_le_self id.length hLength
    · apply List.nodup_flatMap.mpr
      constructor
      · intro c _hMem
        split
        · exact List.nodup_nil
        · exact ih _ c.1
      · apply (zipIdx_pairwise (inner r) (first r)).imp
        intro c d hNe found hLeft hRight
        exact hNe (number_unique (prefix_of_inside hLeft) (prefix_of_inside hRight))

/- Where a rank falls towards the inside, depth is bounded. -/
theorem visits_enough {rank : α → Nat} (hFalls : ∀ r c, c ∈ inner r → rank c < rank r)
    {depth more : Nat} {r : α} (hDepth : rank r < depth) (hMore : depth ≤ more) (id : List Nat) :
    visits inner first more id r = visits inner first depth id r := by
  induction depth generalizing more id r with
  | zero => exact absurd hDepth (Nat.not_lt_zero _)
  | succ depth ih =>
    cases more with
    | zero => exact absurd hMore (Nat.not_succ_le_zero depth)
    | succ more =>
      rw [visits, visits]
      congr 1
      apply List.flatMap_congr
      intro c hMem
      have hInner : c.1 ∈ inner r := List.fst_mem_of_mem_zipIdx hMem
      have hLess := hFalls r c.1 hInner
      have hEnough : rank c.1 < depth := by omega
      rw [ih hEnough (Nat.le_of_succ_le_succ hMore)]

/- The numbers are bounded as the numbers of siblings are. -/
theorem number_lt {bound : Nat} (hBound : ∀ r, first r + (inner r).length ≤ bound)
    {depth : Nat} {id : List Nat} {r : α} (hId : ∀ k, k ∈ id → k < bound) {v : α × List Nat}
    (hVisit : v ∈ visits inner first depth id r) : ∀ k, k ∈ v.2 → k < bound := by
  induction depth generalizing id r with
  | zero => cases hVisit
  | succ depth ih =>
    rcases List.mem_cons.mp hVisit with hHere | hInside
    · rw [hHere]
      exact hId
    · rcases List.mem_flatMap.mp hInside with ⟨c, hChild, hMem⟩
      split at hMem
      · cases hMem
      · apply ih _ hMem
        intro k hNumber
        rcases List.mem_append.mp hNumber with hOld | hNew
        · exact hId k hOld
        · rw [List.mem_singleton.mp hNew]
          have hIndex := List.snd_lt_of_mem_zipIdx hChild
          exact Nat.lt_of_lt_of_le hIndex (Nat.le_trans (Nat.le_of_eq (Nat.add_comm _ _))
              (hBound r))

end Wmail.NumberedTree
