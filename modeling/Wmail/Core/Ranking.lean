import Mathlib.Data.List.Sort

/-
  Comparison functions in the manner of `qsort`, and what two
  sorted arrays of the same elements have in common.

  Key theorems include:
    * `StrictWeak.le_trans`
    * `StrictWeak.ties_of_perm`
-/

namespace Wmail

variable {α : Type}

/-
  A comparison function orders some elements, up to ties:
  negative is before, positive is behind, and zero is a tie.
-/
structure StrictWeak (cmp : α → α → Int) (ms : List α) : Prop where
  swap : ∀ a, a ∈ ms → ∀ b, b ∈ ms → (0 < cmp a b ↔ cmp b a < 0)
  trans : ∀ a, a ∈ ms → ∀ b, b ∈ ms → ∀ c, c ∈ ms → cmp a b < 0 → cmp b c < 0 → cmp a c < 0
  ties : ∀ a, a ∈ ms → ∀ b, b ∈ ms → ∀ c, c ∈ ms → cmp a b = 0 → cmp b c = 0 → cmp a c = 0

/- How many elements of a list are before one. -/
def rank (cmp : α → α → Int) (ms : List α) (a : α) : Nat :=
  ms.countP fun b => decide (cmp b a < 0)

namespace StrictWeak

variable {cmp : α → α → Int} {ms other : List α} {a b c : α}

/- Not being behind is transitive. -/
theorem le_trans (hCmp : StrictWeak cmp ms) (hA : a ∈ ms) (hB : b ∈ ms) (hC : c ∈ ms)
    (hAB : cmp a b ≤ 0) (hBC : cmp b c ≤ 0) : cmp a c ≤ 0 := by
  by_contra hNot
  have hCA : cmp c a < 0 := (hCmp.swap a hA c hC).mp (Int.not_le.mp hNot)
  rcases Int.lt_or_eq_of_le hAB with hBefore | hTie
  · have hCB := hCmp.trans c hC a hA b hB hCA hBefore
    have hBehind := (hCmp.swap b hB c hC).mpr hCB
    omega
  · rcases Int.lt_or_eq_of_le hBC with hBefore | hTie'
    · have hBA := hCmp.trans b hB c hC a hA hBefore hCA
      have hBehind := (hCmp.swap a hA b hB).mpr hBA
      omega
    · have hAC := hCmp.ties a hA b hB c hC hTie hTie'
      omega

/- An element is in no order with itself. -/
theorem irrefl (hCmp : StrictWeak cmp ms) (hA : a ∈ ms) : ¬ cmp a a < 0 := by
  intro hLess
  have hBehind := (hCmp.swap a hA a hA).mpr hLess
  omega

theorem before_of_before_of_le (hCmp : StrictWeak cmp ms) (hA : a ∈ ms) (hB : b ∈ ms)
    (hC : c ∈ ms) (hAB : cmp a b < 0) (hBC : cmp b c ≤ 0) : cmp a c < 0 := by
  by_contra hNot
  have hCA : cmp c a ≤ 0 := by
    by_contra hBehind
    exact hNot ((hCmp.swap c hC a hA).mp (Int.not_le.mp hBehind))
  have hBA := hCmp.le_trans hB hC hA hBC hCA
  have hBehind := (hCmp.swap b hB a hA).mpr hAB
  omega

/- What is not behind has no greater rank. -/
theorem rank_le (hCmp : StrictWeak cmp ms) (hA : a ∈ ms) (hB : b ∈ ms) (hAB : cmp a b ≤ 0) :
    rank cmp ms a ≤ rank cmp ms b := by
  apply List.countP_mono_left
  intro x hX hBefore
  rw [decide_eq_true_iff] at hBefore ⊢
  exact hCmp.before_of_before_of_le hX hA hB hBefore hAB

end StrictWeak

/- A condition that holds of one more element counts more. -/
theorem countP_lt_countP {p q : α → Bool} {ms : List α}
    (hMono : ∀ x, x ∈ ms → p x = true → q x = true) {a : α} (hA : a ∈ ms) (hP : p a = false)
    (hQ : q a = true) : ms.countP p < ms.countP q := by
  rcases List.append_of_mem hA with ⟨front, back, hMs⟩
  subst hMs
  have hFront : front.countP p ≤ front.countP q := by
    apply List.countP_mono_left
    intro x hX
    exact hMono x (List.mem_append_left _ hX)
  have hBack : back.countP p ≤ back.countP q := by
    apply List.countP_mono_left
    intro x hX
    exact hMono x (List.mem_append_right _ (List.mem_cons_of_mem a hX))
  rw [List.countP_append, List.countP_append, List.countP_cons_of_neg (by rw [hP]; exact nofun),
    List.countP_cons_of_pos hQ]
  omega

namespace StrictWeak

variable {cmp : α → α → Int} {ms other : List α} {a b : α}

/- Elements of one rank are tied. -/
theorem tie_of_rank_eq (hCmp : StrictWeak cmp ms) (hA : a ∈ ms) (hB : b ∈ ms)
    (hRank : rank cmp ms a = rank cmp ms b) : cmp a b = 0 := by
  have hLess : ∀ x y, x ∈ ms → y ∈ ms → cmp x y < 0 → rank cmp ms x < rank cmp ms y := by
    intro x y hX hY hBefore
    apply countP_lt_countP _ hX
    · exact decide_eq_false (hCmp.irrefl hX)
    · exact decide_eq_true hBefore
    · intro z hZ hFirst
      rw [decide_eq_true_iff] at hFirst ⊢
      exact hCmp.trans z hZ x hX y hY hFirst hBefore
  rcases Int.lt_trichotomy (cmp a b) 0 with hBefore | hTie | hBehind
  · have hSmaller := hLess a b hA hB hBefore
    omega
  · exact hTie
  · have hBack := (hCmp.swap a hA b hB).mp hBehind
    have hSmaller := hLess b a hB hA hBack
    omega

/-
  Two sorted lists of the same elements agree place by place,
  up to ties.
-/
theorem ties_of_perm (hCmp : StrictWeak cmp ms) {left right : List α} (hLeft : left.Perm ms)
    (hRight : right.Perm ms) (hSortedLeft : left.Pairwise fun a b => cmp a b ≤ 0)
    (hSortedRight : right.Pairwise fun a b => cmp a b ≤ 0) :
    List.Forall₂ (fun a b => cmp a b = 0) left right := by
  have hRanks : ∀ l : List α, l.Perm ms → (l.Pairwise fun a b => cmp a b ≤ 0) →
        (l.map (rank cmp ms)).Pairwise (· ≤ ·) := by
    intro l hPerm hSorted
    rw [List.pairwise_map]
    apply hSorted.imp_of_mem
    intro x y hX hY hLe
    exact hCmp.rank_le (hPerm.mem_iff.mp hX) (hPerm.mem_iff.mp hY) hLe
  have hSame : left.map (rank cmp ms) = right.map (rank cmp ms) := by
    exact List.Perm.eq_of_pairwise (fun _ _ _ _ hLe hGe => Nat.le_antisymm hLe hGe)
      (hRanks left hLeft hSortedLeft)
      (hRanks right hRight hSortedRight)
      ((hLeft.trans hRight.symm).map _)
  have hPlaces : List.Forall₂ (fun a b => rank cmp ms a = rank cmp ms b)
      left right := by
    rw [← List.forall₂_eq_eq_eq, List.forall₂_map_left_iff, List.forall₂_map_right_iff] at hSame
    exact hSame
  rw [List.forall₂_iff_get] at hPlaces ⊢
  refine ⟨hPlaces.1, ?_⟩
  intro i hI hJ
  exact hCmp.tie_of_rank_eq (hLeft.mem_iff.mp (List.get_mem left ⟨i, hI⟩))
    (hRight.mem_iff.mp (List.get_mem right ⟨i, hJ⟩))
    (hPlaces.2 i hI hJ)

/- Merge sort puts the elements in order. -/
theorem pairwise_mergeSort (hCmp : StrictWeak cmp ms) :
    (ms.mergeSort fun a b => cmp a b ≤ 0).Pairwise fun a b => cmp a b ≤ 0 := by
  let le (a b : { m // m ∈ ms }) : Bool :=
    decide (cmp a.1 b.1 ≤ 0)
  have hTrans : ∀ a b c, le a b = true → le b c = true → le a c = true := by
    intro a b c hAB hBC
    exact decide_eq_true (hCmp.le_trans a.2 b.2 c.2 (of_decide_eq_true hAB) (of_decide_eq_true hBC))
  have hTotal : ∀ a b, (le a b || le b a) = true := by
    intro a b
    have hSwap := hCmp.swap a.1 a.2 b.1 b.2
    rw [Bool.or_eq_true, decide_eq_true_iff, decide_eq_true_iff]
    omega
  have hSorted := List.pairwise_mergeSort hTrans hTotal ms.attach
  have hMap : (ms.attach.mergeSort le).map Subtype.val = ms.mergeSort fun a b => cmp a b ≤ 0 := by
    rw [List.map_mergeSort (s := fun a b => cmp a b ≤ 0)
      (fun _ _ _ _ => rfl), List.attach_map_subtype_val]
  rw [← hMap, List.pairwise_map]
  exact hSorted.imp fun hLe => of_decide_eq_true hLe

/- A second comparison breaks ties. -/
theorem andThen {next : α → α → Int} (hCmp : StrictWeak cmp ms) (hNext : StrictWeak next ms) :
    StrictWeak (fun a b => if cmp a b ≠ 0 then cmp a b else next a b) ms where
  swap a hA b hB := by
    have hFirst := hCmp.swap a hA b hB
    have hBack := hCmp.swap b hB a hA
    have hSecond := hNext.swap a hA b hB
    split <;> split <;> omega
  trans a hA b hB c hC hAB hBC := by
    have hLeft := @le_trans _ _ _ a b c hCmp hA hB hC
    have hRight := @le_trans _ _ _ c a b hCmp hC hA hB
    have hLast := @le_trans _ _ _ b c a hCmp hB hC hA
    have hThird := hNext.trans a hA b hB c hC
    have hBack := hCmp.swap c hC b hB
    have hFront := hCmp.swap b hB a hA
    have hTurn := hCmp.swap c hC a hA
    grind
  ties a hA b hB c hC hAB hBC := by
    have hFirst := hCmp.ties a hA b hB c hC
    have hSecond := hNext.ties a hA b hB c hC
    grind

end StrictWeak

/- The sign of a comparison of keys. -/
def compareKeys {κ : Type} [LinearOrder κ] (x y : κ) : Int :=
  if x < y then -1 else if y < x then 1 else 0

theorem strictWeak_compareKeys {κ : Type} [LinearOrder κ] (key : α → κ) (ms : List α) :
    StrictWeak (fun a b => compareKeys (key a) (key b)) ms := by
  unfold compareKeys
  constructor
  · intro a _ b _
    grind
  · intro a _ b _ c _ hAB hBC
    grind
  · intro a _ b _ c _ hAB hBC
    grind

theorem strictWeak_sub (number : α → Nat) (ms : List α) :
    StrictWeak (fun a b => (number a : Int) - number b) ms where
  swap _ _ _ _ := by omega
  trans _ _ _ _ _ _ := by omega
  ties _ _ _ _ _ _ := by omega

end Wmail
