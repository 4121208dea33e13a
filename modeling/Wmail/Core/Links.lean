import Mathlib.Data.List.Basic
import Mathlib.Data.List.Induction
import Mathlib.Logic.Relation
import Mathlib.Order.Basic

/-
  Walks along the links of a pointer structure.

  A link is a function into `Option`: `none` is the null
  pointer.  A walk has a bound on its length, and the bound
  does not matter when some measure falls along every link.

  Key theorems include:
    * `IsChain.redirect`
    * `follow_eq_reverse`
-/

namespace Wmail.Links

variable {α : Type}

/- The nodes met from a node on, at most `fuel` links far. -/
def follow (next : α → Option α) : Nat → α → List α
  | 0, i => [i]
  | fuel + 1, i =>
    match next i with
    | none => [i]
    | some j => i :: follow next fuel j

/- A whole walk: every node links to the one after it. -/
def IsChain (next : α → Option α) : List α → Prop
  | [] => False
  | [i] => next i = none
  | i :: j :: rest => next i = some j ∧ IsChain next (j :: rest)

/- The measure falls along every link. -/
def FallsAlong (rank : α → Nat) (next : α → Option α) : Prop :=
  ∀ i j, next i = some j → rank j < rank i

variable {next : α → Option α} {path : List α}

theorem IsChain.ne_nil (hChain : IsChain next path) : path ≠ [] := by
  rintro rfl
  exact hChain

theorem IsChain.suffix {front path : List α} (hChain : IsChain next (front ++ path))
    (hPath : path ≠ []) : IsChain next path := by
  induction front with
  | nil => exact hChain
  | cons i rest ih =>
    cases hRest : rest ++ path with
    | nil => exact absurd (List.append_eq_nil_iff.mp hRest).2 hPath
    | cons j tail =>
      apply ih
      rw [hRest]
      rw [List.cons_append, hRest] at hChain
      exact hChain.2

variable {i : α}

/- Two whole walks from one node are the same. -/
theorem IsChain.unique {left right : List α} (hLeft : IsChain next (i :: left))
    (hRight : IsChain next (i :: right)) : left = right := by
  induction left generalizing i right with
  | nil =>
    cases right with
    | nil => rfl
    | cons j rest =>
      have hNone : next i = none := hLeft
      cases hNone.symm.trans hRight.1
  | cons j rest ih =>
    cases right with
    | nil =>
      have hNone : next i = none := hRight
      cases hNone.symm.trans hLeft.1
    | cons k others =>
      have hSame : j = k := Option.some.inj (hLeft.1.symm.trans hRight.1)
      subst hSame
      rw [ih hLeft.2 hRight.2]

/- A bound that the whole walk fits into changes nothing. -/
theorem follow_eq {fuel : Nat} {rest : List α} (hChain : IsChain next (i :: rest))
    (hFuel : rest.length ≤ fuel) : follow next fuel i = i :: rest := by
  induction rest generalizing i fuel with
  | nil =>
    have hNone : next i = none := hChain
    cases fuel with
    | zero => rfl
    | succ fuel => simp [follow, hNone]
  | cons j tail ih =>
    cases fuel with
    | zero => simp at hFuel
    | succ fuel =>
      have hTail := ih hChain.2 (Nat.le_of_succ_le_succ hFuel)
      simp [follow, hChain.1, hTail]

theorem head?_follow (next : α → Option α) (fuel : Nat) (i : α) :
    (follow next fuel i).head? = some i := by
  cases fuel with
  | zero => rfl
  | succ fuel => cases hNext : next i <;> simp [follow, hNext]

theorem follow_ne_nil (next : α → Option α) (fuel : Nat) (i : α) : follow next fuel i ≠ [] := by
  intro hNil
  have hHead := head?_follow next fuel i
  rw [hNil] at hHead
  cases hHead

variable {rank : α → Nat}

/- A walk that is long enough ends at a null pointer. -/
theorem isChain_follow (hFalls : FallsAlong rank next) {fuel : Nat}
    (hFuel : rank i ≤ fuel) : IsChain next (follow next fuel i) := by
  induction fuel generalizing i with
  | zero =>
    cases hNext : next i with
    | none => exact hNext
    | some j =>
      have hLess := hFalls i j hNext
      omega
  | succ fuel ih =>
    cases hNext : next i with
    | none =>
      simp only [follow, hNext]
      exact hNext
    | some j =>
      have hLess := hFalls i j hNext
      have hTail := @ih j (by omega)
      simp only [follow, hNext]
      cases hFollow : follow next fuel j with
      | nil => exact absurd hFollow (follow_ne_nil _ _ _)
      | cons k rest =>
        have hHead := head?_follow next fuel j
        rw [hFollow] at hHead hTail
        cases hHead
        exact ⟨hNext, hTail⟩

/- The measure falls from every node to every later one. -/
theorem IsChain.pairwise (hFalls : FallsAlong rank next) (hChain : IsChain next path) :
    path.Pairwise (fun i j => rank j < rank i) := by
  induction path with
  | nil => exact List.Pairwise.nil
  | cons i rest ih =>
    cases rest with
    | nil => exact List.pairwise_singleton _ _
    | cons j tail =>
      have hTail := ih hChain.2
      have hStep := hFalls i j hChain.1
      refine List.pairwise_cons.mpr ⟨?_, hTail⟩
      intro k hMem
      rcases List.mem_cons.mp hMem with rfl | hMem
      · exact hStep
      · have hLater := (List.pairwise_cons.mp hTail).1 k hMem
        omega

theorem IsChain.nodup (hFalls : FallsAlong rank next) (hChain : IsChain next path) :
    path.Nodup := by
  apply (hChain.pairwise hFalls).imp
  rintro i j hLess rfl
  exact Nat.lt_irrefl _ hLess

/- The nodes after the first one are the ones led to. -/
theorem IsChain.mem_tail_iff {i j : α} {rest : List α} (hChain : IsChain next (i :: rest)) :
    j ∈ rest ↔ Relation.TransGen (fun k l => next k = some l) i j := by
  induction rest generalizing i with
  | nil =>
    have hNone : next i = none := hChain
    constructor
    · intro hMem
      cases hMem
    · intro hLeads
      rcases Relation.TransGen.head'_iff.mp hLeads with ⟨k, hStep, _⟩
      cases hNone.symm.trans hStep
  | cons k tail ih =>
    have hTail := ih hChain.2
    constructor
    · intro hMem
      rcases List.mem_cons.mp hMem with hSame | hLater
      · rw [hSame]
        exact Relation.TransGen.single hChain.1
      · exact Relation.TransGen.head hChain.1 (hTail.mp hLater)
    · intro hLeads
      rcases Relation.TransGen.head'_iff.mp hLeads with ⟨l, hStep, hRest⟩
      have hSame : k = l := Option.some.inj (hChain.1.symm.trans hStep)
      rw [← hSame] at hRest
      rcases Relation.reflTransGen_iff_eq_or_transGen.mp hRest with hEnd | hMore
      · rw [hEnd]
        exact List.mem_cons_self
      · exact List.mem_cons_of_mem _ (hTail.mpr hMore)

/- Links that agree along a walk give the same walk. -/
theorem follow_congr {next other : α → Option α} (hSame : ∀ i, next i = other i)
    (fuel : Nat) (i : α) : follow next fuel i = follow other fuel i := by
  rw [funext hSame]

/- Turn a walk aside from one of its nodes on. -/
theorem IsChain.redirect {next other : α → Option α} {front back tail : List α}
    (hChain : IsChain next (front ++ i :: back)) (hSame : ∀ j, j ∈ front → other j = next j)
    (hTail : IsChain other (i :: tail)) : IsChain other (front ++ i :: tail) := by
  induction front with
  | nil => exact hTail
  | cons j rest ih =>
    have hStep := hSame j List.mem_cons_self
    have hSameRest : ∀ k, k ∈ rest → other k = next k := by
      intro k hMem
      exact hSame k (List.mem_cons_of_mem _ hMem)
    cases rest with
    | nil => exact ⟨hStep.trans hChain.1, hTail⟩
    | cons k more => exact ⟨hStep.trans hChain.1, ih hChain.2 hSameRest⟩

/-
  A list along which `up` leads from every node to the one
  before it.
-/
def IsDescent (up : α → Option α) : List α → Prop
  | [] => False
  | [_] => True
  | i :: j :: rest => up j = some i ∧ IsDescent up (j :: rest)

variable {up : α → Option α} {front back : List α}

theorem IsDescent.append_cons (hDescent : IsDescent up (front ++ i :: back)) :
    IsDescent up (front ++ [i]) := by
  induction front with
  | nil => trivial
  | cons j rest ih =>
    cases rest with
    | nil => exact ⟨hDescent.1, trivial⟩
    | cons k tail => exact ⟨hDescent.1, ih hDescent.2⟩

/- A descent along links is one along more links. -/
theorem IsDescent.mono {up above : α → Option α}
    (hMore : ∀ i j, up i = some j → above i = some j) (hDescent : IsDescent up path) :
    IsDescent above path := by
  induction path with
  | nil => exact hDescent
  | cons i rest ih =>
    cases rest with
    | nil => trivial
    | cons j tail => exact ⟨hMore j i hDescent.1, ih hDescent.2⟩

/- The node above a node of a descent belongs to it. -/
theorem IsDescent.up_mem {i j k : α} {rest : List α} (hDescent : IsDescent up (k :: rest))
    (hMem : i ∈ rest) (hUp : up i = some j) : j ∈ k :: rest := by
  induction rest generalizing k with
  | nil => cases hMem
  | cons l tail ih =>
    rcases List.mem_cons.mp hMem with rfl | hTail
    · have hSame : k = j := Option.some.inj (hDescent.1.symm.trans hUp)
      rw [← hSame]
      exact List.mem_cons_self
    · exact List.mem_cons_of_mem k (ih hDescent.2 hTail)

/- The last step of a descent. -/
theorem IsDescent.concat {i j : α} {front : List α}
    (hDescent : IsDescent up (front ++ [i, j])) : up j = some i := by
  induction front with
  | nil => exact hDescent.1
  | cons k rest ih =>
    cases rest with
    | nil => exact hDescent.2.1
    | cons l tail => exact ih hDescent.2

/- Going up again from the end of a descent. -/
theorem isChain_reverse {front : List α} (hDescent : IsDescent up (front ++ [i]))
    (hTop : up ((front ++ [i]).headD i) = none) : IsChain up (i :: front.reverse) := by
  induction front using List.reverseRecOn generalizing i with
  | nil => exact hTop
  | append_singleton front j ih =>
    rw [List.append_assoc] at hDescent
    have hFront : IsChain up (j :: front.reverse) := by
      apply ih hDescent.append_cons
      cases front with
      | nil => exact hTop
      | cons k rest => exact hTop
    rw [List.reverse_append, List.reverse_cons, List.reverse_nil, List.nil_append,
      List.singleton_append]
    exact ⟨hDescent.concat, hFront⟩

/- A node has no more nodes above it than its measure. -/
theorem IsDescent.length_le (hFalls : FallsAlong rank up)
    (hDescent : IsDescent up (front ++ i :: back)) : front.length ≤ rank i := by
  replace hDescent := hDescent.append_cons
  induction front using List.reverseRecOn generalizing i with
  | nil => exact Nat.zero_le _
  | append_singleton front j ih =>
    rw [List.append_assoc] at hDescent
    have hFront := ih hDescent.append_cons
    have hStep := hFalls i j hDescent.concat
    rw [List.length_append, List.length_singleton]
    omega

/- The walk up from a node of a descent from a top node. -/
theorem follow_eq_reverse {fuel : Nat} (hDescent : IsDescent up (front ++ i :: back))
    (hTop : up ((front ++ [i]).headD i) = none) (hFuel : front.length ≤ fuel) :
    follow up fuel i = i :: front.reverse := by
  apply follow_eq (isChain_reverse hDescent.append_cons hTop)
  rw [List.length_reverse]
  exact hFuel

end Wmail.Links
