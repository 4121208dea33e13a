import Mathlib.Order.Basic
import Mathlib.Data.List.Basic

/-
  Nested intervals that grow at their end.

  A forest of intervals is built from left to right: the
  intervals on the open path all end where the input ends,
  input lengthens all of them, a new interval opens at the
  end of the innermost one, and an interval that has left the
  path stays as it is.

  Key theorems include:
    * `Outline.Growing.enter`
    * `Outline.Growing.stop_le`
-/

namespace Wmail.Nesting

/- An interval, with a body in it. -/
@[ext]
structure Extent where
  start : Nat
  body : Nat
  bodyEnd : Nat
  stop : Nat

/-
  The positions of an interval are in order, and its body
  reaches its end, up to some slack.
-/
def Extent.Ordered (slack : Nat) (e : Extent) : Prop :=
  e.start ≤ e.body ∧ e.body ≤ e.bodyEnd ∧ e.bodyEnd ≤ e.stop ∧ e.stop ≤ e.bodyEnd + slack

/- A forest of numbered intervals, and those that are open. -/
@[ext]
structure Outline where
  size : Nat
  parent : Nat → Option Nat
  extent : Nat → Extent
  path : List Nat

namespace Outline

/-
  Every interval is inside its parent, after the start of the
  parent's body, and siblings follow each other.
-/
structure WellNested (slack : Nat) (o : Outline) : Prop where
  ordered : ∀ i, i < o.size → (o.extent i).Ordered slack
  inside : ∀ i p, i < o.size → o.parent i = some p → (o.extent p).body ≤ (o.extent i).start ∧
        (o.extent i).stop ≤ (o.extent p).stop
  apart : ∀ i j p, i < j → j < o.size → o.parent i = some p → o.parent j = some p →
        (o.extent i).stop ≤ (o.extent j).start

/- The open intervals end at `here`. -/
structure Growing (slack : Nat) (o : Outline) (here : Nat) : Prop where
  nested : o.WellNested slack
  below : ∀ p, p ∈ o.path → p < o.size
  atEnd : ∀ p, p ∈ o.path → (o.extent p).stop = here
  bounded : ∀ i p, i < o.size → o.parent i = some p → p < o.size
  outer : ∀ i p, i ∈ o.path → o.parent i = some p → p ∈ o.path
  newest : ∀ i j p, i ∈ o.path → j < o.size → o.parent i = some p → o.parent j = some p → j ≤ i

/- Lengthen every open interval. -/
def grow (o : Outline) (bodyEnd stop : Nat) : Outline :=
  { o with
      extent := fun i =>
        if i ∈ o.path then { o.extent i with bodyEnd := bodyEnd, stop := stop } else o.extent i }

/- The body of an interval starts at its end. -/
def startBody (o : Outline) (p : Nat) : Outline :=
  { o with
      extent := fun i =>
        if i = p then { o.extent i with body := (o.extent i).stop } else o.extent i }

/- Leave some open intervals behind. -/
def leave (o : Outline) (path : List Nat) : Outline :=
  { o with path := path }

/- Open an empty interval inside an open one. -/
def enter (o : Outline) (p here : Nat) : Outline where
  size := o.size + 1
  parent := fun i => if i = o.size then some p else o.parent i
  extent := fun i =>
    if i = o.size then ⟨here, here, here, here⟩ else o.extent i
  path := o.path ++ [o.size]

variable {slack : Nat} {o : Outline}

theorem Growing.grow {here bodyEnd stop : Nat} (hGrowing : o.Growing slack here)
    (hBodyEnd : here ≤ bodyEnd) (hStop : bodyEnd ≤ stop) (hSlack : stop ≤ bodyEnd + slack) :
    (o.grow bodyEnd stop).Growing slack stop := by
  constructor
  · constructor
    · intro i hSize
      have hOrdered := hGrowing.nested.ordered i hSize
      by_cases hMem : i ∈ o.path
      · have hAt := hGrowing.atEnd i hMem
        simp only [Outline.grow, hMem, if_true, Extent.Ordered] at *
        omega
      · simpa only [Outline.grow, hMem, if_false] using hOrdered
    · intro i p hSize hParent
      have hInside := hGrowing.nested.inside i p hSize hParent
      by_cases hMem : i ∈ o.path
      · have hOuter := hGrowing.outer i p hMem hParent
        simp only [Outline.grow, hMem, hOuter, if_true]
        exact ⟨hInside.1, Nat.le_refl stop⟩
      · by_cases hOuter : p ∈ o.path
        · have hAt := hGrowing.atEnd p hOuter
          simp only [Outline.grow, hMem, hOuter, if_true, if_false]
          omega
        · simpa only [Outline.grow, hMem, hOuter, if_false] using hInside
    · intro i j p hLess hSize hFirst hSecond
      have hApart := hGrowing.nested.apart i j p hLess hSize hFirst hSecond
      have hLeft : i ∉ o.path := by
        intro hMem
        have hNewest := hGrowing.newest i j p hMem hSize hFirst hSecond
        omega
      simp only [Outline.grow, hLeft, if_false]
      by_cases hMem : j ∈ o.path
      · simpa only [hMem, if_true] using hApart
      · simpa only [hMem, if_false] using hApart
  · exact hGrowing.below
  · intro p hMem
    have hOpen : p ∈ o.path := hMem
    simp only [Outline.grow, hOpen, if_true]
  · exact hGrowing.bounded
  · exact hGrowing.outer
  · exact hGrowing.newest

theorem Growing.startBody {here p : Nat} (hGrowing : o.Growing slack here)
    (hEnd : (o.extent p).bodyEnd = (o.extent p).stop)
    (hLeaf : ∀ i, i < o.size → o.parent i ≠ some p) : (o.startBody p).Growing slack here := by
  constructor
  · constructor
    · intro i hSize
      have hOrdered := hGrowing.nested.ordered i hSize
      by_cases hSame : i = p
      · subst hSame
        simp only [Outline.startBody, if_true, Extent.Ordered] at *
        omega
      · simpa only [Outline.startBody, hSame, if_false] using hOrdered
    · intro i q hSize hParent
      have hInside := hGrowing.nested.inside i q hSize hParent
      have hOther : q ≠ p := by
        rintro rfl
        exact hLeaf i hSize hParent
      by_cases hSame : i = p
      · simpa only [Outline.startBody, hSame, hOther, if_true, if_false] using hInside
      · simpa only [Outline.startBody, hSame, hOther, if_false] using hInside
    · intro i j q hLess hSize hFirst hSecond
      have hApart := hGrowing.nested.apart i j q hLess hSize hFirst hSecond
      by_cases hFirstSame : i = p
      · by_cases hSecondSame : j = p
        · omega
        · simpa only [Outline.startBody, hFirstSame, hSecondSame, if_true, if_false] using hApart
      · by_cases hSecondSame : j = p
        · simpa only [Outline.startBody, hFirstSame, hSecondSame, if_true, if_false] using hApart
        · simpa only [Outline.startBody, hFirstSame, hSecondSame, if_false] using hApart
  · exact hGrowing.below
  · intro i hMem
    have hAt := hGrowing.atEnd i hMem
    by_cases hSame : i = p
    · simpa only [Outline.startBody, hSame, if_true] using hAt
    · simpa only [Outline.startBody, hSame, if_false] using hAt
  · exact hGrowing.bounded
  · exact hGrowing.outer
  · exact hGrowing.newest

theorem Growing.leave {here : Nat} {path : List Nat} (hGrowing : o.Growing slack here)
    (hSubset : path ⊆ o.path) (hOuter : ∀ i p, i ∈ path → o.parent i = some p → p ∈ path) :
    (o.leave path).Growing slack here := by
  constructor
  · exact ⟨hGrowing.nested.ordered, hGrowing.nested.inside, hGrowing.nested.apart⟩
  · intro p hMem
    exact hGrowing.below p (hSubset hMem)
  · intro p hMem
    exact hGrowing.atEnd p (hSubset hMem)
  · exact hGrowing.bounded
  · exact hOuter
  · intro i j p hMem
    exact hGrowing.newest i j p (hSubset hMem)

theorem Growing.enter {here p : Nat} (hGrowing : o.Growing slack here) (hOpen : p ∈ o.path)
    (hInner : ∀ i, i ∈ o.path → o.parent i ≠ some p) : (o.enter p here).Growing slack here := by
  have hParentSize := hGrowing.below p hOpen
  have hAt := hGrowing.atEnd p hOpen
  have hParentOrdered := hGrowing.nested.ordered p hParentSize
  have hParentNe : p ≠ o.size := Nat.ne_of_lt hParentSize
  have hOld : ∀ i, i < o.size + 1 → i ≠ o.size → i < o.size := by
    intro i hSize hNe
    omega
  constructor
  · constructor
    · intro i hSize
      by_cases hNew : i = o.size
      · simp [Outline.enter, hNew, Extent.Ordered]
      · simpa only [Outline.enter, hNew, if_false] using
          hGrowing.nested.ordered i (hOld i hSize hNew)
    · intro i q hSize hParent
      by_cases hNew : i = o.size
      · simp only [Outline.enter, hNew, if_true, Option.some.injEq] at hParent ⊢
        subst hParent
        simp only [hParentNe, if_false]
        rw [hAt]
        have hBody : (o.extent p).body ≤ (o.extent p).stop :=
          Nat.le_trans hParentOrdered.2.1 hParentOrdered.2.2.1
        exact ⟨hAt ▸ hBody, Nat.le_refl here⟩
      · have hSmall := hOld i hSize hNew
        simp only [Outline.enter, hNew, if_false] at hParent ⊢
        have hOuterNe : q ≠ o.size := Nat.ne_of_lt (hGrowing.bounded i q hSmall hParent)
        simpa only [hOuterNe, if_false] using hGrowing.nested.inside i q hSmall hParent
    · intro i j q hLess hSize hFirst hSecond
      have hSizeSucc : j < o.size + 1 := hSize
      have hFirstNe : i ≠ o.size := by omega
      have hFirstSmall : i < o.size := by omega
      simp only [Outline.enter, hFirstNe, if_false] at hFirst ⊢
      by_cases hNew : j = o.size
      · simp only [Outline.enter, hNew, if_true, Option.some.injEq] at hSecond ⊢
        subst hSecond
        have hInside := hGrowing.nested.inside i p hFirstSmall hFirst
        exact hAt ▸ hInside.2
      · simp only [Outline.enter, hNew, if_false] at hSecond ⊢
        exact hGrowing.nested.apart i j q hLess (hOld j hSize hNew) hFirst hSecond
  · intro i hMem
    rcases List.mem_append.mp hMem with hPath | hNew
    · exact Nat.lt_succ_of_lt (hGrowing.below i hPath)
    · rw [List.mem_singleton.mp hNew]
      exact Nat.lt_succ_self _
  · intro i hMem
    rcases List.mem_append.mp hMem with hPath | hNew
    · have hNe := Nat.ne_of_lt (hGrowing.below i hPath)
      simpa only [Outline.enter, hNe, if_false] using hGrowing.atEnd i hPath
    · rw [List.mem_singleton.mp hNew]
      simp only [Outline.enter, if_true]
  · intro i q hSize hParent
    by_cases hNew : i = o.size
    · simp only [Outline.enter, hNew, if_true, Option.some.injEq] at hParent
      rw [← hParent]
      exact Nat.lt_succ_of_lt hParentSize
    · simp only [Outline.enter, hNew, if_false] at hParent
      exact Nat.lt_succ_of_lt (hGrowing.bounded i q (hOld i hSize hNew) hParent)
  · intro i q hMem hParent
    apply List.mem_append_left
    rcases List.mem_append.mp hMem with hPath | hNew
    · have hNe := Nat.ne_of_lt (hGrowing.below i hPath)
      simp only [Outline.enter, hNe, if_false] at hParent
      exact hGrowing.outer i q hPath hParent
    · rw [List.mem_singleton.mp hNew] at hParent
      simp only [Outline.enter, if_true, Option.some.injEq] at hParent
      exact hParent ▸ hOpen
  · intro i j q hMem hSize hFirst hSecond
    have hSizeSucc : j < o.size + 1 := hSize
    rcases List.mem_append.mp hMem with hPath | hNew
    · have hNe := Nat.ne_of_lt (hGrowing.below i hPath)
      simp only [Outline.enter, hNe, if_false] at hFirst
      by_cases hSame : j = o.size
      · simp only [Outline.enter, hSame, if_true, Option.some.injEq] at hSecond
        subst hSecond
        exact absurd hFirst (hInner i hPath)
      · simp only [Outline.enter, hSame, if_false] at hSecond
        exact hGrowing.newest i j q hPath (hOld j hSize hSame) hFirst hSecond
    · rw [List.mem_singleton.mp hNew]
      omega

/-
  Where the intervals without a parent are open, and parents
  come first, nothing ends later than the open intervals.
-/
theorem Growing.stop_le {here : Nat} (hGrowing : o.Growing slack here)
    (hFalls : ∀ i p, o.parent i = some p → p < i)
    (hRoots : ∀ i, i < o.size → o.parent i = none → i ∈ o.path) {i : Nat} (hSize : i < o.size) :
    (o.extent i).stop ≤ here := by
  induction i using Nat.strongRecOn with
  | ind i ih =>
    cases hParent : o.parent i with
    | none =>
      have hRoot := hRoots i hSize hParent
      exact Nat.le_of_eq (hGrowing.atEnd i hRoot)
    | some p =>
      have hInside := hGrowing.nested.inside i p hSize hParent
      have hOuter := ih p (hFalls i p hParent) (hGrowing.bounded i p hSize hParent)
      exact Nat.le_trans hInside.2 hOuter

end Outline

end Wmail.Nesting
