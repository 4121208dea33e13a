import Wmail.Core.Links

/-
  Links to a parent, when some nodes are left out.

  A node climbs to the first node above it that is not left
  out.  Leaving out one node more makes those climb to its
  parent that climbed to the node.

  Key theorems include:
    * `exists_climbs`
    * `climbs_leave_out`
-/

namespace Wmail.Links

variable {α : Type}

/- The first node above that is not gone. -/
inductive Climbs (parent : α → Option α) (Gone : α → Prop) : α → α → Prop where
  | stop
      {x p : α}
      (hParent : parent x = some p)
      (hStays : ¬ Gone p) :
      Climbs parent Gone x p
  | pass
      {x q p : α}
      (hParent : parent x = some q)
      (hGone : Gone q)
      (hClimbs : Climbs parent Gone q p) :
      Climbs parent Gone x p

section Climbs

variable {parent : α → Option α} {Gone : α → Prop} {rank : α → Nat} {x p q m : α}

theorem Climbs.stays (hClimbs : Climbs parent Gone x p) : ¬ Gone p := by
  induction hClimbs with
  | stop hParent hStays => exact hStays
  | pass hParent hGone hClimbs ih => exact ih

theorem Climbs.unique (hClimbs : Climbs parent Gone x p) (hOther : Climbs parent Gone x q) :
    p = q := by
  induction hClimbs with
  | stop hParent hStays =>
    cases hOther with
    | stop hSame _ => exact Option.some.inj (hParent.symm.trans hSame)
    | pass hSame hGone _ =>
      cases hParent.symm.trans hSame
      exact absurd hGone hStays
  | pass hParent hGone hClimbs ih =>
    cases hOther with
    | stop hSame hStays =>
      cases hParent.symm.trans hSame
      exact absurd hGone hStays
    | pass hSame _ hRest =>
      cases hParent.symm.trans hSame
      exact ih hRest

theorem Climbs.parent_ne_none (hClimbs : Climbs parent Gone x p) : parent x ≠ none := by
  cases hClimbs with
  | stop hParent _ =>
    rw [hParent]
    exact Option.some_ne_none p
  | pass hParent _ _ =>
    rw [hParent]
    exact Option.some_ne_none _

/- Climbing goes down in the measure. -/
theorem Climbs.rank_lt (hFalls : FallsAlong rank parent)
    (hClimbs : Climbs parent Gone x p) : rank p < rank x := by
  induction hClimbs with
  | stop hParent _ => exact hFalls _ _ hParent
  | pass hParent _ _ ih => exact Nat.lt_trans ih (hFalls _ _ hParent)

/- Every node climbs, unless one without a parent is gone. -/
theorem exists_climbs (hFalls : FallsAlong rank parent)
    (hLinked : ∀ y, Gone y → parent y ≠ none) (hParent : parent x ≠ none) :
    ∃ p, Climbs parent Gone x p := by
  induction hRank : rank x using Nat.strongRecOn generalizing x with
  | _ n ih =>
    rcases Option.ne_none_iff_exists'.mp hParent with ⟨q, hUp⟩
    by_cases hGone : Gone q
    · have hLess : rank q < n := by
        rw [← hRank]
        exact hFalls x q hUp
      rcases ih _ hLess (hLinked q hGone) rfl with ⟨p, hClimbs⟩
      exact ⟨p, Climbs.pass hUp hGone hClimbs⟩
    · exact ⟨q, Climbs.stop hUp hGone⟩

/- A climb does not see a node left out that it does not meet. -/
theorem Climbs.leave_out (hClimbs : Climbs parent Gone x p) (hOther : p ≠ m) :
    Climbs parent (fun y => Gone y ∨ y = m) x p := by
  induction hClimbs with
  | stop hParent hStays => exact Climbs.stop hParent (not_or_intro hStays hOther)
  | pass hParent hGone _ ih => exact Climbs.pass hParent (Or.inl hGone) (ih hOther)

/- Who climbed to a node climbs on when it is left out. -/
theorem Climbs.climb_on (hFalls : FallsAlong rank parent) (hClimbs : Climbs parent Gone x m)
    (hOver : Climbs parent Gone m p) : Climbs parent (fun y => Gone y ∨ y = m) x p := by
  have hOther : p ≠ m := by
    rintro rfl
    exact Nat.lt_irrefl _ (hOver.rank_lt hFalls)
  induction hClimbs with
  | stop hParent _ => exact Climbs.pass hParent (Or.inr rfl) (hOver.leave_out hOther)
  | pass hParent hGone _ ih => exact Climbs.pass hParent (Or.inl hGone) (ih hOver hOther)

/- Leaving out one node more. -/
theorem climbs_leave_out (hFalls : FallsAlong rank parent) (hStays : ¬ Gone m) :
    Climbs parent (fun y => Gone y ∨ y = m) x p ↔ (Climbs parent Gone x p ∧ p ≠ m) ∨
        (Climbs parent Gone x m ∧ Climbs parent Gone m p) := by
  constructor
  · intro hClimbs
    induction hClimbs with
    | stop hParent hOut =>
      rcases not_or.mp hOut with ⟨hIn, hOther⟩
      exact Or.inl ⟨Climbs.stop hParent hIn, hOther⟩
    | @pass y q z hParent hOut _ ih =>
      by_cases hSame : q = m
      · subst hSame
        right
        refine ⟨Climbs.stop hParent hStays, ?_⟩
        rcases ih with ⟨hOver, _⟩ | ⟨_, hOver⟩
        · exact hOver
        · exact hOver
      · have hGone := hOut.resolve_right hSame
        rcases ih with ⟨hOver, hOther⟩ | ⟨hTo, hOver⟩
        · exact Or.inl ⟨Climbs.pass hParent hGone hOver, hOther⟩
        · exact Or.inr ⟨Climbs.pass hParent hGone hTo, hOver⟩
  · rintro (⟨hClimbs, hOther⟩ | ⟨hTo, hOver⟩)
    · exact hClimbs.leave_out hOther
    · exact hTo.climb_on hFalls hOver

/- Without nodes that are gone, a climb is a link. -/
theorem climbs_iff_parent (hNone : ∀ y, ¬ Gone y) : Climbs parent Gone x p ↔ parent x = some p := by
  constructor
  · intro hClimbs
    cases hClimbs with
    | stop hParent _ => exact hParent
    | pass _ hGone _ => exact absurd hGone (hNone _)
  · intro hParent
    exact Climbs.stop hParent (hNone p)

end Climbs

end Wmail.Links
