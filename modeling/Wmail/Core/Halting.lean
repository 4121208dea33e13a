import Mathlib.Logic.Relation

/-
  Machines that take one step after the other, and whether
  they stop.

  Key theorems include:
    * `halts_of_falls`
    * `not_halts_of_loop`
-/

namespace Wmail

variable {σ : Type}

/- A run of steps. -/
def Steps (step : σ → Option σ) : σ → σ → Prop :=
  Relation.ReflTransGen fun s t => step s = some t

/- A run that comes to a state without a next step. -/
def Halts (step : σ → Option σ) (s : σ) : Prop :=
  ∃ t, Steps step s t ∧ step t = none

variable {step : σ → Option σ}

theorem Steps.refl (s : σ) : Steps step s s :=
  Relation.ReflTransGen.refl

theorem Steps.head {s t u : σ} (hStep : step s = some t) (hRun : Steps step t u) :
    Steps step s u :=
  Relation.ReflTransGen.head hStep hRun

theorem Halts.head {s t : σ} (hRun : Steps step s t) (hHalts : Halts step t) : Halts step s := by
  rcases hHalts with ⟨last, hLast, hEnd⟩
  exact ⟨last, Relation.ReflTransGen.trans hRun hLast, hEnd⟩

/- What each step keeps is kept by a run. -/
theorem Steps.kept {Inv : σ → Prop} (hKept : ∀ s t, Inv s → step s = some t → Inv t)
    {s t : σ} (hRun : Steps step s t) (hInv : Inv s) : Inv t := by
  induction hRun with
  | refl => exact hInv
  | tail _ hStep ih => exact hKept _ _ ih hStep

/- A machine whose steps lower a number stops. -/
theorem halts_of_falls {Inv : σ → Prop} (size : σ → Nat)
    (hKept : ∀ s t, Inv s → step s = some t → Inv t)
    (hFalls : ∀ s t, Inv s → step s = some t →
      size t < size s) {s : σ} (hInv : Inv s) : Halts step s := by
  generalize hN : size s = n
  induction n using Nat.strongRecOn generalizing s with
  | ind n ih =>
    cases hStep : step s with
    | none => exact ⟨s, Steps.refl s, hStep⟩
    | some t =>
      have hLess := hFalls s t hInv hStep
      rw [hN] at hLess
      exact Halts.head (Steps.head hStep (Steps.refl t)) (ih _ hLess (hKept s t hInv hStep) rfl)

/- A machine that comes to a state it does not leave. -/
theorem not_halts_of_loop {s t : σ} (hRun : Steps step s t) (hLoop : step t = some t) :
    ¬ Halts step s := by
  rintro ⟨last, hLast, hEnd⟩
  have hUnique : Relator.RightUnique fun s t : σ => step s = some t := by
    intro a b c hB hC
    exact Option.some.inj (hB.symm.trans hC)
  have hStay : ∀ u, Steps step t u → u = t := by
    intro u hU
    have hKept : ∀ a b, a = t → step a = some b → b = t := by
      intro a b hA hStep
      rw [hA, hLoop] at hStep
      exact (Option.some.inj hStep).symm
    exact hU.kept hKept rfl
  rcases Relation.ReflTransGen.total_of_right_unique hUnique hRun hLast with hAfter | hBefore
  · rw [hStay last hAfter, hLoop] at hEnd
    cases hEnd
  · rcases Relation.ReflTransGen.cases_head hBefore with hSame | ⟨next, hStep, _⟩
    · rw [hSame, hLoop] at hEnd
      cases hEnd
    · rw [hEnd] at hStep
      cases hStep

end Wmail
