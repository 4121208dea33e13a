import Mathlib.Data.List.Basic

/-
  C functions that change a state and return an error code.

  Key theorems include:
    * `Sink.fails_append`
-/

namespace Wmail

/- A return code together with the state left behind. -/
abbrev Rc (σ : Type) :=
  Int × σ

namespace Rc

variable {σ : Type}

/- `if ((rc = first) != 0) return rc;` and then the rest. -/
def andThen (first : Rc σ) (next : σ → Rc σ) : Rc σ :=
  if first.1 ≠ 0 then first else next first.2

@[simp] theorem andThen_zero (state : σ) (next : σ → Rc σ) :
    andThen (0, state) next = next state := by
  simp [andThen]

/- A first call without error is followed by the rest. -/
theorem andThen_of_zero {first : Rc σ} (hZero : first.1 = 0) (next : σ → Rc σ) :
    andThen first next = next first.2 := by
  simp [andThen, hZero]

end Rc

/-
  A callback that consumes fragments of text.  Its return
  code may depend on the fragments it was given before.
-/
abbrev Sink (α : Type) :=
  List (List α) → List α → Int

/- The callback that accepts every fragment. -/
def Sink.accept (α : Type) : Sink α :=
  fun _ _ => 0

namespace Sink

variable {α : Type}

/- One of the fragments `more`, behind others, is refused. -/
def Fails (u : Sink α) (past more : List (List α)) : Prop :=
  ∃ before fragment after, more = before ++ fragment :: after ∧ u (past ++ before) fragment ≠ 0

theorem not_fails_nil (u : Sink α) (past : List (List α)) : ¬ u.Fails past [] := by
  rintro ⟨before, fragment, after, hNil, _⟩
  exact List.append_ne_nil_of_right_ne_nil before (List.cons_ne_nil fragment after) hNil.symm

theorem fails_cons (u : Sink α) (past : List (List α)) (fragment : List α)
    (more : List (List α)) :
    u.Fails past (fragment :: more) ↔ u past fragment ≠ 0 ∨ u.Fails (past ++ [fragment]) more := by
  constructor
  · rintro ⟨before, bad, after, hMore, hBad⟩
    cases before with
    | nil =>
      rcases List.cons_eq_cons.mp hMore with ⟨hSame, _⟩
      rw [List.append_nil] at hBad
      rw [hSame]
      exact Or.inl hBad
    | cons first before =>
      rcases List.cons_eq_cons.mp hMore with ⟨hSame, hRest⟩
      rw [← hSame, List.append_cons] at hBad
      exact Or.inr ⟨before, bad, after, hRest, hBad⟩
  · rintro (hBad | ⟨before, bad, after, hMore, hBad⟩)
    · refine ⟨[], fragment, more, rfl, ?_⟩
      rw [List.append_nil]
      exact hBad
    · refine ⟨fragment :: before, bad, after, ?_, ?_⟩
      · rw [hMore]
        rfl
      · rw [List.append_cons]
        exact hBad

theorem fails_append (u : Sink α) (past first more : List (List α)) :
    u.Fails past (first ++ more) ↔ u.Fails past first ∨ u.Fails (past ++ first) more := by
  induction first generalizing past with
  | nil =>
    rw [List.append_nil]
    exact (or_iff_right (u.not_fails_nil past)).symm
  | cons fragment first ih =>
    rw [List.cons_append, fails_cons, fails_cons, ih,
      or_assoc, List.append_assoc, List.singleton_append]

end Sink

end Wmail
