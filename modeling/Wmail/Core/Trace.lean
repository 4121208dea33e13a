import Mathlib.Data.List.Basic

/-
  Machines that put something out at each step.

  Key theorems include:
    * `outputs_forall`
    * `mem_outputs`
-/

namespace Wmail

section Outputs

variable {σ ι ο : Type}

/-
  What a machine puts out, step by step.  A step without a
  next state is the last one.
-/
def outputs (step : σ → ι → ο × Option σ) : List ι → σ → List ο
  | [], _ => []
  | i :: rest, s =>
    (step s i).1 ::
      match (step s i).2 with
      | none => []
      | some next => outputs step rest next

/-
  What holds of the outputs if each step keeps an invariant
  of the state and of the outputs that are already there.
-/
theorem outputs_forall {step : σ → ι → ο × Option σ} (Inv : List ο → σ → Prop)
    (Good : List ο → ο → Prop) (hGood : ∀ past s i, Inv past s → Good past (step s i).1)
    (hKept : ∀ past s i next, Inv past s →
      (step s i).2 = some next →
        Inv (past ++ [(step s i).1]) next) (inputs : List ι) (past : List ο) {s : σ}
    (hInv : Inv past s) {before after : List ο} {out : ο}
    (hOutputs : outputs step inputs s = before ++ out :: after) : Good (past ++ before) out := by
  induction inputs generalizing past s before with
  | nil => simp [outputs] at hOutputs
  | cons i rest ih =>
    unfold outputs at hOutputs
    cases before with
    | nil =>
      rw [List.nil_append] at hOutputs
      rw [List.append_nil, ← (List.cons.inj hOutputs).1]
      exact hGood past s i hInv
    | cons first more =>
      have hParts := List.cons.inj hOutputs
      cases hNext : (step s i).2 with
      | none => simp [hNext] at hParts
      | some next =>
        simp only [hNext] at hParts
        have hIn := ih _ (hKept past s i next hInv hNext) hParts.2
        rw [hParts.1, List.append_assoc] at hIn
        exact hIn

/- The same without the outputs that are already there. -/
theorem mem_outputs {step : σ → ι → ο × Option σ} (Inv : σ → Prop) (Good : ο → Prop)
    (hGood : ∀ s i, Inv s → Good (step s i).1)
    (hKept : ∀ s i next, Inv s →
      (step s i).2 = some next → Inv next) {inputs : List ι} {s : σ} (hInv : Inv s)
    {out : ο} (hMem : out ∈ outputs step inputs s) : Good out := by
  rcases List.append_of_mem hMem with ⟨before, after, hOutputs⟩
  exact outputs_forall (fun _ state => Inv state) (fun _ o => Good o)
    (fun _ state i => hGood state i)
    (fun _ state i next => hKept state i next)
    inputs [] hInv hOutputs

end Outputs

end Wmail
