import Mathlib.Data.List.Basic

/-
  Consumers that keep a part of what they are given and emit
  the rest.

  A call ends in a state and has emitted some pieces, or it
  fails.  An account says what is counted of the state and of
  a piece; a call conserves when nothing that is counted is
  lost, repeated, or moved in front of something else.

  Key theorems include:
    * `Account.Conserves.andThen`
    * `Account.conserves_emitAll`
-/

namespace Wmail

/- The state after a call and what it emitted, or a failure. -/
abbrev Emitted (σ ο : Type) : Type :=
  Option (σ × List ο)

namespace Emitted

variable {σ ο : Type}

/- Nothing is emitted. -/
def stay (s : σ) : Emitted σ ο :=
  some (s, [])

/- One call after another one. -/
def andThen (r : Emitted σ ο) (f : σ → Emitted σ ο) : Emitted σ ο :=
  match r with
  | none => none
  | some (s, out) =>
    match f s with
    | none => none
    | some (s, more) => some (s, out ++ more)

@[simp] theorem stay_andThen (s : σ) (f : σ → Emitted σ ο) : (stay s).andThen f = f s := by
  simp only [andThen, stay]
  cases f s with
  | none => rfl
  | some result => rfl

@[simp] theorem andThen_stay (r : Emitted σ ο) : r.andThen stay = r := by
  cases r with
  | none => rfl
  | some result =>
    rcases result with ⟨s, out⟩
    simp only [andThen, stay, List.append_nil]

theorem andThen_assoc (r : Emitted σ ο) (f g : σ → Emitted σ ο) : (r.andThen f).andThen g =
      r.andThen (fun s => (f s).andThen g) := by
  cases r with
  | none => rfl
  | some result =>
    rcases result with ⟨s, out⟩
    simp only [andThen]
    cases f s with
    | none => rfl
    | some result =>
      rcases result with ⟨s, more⟩
      simp only
      cases g s with
      | none => rfl
      | some result => simp only [List.append_assoc]

end Emitted

section

variable {σ ι ο : Type}

/- One call for each element. -/
def emitAll (step : σ → ι → Emitted σ ο) (s : σ) : List ι → Emitted σ ο
  | [] => Emitted.stay s
  | x :: rest => (step s x).andThen fun s => emitAll step s rest

theorem emitAll_append (step : σ → ι → Emitted σ ο) (s : σ) (xs ys : List ι) :
    emitAll step s (xs ++ ys) = (emitAll step s xs).andThen fun s => emitAll step s ys := by
  induction xs generalizing s with
  | nil => simp only [List.nil_append, emitAll, Emitted.stay_andThen]
  | cons x rest ih => simp only [List.cons_append, emitAll, ih, Emitted.andThen_assoc]

end

/-
  What counts of a state and of an emitted piece, and what an
  emitted piece has to be.
-/
structure Account (σ ο γ : Type) where
  held : σ → List γ
  shown : ο → List γ
  Fine : ο → Prop

namespace Account

variable {σ ι ο γ : Type} (a : Account σ ο γ)

/-
  The call does not fail, ends in a state with `Post`, and
  what it was given is emitted or held behind what was held.
-/
def Conserves (s : σ) (given : List γ) (Post : σ → Prop) (r : Emitted σ ο) : Prop :=
  ∃ s' out, r = some (s', out) ∧ Post s' ∧ (∀ o, o ∈ out → a.Fine o) ∧
      out.flatMap a.shown ++ a.held s' = a.held s ++ given

variable {a} {s : σ} {given more : List γ} {Post Next : σ → Prop} {r : Emitted σ ο}

theorem conserves_stay {s' : σ} (hPost : Post s') (hHeld : a.held s' = a.held s ++ given) :
    a.Conserves s given Post (Emitted.stay s') :=
  ⟨s', [], rfl, hPost, fun _ hMem => absurd hMem List.not_mem_nil, hHeld⟩

/- One piece is emitted. -/
theorem conserves_emit {s' : σ} {o : ο} (hPost : Post s') (hFine : a.Fine o)
    (hHeld : a.shown o ++ a.held s' = a.held s ++ given) :
    a.Conserves s given Post (some (s', [o])) := by
  refine ⟨s', [o], rfl, hPost, ?_, ?_⟩
  · intro other hMem
    rw [List.mem_singleton.mp hMem]
    exact hFine
  · rw [List.flatMap_singleton]
    exact hHeld

theorem Conserves.weaken (hCall : a.Conserves s given Post r)
    (hNext : ∀ s', Post s' → Next s') : a.Conserves s given Next r := by
  rcases hCall with ⟨s', out, hRun, hPost, hRest⟩
  exact ⟨s', out, hRun, hNext s' hPost, hRest⟩

/- Only what is held counts of the state before. -/
theorem Conserves.of_held {s' : σ} (hCall : a.Conserves s given Post r)
    (hHeld : a.held s = a.held s') : a.Conserves s' given Post r := by
  unfold Conserves at hCall ⊢
  rw [← hHeld]
  exact hCall

variable {f : σ → Emitted σ ο}

theorem Conserves.andThen (hCall : a.Conserves s given Post r)
    (hThen : ∀ s', Post s' → a.Conserves s' more Next (f s')) :
    a.Conserves s (given ++ more) Next (r.andThen f) := by
  rcases hCall with ⟨s', out, rfl, hPost, hFine, hHeld⟩
  rcases hThen s' hPost with ⟨last, others, hRun, hNext, hAlso, hRest⟩
  refine ⟨last, out ++ others, ?_, hNext, ?_, ?_⟩
  · simp only [Emitted.andThen, hRun]
  · intro o hMem
    rcases List.mem_append.mp hMem with hFirst | hSecond
    · exact hFine o hFirst
    · exact hAlso o hSecond
  · rw [List.flatMap_append, List.append_assoc, hRest,
      ← List.append_assoc, hHeld, List.append_assoc]

/- The second call is given nothing. -/
theorem Conserves.andThen_nothing (hCall : a.Conserves s given Post r)
    (hThen : ∀ s', Post s' → a.Conserves s' [] Next (f s')) :
    a.Conserves s given Next (r.andThen f) := by
  rw [← List.append_nil given]
  exact hCall.andThen hThen

/- The first call is given nothing. -/
theorem Conserves.nothing_andThen (hCall : a.Conserves s [] Post r)
    (hThen : ∀ s', Post s' → a.Conserves s' given Next (f s')) :
    a.Conserves s given Next (r.andThen f) :=
  hCall.andThen hThen

/- A run conserves when every call does. -/
theorem conserves_emitAll {step : σ → ι → Emitted σ ο} {given : ι → List γ} {xs : List ι} (hStep :
      ∀ s x, x ∈ xs → Post s → a.Conserves s (given x) Post (step s x)) (hPost : Post s) :
    a.Conserves s (xs.flatMap given) Post (emitAll step s xs) := by
  induction xs generalizing s with
  | nil => exact conserves_stay hPost (List.append_nil _).symm
  | cons x rest ih =>
    rw [List.flatMap_cons]
    apply (hStep s x List.mem_cons_self hPost).andThen
    intro s' hNext
    apply ih _ hNext
    intro s x hMem
    exact hStep s x (List.mem_cons_of_mem _ hMem)

end Account

end Wmail
