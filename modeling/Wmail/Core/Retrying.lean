import Mathlib.Data.List.Basic
import Mathlib.Data.List.TakeWhile

/-
  Conversions that stop at the first element that they cannot
  convert, and loops that go on behind it.

  Key theorems include:
    * `retryLoop_tokens`
    * `tokens_append`
-/

namespace Wmail

variable {α β γ : Type}

/-
  What begins with an element, and how many more elements
  belong to it.
-/
abbrev Reader (α β : Type) :=
  α → List α → Option (β × Nat)

/-
  One thing after the other, from a place on, where the first
  `skip` elements have been read; an error is the place of an
  element with which nothing begins.
-/
def readAll (reader : Reader α β) : Nat → Nat → List α → Except Nat (List β)
  | _, _, [] => .ok []
  | l, skip + 1, _ :: rest => readAll reader (l + 1) skip rest
  | l, 0, a :: rest =>
    match reader a rest with
    | none => .error l
    | some (c, more) => (readAll reader (l + 1) more rest).map (c :: ·)

/- All that is read, and the elements that are not. -/
def tokens (reader : Reader α β) : Nat → List α → List (α ⊕ β)
  | _, [] => []
  | skip + 1, _ :: rest => tokens reader skip rest
  | 0, a :: rest =>
    match reader a rest with
    | none => .inl a :: tokens reader 0 rest
    | some (c, more) => .inr c :: tokens reader more rest

/-
  The conversion of a text, or of what is in front of the
  place where that fails; and how much was converted.
-/
def tryConvert (convert : List α → Except Nat (List β)) (text : List α) :
    Option (List β × Nat) :=
  match convert text with
  | .ok out => some (out, text.length)
  | .error place => (convert (text.take place)).toOption.map (·, place)

/-
  Attempts until the text has ended; where an attempt stops,
  something is put in place of one element.
-/
def retryLoop (attempt : List α → Option (List γ × Nat)) (instead : α → List γ) (text : List α) :
    Option (List γ) :=
  if text = [] then
    some []
  else
    (attempt text).bind fun (out, done) =>
      if _hMore : done < text.length then
        (retryLoop attempt instead (text.drop (done + 1))).map (out ++ instead text[done] ++ ·)
      else
        some out
termination_by text.length
decreasing_by
  rw [List.length_drop]
  omega

/- A reader of elements on their own. -/
def single (f : α → Option β) : Reader α β :=
  fun a _ => (f a).map (·, 0)

/- What is read does not depend on what is behind it. -/
def Steady (reader : Reader α β) : Prop :=
  ∀ a rest c more, reader a rest = some (c, more) → more ≤ rest.length ∧
    ∀ others, reader a (rest.take more ++ others) = some (c, more)

theorem single_more {f : α → Option β} {a : α} {rest : List α} {c : β} {more : Nat}
    (hRead : single f a rest = some (c, more)) : more = 0 := by
  rcases Option.map_eq_some_iff.mp hRead with ⟨_, _, hSame⟩
  exact (congrArg Prod.snd hSame).symm

theorem steady_single (f : α → Option β) : Steady (single f) := by
  intro a rest c more hRead
  exact ⟨single_more hRead ▸ Nat.zero_le _, fun _ => hRead⟩

theorem tokens_single (f : α → Option β) (text : List α) :
    tokens (single f) 0 text = text.map fun a => (f a).elim (.inl a) .inr := by
  induction text with
  | nil => rfl
  | cons a text ih =>
    rw [tokens, single, List.map_cons, ← ih]
    cases f a with
    | none => rfl
    | some c => rfl

variable {reader : Reader α β}

/- A reading ends with the text, or in front of an element. -/
theorem readAll_tokens (hSteady : Steady reader) (text : List α) (l skip : Nat) :
    (∃ u, readAll reader l skip text = .ok u ∧ tokens reader skip text = u.map .inr) ∨
      ∃ u front a rest, text = front ++ a :: rest ∧ skip ≤ front.length ∧
        readAll reader l skip text = .error (l + front.length) ∧
        readAll reader l skip front = .ok u ∧
        tokens reader skip text = u.map .inr ++ .inl a :: tokens reader 0 rest := by
  induction text generalizing l skip with
  | nil => exact Or.inl ⟨[], by cases skip <;> rfl, by cases skip <;> rfl⟩
  | cons b text ih =>
    cases skip with
    | succ skip =>
      rcases ih (l + 1) skip with hAll | ⟨u, front, a, rest, rfl, hSkip, hStop, hFront, hTokens⟩
      · exact Or.inl hAll
      · refine Or.inr ⟨u, b :: front, a, rest, rfl, Nat.succ_le_succ hSkip, ?_, hFront, hTokens⟩
        rw [List.length_cons, Nat.add_comm front.length, ← Nat.add_assoc]
        exact hStop
    | zero =>
      cases hRead : reader b text with
      | none =>
        simp only [readAll, tokens, hRead]
        exact Or.inr ⟨[], [], b, text, rfl, Nat.le_refl 0, rfl, rfl, rfl⟩
      | some found =>
        rcases found with ⟨c, more⟩
        simp only [readAll, tokens, hRead]
        rcases ih (l + 1) more with ⟨u, hAll, hTokens⟩ |
          ⟨u, front, a, rest, rfl, hMore, hStop, hFront, hTokens⟩
        · rw [hAll, hTokens]
          exact Or.inl ⟨c :: u, rfl, rfl⟩
        · have hSame := (hSteady _ _ _ _ hRead).2 (front.drop more)
          rw [List.take_append_of_le_length hMore, List.take_append_drop] at hSame
          rw [hStop, hTokens]
          refine Or.inr ⟨c :: u, b :: front, a, rest, rfl, Nat.zero_le _, ?_, ?_, rfl⟩
          · rw [List.length_cons, Nat.add_comm front.length, ← Nat.add_assoc]
            rfl
          · rw [readAll, hSame]
            dsimp only
            rw [hFront]
            rfl

/-
  The loop reads one thing after the other, where what is read
  is written in a second step.
-/
theorem retryLoop_tokens (hSteady : Steady reader) {writer : List β → Option (List γ)}
    {write : β → List γ} {instead : α → List γ} {p : β → Prop}
    (hWriter : ∀ u, (∀ c, c ∈ u → p c) → writer u = some (u.flatMap write)) {text : List α}
    (hText : ∀ c, .inr c ∈ tokens reader 0 text → p c) :
    retryLoop (fun text => (tryConvert (readAll reader 0 0) text).bind fun (u, done) =>
        (writer u).map (·, done)) instead text =
      some ((tokens reader 0 text).flatMap (Sum.elim instead write)) := by
  induction hLength : text.length using Nat.strongRecOn generalizing text with
  | _ length ih =>
    have hWritten : ∀ u : List β, (u.map .inr).flatMap (Sum.elim instead write) =
        u.flatMap write := fun u => List.flatMap_map _ _ _
    unfold retryLoop
    split
    · rename_i hNil
      rw [hNil]
      rfl
    rcases readAll_tokens hSteady text 0 0 with ⟨u, hAll, hTokens⟩ |
      ⟨u, front, a, rest, rfl, _, hStop, hFront, hTokens⟩
    · have hTry : tryConvert (readAll reader 0 0) text = some (u, text.length) := by
        rw [tryConvert, hAll]
      rw [hTokens] at hText ⊢
      have hOut := hWriter u fun c hMem => hText c (List.mem_map_of_mem hMem)
      rw [hTry, Option.bind_some, hWritten]
      dsimp only
      rw [hOut]
      exact dif_neg (Nat.lt_irrefl _)
    · have hTry : tryConvert (readAll reader 0 0) (front ++ a :: rest) =
          some (u, front.length) := by
        rw [tryConvert, hStop]
        dsimp only
        rw [Nat.zero_add, List.take_left, hFront]
        rfl
      rw [hTokens] at hText ⊢
      have hOut := hWriter u fun c hMem =>
        hText c (List.mem_append_left _ (List.mem_map_of_mem hMem))
      rw [List.length_append, List.length_cons] at hLength
      have hRest := ih rest.length (by omega)
        (fun c hMem => hText c (List.mem_append_right _ (List.mem_cons_of_mem _ hMem))) rfl
      have hDone : (front ++ a :: rest).drop (front.length + 1) = rest := by simp
      have hMore : front.length < (front ++ a :: rest).length := by simp
      rw [hTry, Option.bind_some]
      dsimp only
      rw [hOut, Option.map_some, Option.bind_some]
      dsimp only
      rw [dif_pos hMore, hDone, hRest]
      simp [hWritten]

/-
  A text may be cut where nothing that begins in front of the
  place goes over it.
-/
theorem tokens_append (hSteady : Steady reader) {p : List α → Prop}
    (hTail : ∀ a s, p (a :: s) → p s)
    (hWithin : ∀ a s back c more, p (a :: s) → reader a (s ++ back) = some (c, more) →
      more ≤ s.length) {front : List α} (hFront : p front) {skip : Nat}
    (hSkip : skip ≤ front.length) (back : List α) :
    tokens reader skip (front ++ back) = tokens reader skip front ++ tokens reader 0 back := by
  induction front generalizing skip with
  | nil => rw [Nat.le_zero.mp hSkip, List.nil_append, tokens, List.nil_append]
  | cons a s ih =>
    cases skip with
    | succ skip => exact ih (hTail a s hFront) (Nat.le_of_succ_le_succ hSkip)
    | zero =>
      have hSame : ∀ back others c more, reader a (s ++ back) = some (c, more) →
          reader a (s ++ others) = some (c, more) := by
        intro back others c more hRead
        have hOther := (hSteady _ _ _ _ hRead).2 (s.drop more ++ others)
        rwa [List.take_append_of_le_length (hWithin a s back c more hFront hRead),
          ← List.append_assoc, List.take_append_drop] at hOther
      have hBoth : reader a (s ++ back) = reader a (s ++ []) :=
        Option.ext fun ⟨c, more⟩ => ⟨hSame back [] c more, hSame [] back c more⟩
      rw [List.append_nil] at hBoth
      rw [List.cons_append, tokens, tokens, hBoth]
      cases hRead : reader a s with
      | none => exact congrArg (.inl a :: ·) (ih (hTail a s hFront) (Nat.zero_le _))
      | some found =>
        rcases found with ⟨c, more⟩
        exact congrArg (.inr c :: ·) (ih (hTail a s hFront) (hSteady _ _ _ _ hRead).1)

end Wmail
