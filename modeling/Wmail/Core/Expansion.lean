import Mathlib.Data.List.Basic

/-
  Names that are replaced by their entries, in passes.

  An item may be a name.  A pass puts the entry of a name in
  its place, once for every name; a name that has been replaced
  before is taken out.  When a pass has replaced nothing, what
  is left are the items that are reached from the first ones
  and that are no names.

  Key theorems include:
    * `pass_map`
    * `Covers.pass`
-/

namespace Wmail.Expansion

section

variable {α κ : Type} (key : α → Option κ) (entry : κ → List α)

/- What the items come to when names are replaced. -/
inductive Reached (start : List α) : α → Prop where
  | start
      {x : α}
      (hMem : x ∈ start) :
      Reached start x
  | entry
      {x y : α}
      {k : κ}
      (hReached : Reached start x)
      (hKey : key x = some k)
      (hMem : y ∈ entry k) :
      Reached start y

/- An item is left, or its name has been replaced. -/
def Covered (xs : List α) (seen : List κ) (x : α) : Prop :=
  x ∈ xs ∨ ∃ k, key x = some k ∧ k ∈ seen

/-
  What is left has been reached, and what is reached by one
  step, from the first items or from a name that has been
  replaced, is not lost.
-/
structure Covers (start xs : List α) (seen : List κ) : Prop where
  reached : ∀ x, x ∈ xs → Reached key entry start x
  start : ∀ x, x ∈ start → Covered key xs seen x
  entries : ∀ k, k ∈ seen → ∀ x, x ∈ entry k → Covered key xs seen x

theorem Covers.first (start : List α) : Covers key entry start start [] := by
  refine ⟨fun x hMem => Reached.start hMem, fun x hMem => Or.inl hMem, ?_⟩
  intro k hMem
  cases hMem

variable {key entry}

/- When there is no name left, all is there that is reached. -/
theorem Covers.done {start xs : List α} {seen : List κ}
    (hCovers : Covers key entry start xs seen) (hNone : ∀ x, x ∈ xs → key x = none)
    (x : α) : x ∈ xs ↔ Reached key entry start x ∧ key x = none := by
  have hAll : ∀ y, Reached key entry start y → Covered key xs seen y := by
    intro y hReached
    induction hReached with
    | start hMem => exact hCovers.start _ hMem
    | @entry z y k _ hKey hMem ih =>
      rcases ih with hLeft | ⟨j, hName, hSeen⟩
      · rw [hNone z hLeft] at hKey
        cases hKey
      · rw [hName, Option.some.injEq] at hKey
        rw [hKey] at hSeen
        exact hCovers.entries k hSeen y hMem
  constructor
  · intro hMem
    exact ⟨hCovers.reached x hMem, hNone x hMem⟩
  · intro hBoth
    rcases hAll x hBoth.1 with hLeft | ⟨k, hName, _⟩
    · exact hLeft
    · rw [hBoth.2] at hName
      cases hName

end

/- What a pass leaves of an item: the item, or its entry. -/
inductive Part (α κ : Type) where
  | kept (x : α)
  | put (k : κ)

/- The items of a part. -/
def Part.items {α κ : Type} (entry : κ → List α) : Part α κ → List α
  | .kept x => [x]
  | .put k => entry k

section

variable {α κ : Type} [DecidableEq κ] (key : α → Option κ)

/-
  A pass over the items: what is left of them, the names that
  have been replaced so far, and whether one was replaced here.
-/
def pass : List α → List κ → List (Part α κ) × List κ × Bool
  | [], seen => ([], seen, false)
  | x :: rest, seen =>
    match key x with
    | none =>
      let r := pass rest seen
      (.kept x :: r.1, r.2)
    | some k =>
      if k ∈ seen then
        pass rest seen
      else
        let r := pass rest (k :: seen)
        (.put k :: r.1, r.2.1, true)

variable {key}

theorem pass_kept {x : α} (hKey : key x = none) (rest : List α) (seen : List κ) :
    pass key (x :: rest) seen = (.kept x :: (pass key rest seen).1, (pass key rest seen).2) := by
  rw [pass, hKey]

theorem pass_again {x : α} {k : κ} {seen : List κ} (hKey : key x = some k)
    (hSeen : k ∈ seen) (rest : List α) : pass key (x :: rest) seen = pass key rest seen := by
  rw [pass, hKey]
  simp only [if_pos hSeen]

theorem pass_put {x : α} {k : κ} {seen : List κ} (hKey : key x = some k) (hNew : k ∉ seen)
    (rest : List α) :
    pass key (x :: rest) seen = (.put k :: (pass key rest (k :: seen)).1,
        (pass key rest (k :: seen)).2.1, true) := by
  rw [pass, hKey]
  simp only [if_neg hNew]

/-
  A property of passes, from what one item comes to.  The cases
  are the item that is kept, the name that was replaced before,
  and the name that is replaced here.
-/
theorem pass_induction
    {P : List α → List κ →
      List (Part α κ) × List κ × Bool → Prop} (hNil : ∀ seen, P [] seen ([], seen, false))
    (hKept : ∀ x rest seen, key x = none →
      P rest seen (pass key rest seen) → P (x :: rest) seen (.kept x :: (pass key rest seen).1,
            (pass key rest seen).2))
    (hAgain : ∀ x rest seen k, key x = some k → k ∈ seen →
      P rest seen (pass key rest seen) → P (x :: rest) seen (pass key rest seen))
    (hPut : ∀ x rest seen k, key x = some k → k ∉ seen →
      P rest (k :: seen) (pass key rest (k :: seen)) → P (x :: rest) seen
          (.put k :: (pass key rest (k :: seen)).1,
            (pass key rest (k :: seen)).2.1, true)) (xs : List α) (seen : List κ) :
    P xs seen (pass key xs seen) := by
  induction xs generalizing seen with
  | nil => exact hNil seen
  | cons x rest ih =>
    cases hKey : key x with
    | none =>
      rw [pass_kept hKey]
      exact hKept x rest seen hKey (ih seen)
    | some k =>
      by_cases hSeen : k ∈ seen
      · rw [pass_again hKey hSeen]
        exact hAgain x rest seen k hKey hSeen (ih seen)
      · rw [pass_put hKey hSeen]
        exact hPut x rest seen k hKey hSeen (ih (k :: seen))

theorem seen_subset_pass (xs : List α) (seen : List κ) :
    ∀ k, k ∈ seen → k ∈ (pass key xs seen).2.1 := by
  apply pass_induction (P := fun _ seen r => ∀ k, k ∈ seen → k ∈ r.2.1)
  · intro seen k hMem
    exact hMem
  · intro x rest seen _ ih k hMem
    exact ih k hMem
  · intro x rest seen j _ _ ih k hMem
    exact ih k hMem
  · intro x rest seen j _ _ ih k hMem
    exact ih k (List.mem_cons_of_mem j hMem)

/- A name is replaced here, or it was before. -/
theorem put_of_seen (xs : List α) (seen : List κ) :
    ∀ k, k ∈ (pass key xs seen).2.1 → k ∈ seen ∨ .put k ∈ (pass key xs seen).1 := by
  apply pass_induction (P := fun _ seen r => ∀ k, k ∈ r.2.1 → k ∈ seen ∨ .put k ∈ r.1)
  · intro seen k hMem
    exact Or.inl hMem
  · intro x rest seen _ ih k hMem
    exact (ih k hMem).imp id (List.mem_cons_of_mem _)
  · intro x rest seen j _ _ ih k hMem
    exact ih k hMem
  · intro x rest seen j _ _ ih k hMem
    rcases ih k hMem with hSeen | hPut
    · rcases List.mem_cons.mp hSeen with rfl | hOld
      · exact Or.inr List.mem_cons_self
      · exact Or.inl hOld
    · exact Or.inr (List.mem_cons_of_mem _ hPut)

/- An item is kept, or its name has been replaced. -/
theorem item_of_pass (xs : List α) (seen : List κ) :
    ∀ x, x ∈ xs → (key x = none ∧ .kept x ∈ (pass key xs seen).1) ∨
        ∃ k, key x = some k ∧ k ∈ (pass key xs seen).2.1 := by
  apply pass_induction (P := fun xs _ r => ∀ x, x ∈ xs → (key x = none ∧ .kept x ∈ r.1) ∨
        ∃ k, key x = some k ∧ k ∈ r.2.1)
  · intro seen x hMem
    cases hMem
  · intro x rest seen hKey ih y hMem
    rcases List.mem_cons.mp hMem with rfl | hThere
    · exact Or.inl ⟨hKey, List.mem_cons_self⟩
    · rcases ih y hThere with ⟨hNone, hKept⟩ | hSome
      · exact Or.inl ⟨hNone, List.mem_cons_of_mem _ hKept⟩
      · exact Or.inr hSome
  · intro x rest seen k hKey hSeen ih y hMem
    rcases List.mem_cons.mp hMem with rfl | hThere
    · exact Or.inr ⟨k, hKey, seen_subset_pass rest seen k hSeen⟩
    · exact ih y hThere
  · intro x rest seen k hKey _ ih y hMem
    rcases List.mem_cons.mp hMem with rfl | hThere
    · exact Or.inr ⟨k, hKey, seen_subset_pass rest (k :: seen) k List.mem_cons_self⟩
    · rcases ih y hThere with ⟨hNone, hKept⟩ | hSome
      · exact Or.inl ⟨hNone, List.mem_cons_of_mem _ hKept⟩
      · exact Or.inr hSome

/- What is left is an item, or the entry of one. -/
theorem part_of_pass (xs : List α) (seen : List κ) :
    ∀ part, part ∈ (pass key xs seen).1 → (∃ x, part = .kept x ∧ x ∈ xs ∧ key x = none) ∨
        ∃ k x, part = .put k ∧ x ∈ xs ∧ key x = some k := by
  apply pass_induction (P := fun xs _ r => ∀ part, part ∈ r.1 →
      (∃ x, part = .kept x ∧ x ∈ xs ∧ key x = none) ∨
        ∃ k x, part = .put k ∧ x ∈ xs ∧ key x = some k)
  · intro seen part hMem
    cases hMem
  · intro x rest seen hKey ih part hMem
    rcases List.mem_cons.mp hMem with rfl | hThere
    · exact Or.inl ⟨x, rfl, List.mem_cons_self, hKey⟩
    · rcases ih part hThere with ⟨y, hPart, hY, hNone⟩ | ⟨k, y, hPart, hY, hSome⟩
      · exact Or.inl ⟨y, hPart, List.mem_cons_of_mem x hY, hNone⟩
      · exact Or.inr ⟨k, y, hPart, List.mem_cons_of_mem x hY, hSome⟩
  · intro x rest seen j _ _ ih part hMem
    rcases ih part hMem with ⟨y, hPart, hY, hNone⟩ | ⟨k, y, hPart, hY, hSome⟩
    · exact Or.inl ⟨y, hPart, List.mem_cons_of_mem x hY, hNone⟩
    · exact Or.inr ⟨k, y, hPart, List.mem_cons_of_mem x hY, hSome⟩
  · intro x rest seen j hKey _ ih part hMem
    rcases List.mem_cons.mp hMem with rfl | hThere
    · exact Or.inr ⟨j, x, rfl, List.mem_cons_self, hKey⟩
    · rcases ih part hThere with ⟨y, hPart, hY, hNone⟩ | ⟨k, y, hPart, hY, hSome⟩
      · exact Or.inl ⟨y, hPart, List.mem_cons_of_mem x hY, hNone⟩
      · exact Or.inr ⟨k, y, hPart, List.mem_cons_of_mem x hY, hSome⟩

/- The items of a part, where an item comes to a list of others. -/
def Part.image {β : Type} (f : α → List β) (entry : κ → List β) : Part α κ → List β
  | .kept x => f x
  | .put k => entry k

variable {entry : κ → List α}

/- What was covered before a pass is covered behind it. -/
theorem Covered.pass {xs : List α} {seen : List κ} {x : α} (hCovered : Covered key xs seen x) :
    Covered key ((pass key xs seen).1.flatMap (Part.items entry)) (pass key xs seen).2.1 x := by
  rcases hCovered with hMem | ⟨k, hKey, hSeen⟩
  · rcases item_of_pass xs seen x hMem with ⟨_, hKept⟩ | ⟨k, hKey, hSeen⟩
    · exact Or.inl (List.mem_flatMap.mpr ⟨.kept x, hKept, List.mem_singleton_self x⟩)
    · exact Or.inr ⟨k, hKey, hSeen⟩
  · exact Or.inr ⟨k, hKey, seen_subset_pass xs seen k hSeen⟩

/- A pass loses nothing, and adds only what is reached. -/
theorem Covers.pass {start xs : List α} {seen : List κ}
    (hCovers : Covers key entry start xs seen) :
    Covers key entry start ((pass key xs seen).1.flatMap (Part.items entry))
      (pass key xs seen).2.1 := by
  refine ⟨?_, fun x hMem => (hCovers.start x hMem).pass, ?_⟩
  · intro y hMem
    rcases List.mem_flatMap.mp hMem with ⟨part, hPart, hY⟩
    rcases part_of_pass xs seen part hPart with ⟨x, rfl, hX, _⟩ | ⟨k, x, rfl, hX, hKey⟩
    · rw [List.mem_singleton.mp hY]
      exact hCovers.reached x hX
    · exact Reached.entry (hCovers.reached x hX) hKey hY
  · intro k hSeen x hMem
    rcases put_of_seen xs seen k hSeen with hOld | hPut
    · exact (hCovers.entries k hOld x hMem).pass
    · exact Or.inl (List.mem_flatMap.mpr ⟨.put k, hPut, hMem⟩)

end

end Wmail.Expansion
