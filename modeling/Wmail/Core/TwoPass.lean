import Mathlib.Data.List.Basic

/-
  Programs that go over one input twice: the first run only
  counts, and the second writes into the array that was
  allocated for the count.  One body serves both runs; in the
  first its array is null.

  Key theorems include:
    * `Fills.fill`
    * `Fills.isSome_iff`
-/

namespace Wmail.TwoPass

variable {α : Type}

/- Change the entry at `i`, which has to be in the array. -/
def store (array : List α) (i : Nat) (f : α → α) : Option (List α) :=
  if i < array.length then some (array.modify i f) else none

theorem store_append (before after : List α) (a : α) (f : α → α) :
    store (before ++ a :: after) before.length f = some (before ++ f a :: after) := by
  have hInside : before.length < (before ++ a :: after).length := by
    rw [List.length_append, List.length_cons]
    omega
  have hModify : (before ++ a :: after).modify before.length f = before ++ f a :: after := by
    induction before with
    | nil => rfl
    | cons b before ih =>
      have hRest : before.length < (before ++ a :: after).length := by
        rw [List.length_append, List.length_cons]
        omega
      rw [List.cons_append, List.length_cons, List.modify_succ_cons, ih hRest]
      rfl
  unfold store
  rw [if_pos hInside, hModify]

/- An array, and the place that is written next. -/
structure Slots (α : Type) where
  array : List α
  place : Nat

namespace Slots

/- Write at the place, unless the array is null. -/
def touch (f : α → α) : Option (Slots α) → Option (Option (Slots α))
  | none => some none
  | some slots =>
    (store slots.array slots.place f).map fun array => some { slots with array := array }

/- Write at the place and go on to the next one. -/
def write (f : α → α) (slots : Option (Slots α)) : Option (Option (Slots α)) :=
  (touch f slots).map fun slots => slots.map fun s => { s with place := s.place + 1 }

/- A run of writes. -/
def writes : List (α → α) → Option (Slots α) → Option (Option (Slots α))
  | [], slots => some slots
  | f :: fs, slots => (write f slots).bind (writes fs)

theorem write_null (f : α → α) : write f (none : Option (Slots α)) = some none :=
  rfl

theorem writes_null (fs : List (α → α)) : writes fs (none : Option (Slots α)) = some none := by
  induction fs with
  | nil => rfl
  | cons f fs ih => exact ih

/- An array stays one. -/
theorem write_array (f : α → α) (slots : Slots α) :
    write f (some slots) = none ∨ ∃ next, write f (some slots) = some (some next) := by
  simp only [write, touch]
  cases store slots.array slots.place f with
  | none => exact Or.inl rfl
  | some array => exact Or.inr ⟨⟨array, slots.place + 1⟩, rfl⟩

theorem write_some (before after : List α) (a : α) (f : α → α) :
    write f (some ⟨before ++ a :: after, before.length⟩) =
      some (some ⟨before ++ f a :: after, before.length + 1⟩) := by
  simp only [write, touch, store_append, Option.map_some]

/- The array has room for every write. -/
theorem writes_some (fs : List (α → α)) (before room after : List α)
    (hRoom : room.length = fs.length) :
    writes fs (some ⟨before ++ room ++ after, before.length⟩) = some (some
        ⟨before ++ List.zipWith (fun f a => f a) fs room ++ after, before.length + fs.length⟩) := by
  induction fs generalizing before room with
  | nil =>
    have hNil := List.eq_nil_of_length_eq_zero hRoom
    subst hNil
    rfl
  | cons f fs ih =>
    cases room with
    | nil => cases hRoom
    | cons a room =>
      rw [List.length_cons, List.length_cons, Nat.add_right_cancel_iff] at hRoom
      have hRest := ih (before ++ [f a]) room hRoom
      rw [List.append_assoc, List.cons_append, writes, write_some, Option.bind_some]
      simp only [List.append_assoc, List.length_append,
        List.singleton_append, List.length_singleton]
        at hRest
      rw [List.cons_append] at hRest
      rw [hRest, List.zipWith_cons_cons, List.length_cons]
      simp only [List.append_assoc, List.cons_append, Nat.add_assoc, Nat.add_comm 1]

theorem zipWith_items (items room : List α) (hRoom : room.length = items.length) :
    List.zipWith (fun f a => f a) (items.map fun a (_ : α) => a) room = items := by
  induction items generalizing room with
  | nil => rfl
  | cons a items ih =>
    cases room with
    | nil => cases hRoom
    | cons b room => rw [List.map_cons, List.zipWith_cons_cons, ih room (Nat.succ.inj hRoom)]

/- The array has no room for the last write. -/
theorem writes_short (fs : List (α → α)) (slots : Slots α)
    (hPlace : slots.place ≤ slots.array.length)
    (hShort : slots.array.length < slots.place + fs.length) : writes fs (some slots) = none := by
  induction fs generalizing slots with
  | nil =>
    simp only [List.length_nil] at hShort
    omega
  | cons f fs ih =>
    rw [List.length_cons] at hShort
    simp only [writes, write, touch, store]
    split
    · simp only [Option.map_some, Option.bind_some]
      apply ih
      · simp only [List.length_modify]
        omega
      · simp only [List.length_modify]
        omega
    · rfl

/- The writes of items that do not depend on the array. -/
theorem writes_items (items array : List α) :
    writes (items.map fun a (_ : α) => a) (some ⟨array, 0⟩) =
      if items.length ≤ array.length then
        some (some ⟨items ++ array.drop items.length, items.length⟩)
      else
        none := by
  have hLength : (items.map fun a (_ : α) => a).length = items.length := List.length_map _
  split
  · rename_i hRoom
    have hTake : (array.take items.length).length = items.length := by
      rw [List.length_take]
      exact Nat.min_eq_left hRoom
    have hWrites := writes_some (items.map fun a (_ : α) => a) []
      (array.take items.length) (array.drop items.length)
      (hTake.trans hLength.symm)
    rw [List.nil_append, List.take_append_drop, zipWith_items items _ hTake, hLength] at hWrites
    simpa using hWrites
  · rename_i hShort
    apply writes_short _ _ (Nat.zero_le _)
    rw [hLength]
    simpa using hShort

end Slots

/-
  A pass that counts the items and, when there is an array,
  writes them.  What a write makes of an entry that holds
  `zero` is the item.
-/
def Fills
    (pass : Option (Slots α) → Nat →
      Option (Option (List α) × Nat)) (zero : α) (items : List α) : Prop :=
  ∃ fs : List (α → α), fs.map (fun f => f zero) = items ∧
    ∀ slots n, pass slots n = (Slots.writes fs slots).map fun slots =>
        (slots.map Slots.array, n + fs.length)

namespace Fills

variable {zero : α} {items : List α}
  {pass : Option (Slots α) → Nat → Option (Option (List α) × Nat)}

theorem done : Fills (fun slots n => some (slots.map Slots.array, n)) zero [] :=
  ⟨[], rfl, fun _ _ => rfl⟩

theorem ite {c : Prop} [Decidable c]
    {other : Option (Slots α) → Nat →
      Option (Option (List α) × Nat)} {rest : List α} (hThen : c → Fills pass zero items)
    (hElse : ¬ c → Fills other zero rest) :
    Fills (fun slots n => if c then pass slots n else other slots n)
      zero (if c then items else rest) := by
  by_cases hC : c
  · simp only [if_pos hC]
    exact hThen hC
  · simp only [if_neg hC]
    exact hElse hC

/- One more item before the others. -/
theorem write (f : α → α) (hPass : Fills pass zero items) : Fills (fun slots n =>
        (Slots.write f slots).bind fun slots => pass slots (n + 1))
      zero (f zero :: items) := by
  rcases hPass with ⟨fs, hItems, hRun⟩
  refine ⟨f :: fs, by rw [List.map_cons, hItems], ?_⟩
  intro slots n
  simp only [Slots.writes, hRun, List.length_cons]
  cases Slots.write f slots with
  | none => rfl
  | some slots => simp only [Option.bind_some, Nat.add_assoc, Nat.add_comm 1]

/- The last item, after which the place is not moved on. -/
theorem last (f : α → α) : Fills (fun slots n =>
        (Slots.touch f slots).map fun slots => (slots.map Slots.array, n + 1))
      zero [f zero] := by
  refine ⟨[f], rfl, ?_⟩
  intro slots n
  simp only [Slots.writes, Slots.write, List.length_singleton]
  cases Slots.touch f slots with
  | none => rfl
  | some slots =>
    cases slots with
    | none => rfl
    | some slots => rfl

/- The first run counts the items. -/
theorem count (hPass : Fills pass zero items) (n : Nat) :
    pass none n = some (none, n + items.length) := by
  rcases hPass with ⟨fs, hItems, hRun⟩
  rw [hRun, Slots.writes_null, ← hItems, List.length_map]
  rfl

/- The second run writes them, and nothing after them. -/
theorem fill (hPass : Fills pass zero items) (after : List α) (n : Nat) :
    pass (some ⟨List.replicate items.length zero ++ after, 0⟩) n =
      some (some (items ++ after), n + items.length) := by
  rcases hPass with ⟨fs, hItems, hRun⟩
  have hLength : items.length = fs.length := by rw [← hItems, List.length_map]
  have hZip : List.zipWith (fun f a => f a) fs (List.replicate fs.length zero) = items := by
    rw [← hItems]
    clear hItems hRun hLength
    induction fs with
    | nil => rfl
    | cons f fs ih =>
      rw [List.length_cons, List.replicate_succ, List.zipWith_cons_cons, ih, List.map_cons]
  have hWrites := Slots.writes_some fs [] (List.replicate fs.length zero) after
    List.length_replicate
  rw [List.nil_append, hZip] at hWrites
  rw [hRun, hLength]
  exact congrArg _ hWrites

/- It writes past the end of an array that is shorter. -/
theorem isSome_iff (hPass : Fills pass zero items) (array : List α) (n : Nat) :
    (pass (some ⟨array, 0⟩) n).isSome ↔ items.length ≤ array.length := by
  rcases hPass with ⟨fs, hItems, hRun⟩
  rw [hRun, ← hItems, List.length_map, Option.isSome_map]
  constructor
  · intro hSome
    by_contra hShort
    rw [Slots.writes_short fs ⟨array, 0⟩ (Nat.zero_le _) (by simpa using hShort)] at hSome
    cases hSome
  · intro hRoom
    have hWrites := Slots.writes_some fs [] (array.take fs.length) (array.drop fs.length)
      (by rw [List.length_take]; exact Nat.min_eq_left hRoom)
    rw [List.nil_append, List.take_append_drop] at hWrites
    exact Option.isSome_of_eq_some hWrites

end Fills

end Wmail.TwoPass
