import Mathlib.Algebra.Group.Nat.Defs
import Mathlib.Data.List.DropRight

/-
  Reads of a buffer by its indices, where a read outside of
  the buffer is an error.

  Key theorems include:
    * `Buffer.seekBack_eq`
    * `Buffer.seekBack_wraps`
-/

namespace Wmail

/- A buffer, whose size is a `size_t`. -/
structure Buffer (α : Type) where
  cells : List α
  sized : cells.length < 2 ^ 64

/- What may go wrong: a read at an index, or no end. -/
inductive Fault where
  | outside (index : Nat)
  | endless
deriving DecidableEq, Repr

/- The index before another one, as a `size_t`. -/
def predSize (k : Nat) : Nat :=
  if k = 0 then 2 ^ 64 - 1 else k - 1

namespace Buffer

variable {α : Type}

/- Read one cell. -/
def read (buf : Buffer α) (k : Nat) : Except Fault α :=
  match buf.cells[k]? with
  | some a => .ok a
  | none => .error (.outside k)

/- Read the cells from one index up to another one. -/
def readPart (buf : Buffer α) (i stop : Nat) : Except Fault (List α) :=
  if stop ≤ buf.cells.length then
    .ok ((buf.cells.take stop).drop i)
  else
    .error (.outside buf.cells.length)

/- The cells from one index up to another one. -/
abbrev part (buf : Buffer α) (i stop : Nat) : List α :=
  (buf.cells.take stop).drop i

variable {buf : Buffer α} {a : α}

theorem read_eq {k : Nat} (hAt : buf.cells[k]? = some a) : buf.read k = .ok a := by
  unfold read
  rw [hAt]

theorem readPart_eq {stop : Nat} (hStop : stop ≤ buf.cells.length) (i : Nat) :
    buf.readPart i stop = .ok (buf.part i stop) :=
  if_pos hStop

theorem length_part {stop : Nat} (hStop : stop ≤ buf.cells.length) (i : Nat) :
    (buf.part i stop).length = stop - i := by
  rw [List.length_drop, List.length_take, Nat.min_eq_left hStop]

theorem getElem?_part (buf : Buffer α) {i k stop : Nat} (hLess : i + k < stop) :
    (buf.part i stop)[k]? = buf.cells[i + k]? := by
  rw [List.getElem?_drop, List.getElem?_take_of_lt hLess]

variable {i stop : Nat}

theorem part_nil (buf : Buffer α) (hDone : stop ≤ i) : buf.part i stop = [] := by
  rw [List.drop_eq_nil_iff, List.length_take]
  omega

theorem part_cons (hLess : i < stop) (hAt : buf.cells[i]? = some a) :
    buf.part i stop = a :: buf.part (i + 1) stop := by
  rcases List.getElem?_eq_some_iff.mp hAt with ⟨hIn, hEq⟩
  have hTake : i < (buf.cells.take stop).length := by
    rw [List.length_take]
    omega
  rw [part, List.drop_eq_getElem_cons hTake, List.getElem_take, hEq]

theorem part_concat (hLess : i ≤ stop) (hAt : buf.cells[stop]? = some a) :
    buf.part i (stop + 1) = buf.part i stop ++ [a] := by
  rcases List.getElem?_eq_some_iff.mp hAt with ⟨hIn, hEq⟩
  rw [part, List.take_add_one, hAt, List.drop_append_of_le_length]
  · rfl
  · rw [List.length_take]
    omega

theorem take_part (buf : Buffer α) {i k stop : Nat} (hLess : i + k ≤ stop) :
    (buf.part i stop).take k = buf.part i (i + k) := by
  rw [part, List.take_drop, List.take_take, Nat.min_eq_left hLess]

theorem drop_part (buf : Buffer α) (i k stop : Nat) :
    (buf.part i stop).drop k = buf.part (i + k) stop :=
  List.drop_drop

/- Go forward over the cells with one value. -/
def skip [DecidableEq α] (buf : Buffer α) (a : α) (stop i : Nat) : Except Fault Nat :=
  if i < stop then do
    if (← buf.read i) = a then buf.skip a stop (i + 1) else pure i
  else
    pure i
termination_by stop - i

/-
  Go back to a cell that is `p`, with an index that may not
  get below `i`.  Zero has the largest index before it.
-/
def seekBack (buf : Buffer α) (p : α → Bool) (i k : Nat) : Except Fault Nat :=
  if i ≤ k then
    if hIn : k < buf.cells.length then
      if p buf.cells[k] then .ok k else buf.seekBack p i (predSize k)
    else
      .error (.outside k)
  else
    .ok k
termination_by if k < buf.cells.length then k + 1 else 0
decreasing_by
  have hSized := buf.sized
  rw [if_pos hIn, predSize]
  split <;> split <;> omega

theorem skip_eq [DecidableEq α] {stop : Nat} (hStop : stop ≤ buf.cells.length) (a : α) (i : Nat) :
    buf.skip a stop i = .ok (i + ((buf.part i stop).takeWhile (· = a)).length) := by
  induction hLeft : stop - i generalizing i with
  | zero =>
    rw [skip, if_neg (by omega), buf.part_nil (by omega)]
    rfl
  | succ left ih =>
    have hLess : i < stop := by omega
    have hIn : i < buf.cells.length := Nat.lt_of_lt_of_le hLess hStop
    have hAt := List.getElem?_eq_getElem hIn
    rw [skip, if_pos hLess, read_eq hAt, part_cons hLess hAt]
    change (if _ then _ else _) = _
    by_cases hSame : buf.cells[i] = a
    · rw [if_pos hSame, ih (i + 1) (by omega), List.takeWhile_cons_of_pos
          (p := fun b => decide (b = a)) (decide_eq_true hSame),
        List.length_cons]
      congr 1
      omega
    · rw [if_neg hSame, List.takeWhile_cons_of_neg (p := fun b => decide (b = a))
        (fun hEq => hSame (of_decide_eq_true hEq))]
      rfl

/- The cells without `p` that end a part. -/
abbrev tailRun (buf : Buffer α) (p : α → Bool) (i stop : Nat) : Nat :=
  ((buf.part i stop).rtakeWhile fun a => !p a).length

variable {p : α → Bool}

theorem tailRun_concat (hLess : i ≤ stop) (hAt : buf.cells[stop]? = some a) :
    buf.tailRun p i (stop + 1) = if p a then 0 else buf.tailRun p i stop + 1 := by
  rw [tailRun, part_concat hLess hAt]
  by_cases hFound : p a = true
  · rw [if_pos hFound, List.rtakeWhile_concat_neg]
    · rfl
    · rw [hFound]
      exact Bool.false_ne_true
  · rw [if_neg hFound, List.rtakeWhile_concat_pos, List.length_append]
    · rfl
    · rw [Bool.not_eq_true] at hFound
      rw [hFound]
      rfl

theorem tailRun_le {stop : Nat} (hStop : stop ≤ buf.cells.length) (p : α → Bool) (i : Nat) :
    buf.tailRun p i stop ≤ stop - i := by
  rw [← length_part hStop i]
  exact List.IsSuffix.length_le (List.rtakeWhile_suffix _ _)

theorem tailRun_other {i m : Nat} (hIn : i + m ≤ buf.cells.length) {k : Nat}
    (hFrom : i + m ≤ k + buf.tailRun p i (i + m)) (hTo : k < i + m) :
    ∃ a, buf.cells[k]? = some a ∧ p a = false := by
  induction m with
  | zero =>
    have hNone := buf.part_nil (Nat.le_of_eq (Nat.add_zero i))
    rw [tailRun, hNone] at hFrom
    change i + 0 ≤ k at hFrom
    omega
  | succ m ih =>
    have hLess : i + m < buf.cells.length := by omega
    have hAt := List.getElem?_eq_getElem hLess
    rw [← Nat.add_assoc, tailRun_concat (Nat.le_add_right i m) hAt] at hFrom
    cases hFound : p buf.cells[i + m] with
    | true =>
      rw [if_pos hFound] at hFrom
      omega
    | false =>
      rw [hFound, if_neg Bool.false_ne_true] at hFrom
      rcases Nat.lt_or_ge k (i + m) with hBefore | hLast
      · exact ih (by omega) (by omega) hBefore
      · have hSame : k = i + m := by omega
        subst hSame
        exact ⟨_, hAt, hFound⟩

theorem tailRun_stops {i m : Nat} (hIn : i + m ≤ buf.cells.length)
    (hShort : buf.tailRun p i (i + m) < m) :
    ∃ a, buf.cells[i + m - 1 - buf.tailRun p i (i + m)]? = some a ∧ p a = true := by
  induction m with
  | zero => cases hShort
  | succ m ih =>
    have hLess : i + m < buf.cells.length := by omega
    have hAt := List.getElem?_eq_getElem hLess
    have hRun := tailRun_concat (p := p) (Nat.le_add_right i m) hAt
    cases hFound : p buf.cells[i + m] with
    | true =>
      rw [hFound, if_pos rfl] at hRun
      rw [← Nat.add_assoc, hRun]
      exact ⟨_, hAt, hFound⟩
    | false =>
      rw [hFound, if_neg Bool.false_ne_true] at hRun
      rw [← Nat.add_assoc, hRun] at hShort
      rw [← Nat.add_assoc, hRun]
      have hBefore : i + m + 1 - 1 - (buf.tailRun p i (i + m) + 1) =
          i + m - 1 - buf.tailRun p i (i + m) := by
        omega
      rw [hBefore]
      exact ih (by omega) (Nat.lt_of_succ_lt_succ hShort)

/- One round that goes on. -/
theorem seekBack_pred {i k : Nat} (hLess : i ≤ k) (hAt : buf.cells[k]? = some a)
    (hOther : p a = false) : buf.seekBack p i k = buf.seekBack p i (predSize k) := by
  rcases List.getElem?_eq_some_iff.mp hAt with ⟨hIn, rfl⟩
  rw [seekBack, if_pos hLess, dif_pos hIn, if_neg (Bool.eq_false_iff.mp hOther)]

theorem seekBack_found {i k : Nat} (hLess : i ≤ k) (hAt : buf.cells[k]? = some a)
    (hFound : p a = true) : buf.seekBack p i k = .ok k := by
  rcases List.getElem?_eq_some_iff.mp hAt with ⟨hIn, rfl⟩
  rw [seekBack, if_pos hLess, dif_pos hIn, if_pos hFound]

theorem seekBack_eq {i m : Nat} (hIn : i + m ≤ buf.cells.length)
    (hEnds : 0 < i ∨ buf.tailRun p i (i + m) < m) :
    buf.seekBack p i (i + m - 1) = .ok (i + m - 1 - buf.tailRun p i (i + m)) := by
  induction m with
  | zero =>
    have hPos : 0 < i := by
      rcases hEnds with hPos | hLess
      · exact hPos
      · cases hLess
    rw [seekBack, if_neg (by omega), tailRun, buf.part_nil (Nat.le_of_eq (Nat.add_zero i))]
    rfl
  | succ m ih =>
    have hLess : i + m < buf.cells.length := by omega
    have hAt := List.getElem?_eq_getElem hLess
    have hRun := tailRun_concat (p := p) (Nat.le_add_right i m) hAt
    change buf.seekBack p i (i + m) = .ok (i + m - buf.tailRun p i (i + m + 1))
    cases hFound : p buf.cells[i + m] with
    | true =>
      rw [seekBack_found (Nat.le_add_right i m) hAt hFound, hRun, if_pos hFound]
      rfl
    | false =>
      rw [hFound] at hRun
      have hRest : 0 < i ∨ buf.tailRun p i (i + m) < m := by
        rcases hEnds with hPos | hShort
        · exact Or.inl hPos
        · right
          rw [← Nat.add_assoc, hRun] at hShort
          exact Nat.lt_of_succ_lt_succ hShort
      have hSome : i + m ≠ 0 := by
        rcases hRest with hPos | hShort <;> omega
      rw [seekBack_pred (Nat.le_add_right i m) hAt hFound,
        predSize, if_neg hSome, ih (by omega) hRest, hRun]
      congr 1
      rw [if_neg Bool.false_ne_true]
      omega

/-
  A search that finds nothing and may go down to zero leaves
  the buffer.
-/
theorem seekBack_wraps {k : Nat} (hIn : k < buf.cells.length)
    (hNone : ∀ a, a ∈ buf.cells.take (k + 1) → p a = false) :
    buf.seekBack p 0 k = .error (.outside (2 ^ 64 - 1)) := by
  have hAt := List.getElem?_eq_getElem hIn
  have hOther : p buf.cells[k] = false := by
    apply hNone
    rw [List.take_add_one, hAt]
    exact List.mem_append_right _ (List.mem_singleton_self _)
  rw [seekBack_pred (Nat.zero_le k) hAt hOther]
  induction k with
  | zero =>
    have hSized := buf.sized
    have hOut : ¬ predSize 0 < buf.cells.length := by
      rw [predSize, if_pos rfl]
      omega
    rw [seekBack, if_pos (Nat.zero_le _), dif_neg hOut]
    rfl
  | succ k ih =>
    have hLess : k < buf.cells.length := Nat.lt_of_succ_lt hIn
    have hBefore := List.getElem?_eq_getElem hLess
    have hKept : ∀ a, a ∈ buf.cells.take (k + 1) → p a = false := by
      intro a hMem
      exact hNone a (List.take_subset_take_left _ (Nat.le_succ (k + 1)) hMem)
    have hLast : p buf.cells[k] = false := by
      apply hKept
      rw [List.take_add_one, hBefore]
      exact List.mem_append_right _ (List.mem_singleton_self _)
    change buf.seekBack p 0 k = _
    rw [seekBack_pred (Nat.zero_le k) hBefore hLast]
    exact ih hLess hKept hBefore hLast

end Buffer

end Wmail
