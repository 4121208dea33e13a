import Mathlib.Data.List.Basic

/-
  Blocks of memory that are allocated, read and freed.

  Key theorems include:
    * `Blocks.read_alloc_of_some`
    * `Blocks.read_free_of_ne`
-/

namespace Wmail

/-
  The blocks that were allocated, in order.  A freed block
  keeps its place, so that no pointer is used twice.
-/
abbrev Blocks (α : Type) :=
  List (Option (List α))

namespace Blocks

variable {α : Type} (heap : Blocks α)

/- The pointer that `alloc` returns. -/
def fresh : Nat :=
  heap.length

def alloc (block : List α) : Blocks α :=
  heap ++ [some block]

def free (p : Nat) : Blocks α :=
  heap.set p none

/-
  The first `n` elements of the block at `p`; none when `p`
  is null, the block was freed or is too short.
-/
def read (p : Option Nat) (n : Nat) : Option (List α) :=
  match p with
  | none => none
  | some p =>
    match heap[p]? with
    | some (some block) =>
      if n ≤ block.length then some (block.take n) else none
    | _ => none

variable {heap}

theorem read_alloc (block : List α) : (heap.alloc block).read (some heap.fresh) block.length =
      some block := by
  unfold read alloc fresh
  simp

/- A block that can be read was allocated before. -/
theorem lt_of_read {p n : Nat} {block : List α}
    (hRead : heap.read (some p) n = some block) : p < heap.fresh := by
  unfold read at hRead
  unfold fresh
  by_contra hOut
  have hNone : heap[p]? = none := List.getElem?_eq_none (Nat.le_of_not_lt hOut)
  simp [hNone] at hRead

/- Allocating keeps what can be read. -/
theorem read_alloc_of_some {p n : Nat} {block : List α}
    (hRead : heap.read (some p) n = some block) (other : List α) :
    (heap.alloc other).read (some p) n = some block := by
  have hLt := lt_of_read hRead
  unfold read at hRead ⊢
  unfold alloc
  simp only [List.getElem?_append_left hLt]
  exact hRead

/- Freeing keeps the other blocks. -/
theorem read_free_of_ne {p q : Nat} (hNe : q ≠ p) (n : Nat) :
    (heap.free q).read (some p) n = heap.read (some p) n := by
  unfold read free
  simp only [List.getElem?_set_ne hNe]

end Blocks

end Wmail
