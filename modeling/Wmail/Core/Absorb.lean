import Mathlib.Data.List.Basic

/-
  A text that is taken in by blocks of one size.

  The whole blocks of a text come first, and what is left is
  shorter than a block.  Text that arrives in pieces has the
  same blocks: what was left goes in front of the next piece.

  Key theorems include:
    * `lastPart_append`
    * `wholeBlocks_flatten`
-/

namespace Wmail

section Absorb

variable {α : Type} {size : Nat}

def wholeBlocks (size : Nat) (text : List α) : List (List α) :=
  if _hBlock : 0 < size ∧ size ≤ text.length then
    text.take size :: wholeBlocks size (text.drop size)
  else
    []
termination_by text.length
decreasing_by
  rw [List.length_drop]
  omega

def lastPart (size : Nat) (text : List α) : List α :=
  if _hBlock : 0 < size ∧ size ≤ text.length then lastPart size (text.drop size) else text
termination_by text.length
decreasing_by
  rw [List.length_drop]
  omega

variable {text : List α}

/- A text that is shorter than a block waits. -/
theorem wholeBlocks_short (hShort : text.length < size) : wholeBlocks size text = [] := by
  rw [wholeBlocks, dif_neg]
  omega

theorem lastPart_short (hShort : text.length < size) : lastPart size text = text := by
  rw [lastPart, dif_neg]
  omega

/- A block in front of a text is taken off. -/
theorem wholeBlocks_block {block : List α} (hSize : 0 < size) (hBlock : block.length = size)
    (rest : List α) : wholeBlocks size (block ++ rest) = block :: wholeBlocks size rest := by
  have hLength : size ≤ (block ++ rest).length := by
    rw [List.length_append, hBlock]
    exact Nat.le_add_right size rest.length
  rw [wholeBlocks, dif_pos ⟨hSize, hLength⟩, List.take_left' hBlock, List.drop_left' hBlock]

theorem lastPart_block {block : List α} (hSize : 0 < size) (hBlock : block.length = size)
    (rest : List α) : lastPart size (block ++ rest) = lastPart size rest := by
  have hLength : size ≤ (block ++ rest).length := by
    rw [List.length_append, hBlock]
    exact Nat.le_add_right size rest.length
  rw [lastPart, dif_pos ⟨hSize, hLength⟩, List.drop_left' hBlock]

/- A text begins with a block, or is shorter than one. -/
theorem blocks_induction {motive : List α → Prop} (hSize : 0 < size)
    (short : ∀ text : List α, text.length < size → motive text)
    (block : ∀ block rest : List α,
      block.length = size → motive rest → motive (block ++ rest)) (text : List α) :
    motive text := by
  rcases Nat.lt_or_ge text.length size with hShort | hLong
  · exact short text hShort
  · have hRest := blocks_induction hSize short block (text.drop size)
    have hFront : (text.take size).length = size := List.length_take_of_le hLong
    have hStep := block _ _ hFront hRest
    rw [List.take_append_drop] at hStep
    exact hStep
termination_by text.length
decreasing_by
  rw [List.length_drop]
  omega

/- Nothing is lost or added. -/
theorem flatten_wholeBlocks (hSize : 0 < size) (text : List α) :
    (wholeBlocks size text).flatten ++ lastPart size text = text := by
  induction text using blocks_induction hSize with
  | short text hShort =>
    rw [wholeBlocks_short hShort, lastPart_short hShort]
    rfl
  | block block rest hBlock ih =>
    rw [wholeBlocks_block hSize hBlock, lastPart_block hSize hBlock, List.flatten_cons,
      List.append_assoc, ih]

theorem length_of_mem_wholeBlocks (hSize : 0 < size) (text : List α) :
    ∀ block ∈ wholeBlocks size text, block.length = size := by
  induction text using blocks_induction hSize with
  | short text hShort =>
    rw [wholeBlocks_short hShort]
    exact fun _ hMem => absurd hMem List.not_mem_nil
  | block block rest hBlock ih =>
    rw [wholeBlocks_block hSize hBlock, List.forall_mem_cons]
    exact ⟨hBlock, ih⟩

theorem length_lastPart (hSize : 0 < size) (text : List α) :
    (lastPart size text).length = text.length % size := by
  induction text using blocks_induction hSize with
  | short text hShort => rw [lastPart_short hShort, Nat.mod_eq_of_lt hShort]
  | block block rest hBlock ih =>
    rw [lastPart_block hSize hBlock, ih, List.length_append, hBlock, Nat.add_mod_left]

theorem length_lastPart_lt (hSize : 0 < size) (text : List α) :
    (lastPart size text).length < size := by
  rw [length_lastPart hSize]
  exact Nat.mod_lt _ hSize

/- What was left goes in front of the next piece. -/
theorem wholeBlocks_append (hSize : 0 < size) (text more : List α) :
    wholeBlocks size (text ++ more) = wholeBlocks size text ++
        wholeBlocks size (lastPart size text ++ more) := by
  induction text using blocks_induction hSize with
  | short text hShort =>
    rw [wholeBlocks_short hShort, lastPart_short hShort]
    rfl
  | block block rest hBlock ih =>
    rw [List.append_assoc, wholeBlocks_block hSize hBlock, ih, wholeBlocks_block hSize hBlock,
      lastPart_block hSize hBlock]
    rfl

theorem lastPart_append (hSize : 0 < size) (text more : List α) :
    lastPart size (text ++ more) = lastPart size (lastPart size text ++ more) := by
  induction text using blocks_induction hSize with
  | short text hShort => rw [lastPart_short hShort]
  | block block rest hBlock ih =>
    rw [List.append_assoc, lastPart_block hSize hBlock, ih, lastPart_block hSize hBlock]

theorem lastPart_eq_nil (hSize : 0 < size) (hWhole : text.length % size = 0) :
    lastPart size text = [] := by
  apply List.length_eq_zero_iff.mp
  rw [length_lastPart hSize, hWhole]

theorem wholeBlocks_flatten (hSize : 0 < size) (hWhole : text.length % size = 0) :
    (wholeBlocks size text).flatten = text := by
  have hAll := flatten_wholeBlocks hSize text
  rw [lastPart_eq_nil hSize hWhole, List.append_nil] at hAll
  exact hAll

end Absorb

end Wmail
