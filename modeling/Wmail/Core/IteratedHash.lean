import Wmail.Core.Absorb

/-
  Hash functions that take a message in block by block.

  A message is padded to whole blocks, and the padding depends
  on its length only.  The blocks go through a compression
  function, from a fixed state on.

  Key theorems include:
    * `IteratedHash.run_append`
    * `IteratedHash.hash_block`
-/

namespace Wmail

structure IteratedHash (α : Type) where
  State : Type
  size : Nat
  size_pos : 0 < size
  iv : State
  compress : State → List α → State
  padding : Nat → List α
  padding_whole : ∀ l, (l + (padding l).length) % size = 0
  digest : State → List α

namespace IteratedHash

variable {α : Type} (H : IteratedHash α)

/- The state after the whole blocks of a text. -/
def run (s : H.State) (text : List α) : H.State :=
  (wholeBlocks H.size text).foldl H.compress s

def hash (message : List α) : List α :=
  H.digest (H.run H.iv (message ++ H.padding message.length))

@[simp] theorem run_nil (s : H.State) : H.run s [] = s := by
  unfold run
  rw [wholeBlocks_short H.size_pos]
  rfl

/- A text that arrives in pieces has the same blocks. -/
theorem run_append (s : H.State) (text more : List α) :
    H.run s (text ++ more) = H.run (H.run s text) (lastPart H.size text ++ more) := by
  unfold run
  rw [wholeBlocks_append H.size_pos, List.foldl_append]

theorem run_block {block : List α} (hBlock : block.length = H.size) (s : H.State)
    (rest : List α) : H.run s (block ++ rest) = H.run (H.compress s block) rest := by
  unfold run
  rw [wholeBlocks_block H.size_pos hBlock, List.foldl_cons]

/- A first block may be taken in beforehand. -/
theorem hash_block {block : List α} (hBlock : block.length = H.size) (message : List α) :
    H.hash (block ++ message) = H.digest (H.run (H.compress H.iv block)
        (message ++ H.padding (message.length + H.size))) := by
  unfold hash
  rw [List.append_assoc, H.run_block hBlock, List.length_append, hBlock, Nat.add_comm]

/- A padded message leaves nothing over. -/
theorem wholeBlocks_padded (message : List α) : (wholeBlocks H.size
      (message ++ H.padding message.length)).flatten = message ++ H.padding message.length := by
  apply wholeBlocks_flatten H.size_pos
  rw [List.length_append]
  exact H.padding_whole message.length

end IteratedHash

end Wmail
