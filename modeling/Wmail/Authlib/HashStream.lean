import Wmail.Authlib.Hmac
import Wmail.Core.Absorb

/-
  The blocks that a hash function hands to its compression
  function (md5/md5.c, sha1/sha1.c).

  Key theorems include:
    * `recordedRun_context`
    * `calls_padded`
-/

namespace Wmail.Authlib

variable {n : Nat} (compress : Compress n)

/-
  What `md5_context_hash` or `sha1_context_hash` is called
  with during one call of `hashstream`, in order.
-/
def hashstreamCalls (c : BlockContext n) (p : List Byte) : List (List Byte) :=
  if _hEnd : p = [] then
    []
  else if c.blk = [] ∧ blockSize ≤ p.length then
    p.take blockSize :: hashstreamCalls (.fresh (compress c.words (p.take blockSize)))
        (p.drop blockSize)
  else
    let ll := min p.length (blockSize - c.blk.length)
    if hFull : blockSize ≤ (c.blk ++ p.take ll).length then
      (c.blk ++ p.take ll) ::
        hashstreamCalls (.fresh (compress c.words (c.blk ++ p.take ll))) (p.drop ll)
    else
      hashstreamCalls ⟨c.words, c.blk ++ p.take ll, Nat.lt_of_not_le hFull⟩ (p.drop ll)
termination_by p.length
decreasing_by
  all_goals
    have hSome := List.length_pos_iff.mpr _hEnd
    have hRoom := c.blk_lt
    rw [List.length_drop]
    unfold blockSize at *
    omega

theorem blockSize_pos : 0 < blockSize := by
  decide

/- The buffer is filled up to a block. -/
theorem length_filled {blk p : List Byte} (hRoom : blk.length < blockSize)
    (hFull : blockSize ≤ (blk ++ p.take (min p.length (blockSize - blk.length))).length) :
    (blk ++ p.take (min p.length (blockSize - blk.length))).length = blockSize := by
  rw [List.length_append, List.length_take] at hFull ⊢
  omega

/- The text that waited, and what is copied behind it. -/
theorem filled_split (blk p : List Byte) (ll : Nat) :
    blk ++ p = (blk ++ p.take ll) ++ p.drop ll := by
  rw [List.append_assoc, List.take_append_drop]

/- The blocks go through the compression function in order. -/
theorem hashstream_words (c : BlockContext n) (p : List Byte) : (hashstream compress c p).words =
      (wholeBlocks blockSize (c.blk ++ p)).foldl compress
        c.words := by
  fun_induction hashstream compress c p with
  | case1 c =>
    rw [List.append_nil, wholeBlocks_short c.blk_lt]
    rfl
  | case2 c p hEnd hDirect ih =>
    have hBlock : (p.take blockSize).length = blockSize := List.length_take_of_le hDirect.2
    rw [ih, hDirect.1, filled_split [] p blockSize, List.nil_append,
      wholeBlocks_block blockSize_pos hBlock]
    rfl
  | case3 c p hEnd hDirect ll hFull ih =>
    have hBlock := length_filled c.blk_lt hFull
    rw [ih, filled_split c.blk p ll, wholeBlocks_block blockSize_pos hBlock]
    rfl
  | case4 c p hEnd hDirect ll hFull ih => rw [ih, filled_split c.blk p ll]

theorem hashstream_blk (c : BlockContext n) (p : List Byte) : (hashstream compress c p).blk =
      lastPart blockSize (c.blk ++ p) := by
  fun_induction hashstream compress c p with
  | case1 c => rw [List.append_nil, lastPart_short c.blk_lt]
  | case2 c p hEnd hDirect ih =>
    have hBlock : (p.take blockSize).length = blockSize := List.length_take_of_le hDirect.2
    rw [ih, hDirect.1, filled_split [] p blockSize, List.nil_append,
      lastPart_block blockSize_pos hBlock]
    rfl
  | case3 c p hEnd hDirect ll hFull ih =>
    have hBlock := length_filled c.blk_lt hFull
    rw [ih, filled_split c.blk p ll, lastPart_block blockSize_pos hBlock]
    rfl
  | case4 c p hEnd hDirect ll hFull ih => rw [ih, filled_split c.blk p ll]

/- Each whole block is handed over once. -/
theorem hashstreamCalls_eq (c : BlockContext n) (p : List Byte) :
    hashstreamCalls compress c p = wholeBlocks blockSize (c.blk ++ p) := by
  fun_induction hashstreamCalls compress c p with
  | case1 c => rw [List.append_nil, wholeBlocks_short c.blk_lt]
  | case2 c p hEnd hDirect ih =>
    have hBlock : (p.take blockSize).length = blockSize := List.length_take_of_le hDirect.2
    rw [ih, hDirect.1, filled_split [] p blockSize, List.nil_append,
      wholeBlocks_block blockSize_pos hBlock]
    rfl
  | case3 c p hEnd hDirect ll hFull ih =>
    have hBlock := length_filled c.blk_lt hFull
    rw [ih, filled_split c.blk p ll, wholeBlocks_block blockSize_pos hBlock]
    rfl
  | case4 c p hEnd hDirect ll hFull ih => rw [ih, filled_split c.blk p ll]

/- A context, and the blocks that were handed over so far. -/
structure Recorded (n : Nat) where
  context : BlockContext n
  calls : List (List Byte)

/- One call of `hashstream`. -/
def Recorded.feed (s : Recorded n) (p : List Byte) : Recorded n where
  context := hashstream compress s.context p
  calls := s.calls ++ hashstreamCalls compress s.context p

/- The calls that `padstream` makes. -/
def Recorded.pad (s : Recorded n) : Recorded n :=
  let s := s.feed compress [0x80]
  let s :=
    if blockSize - 8 < s.context.blk.length then
      s.feed compress (zero (blockSize - s.context.blk.length))
    else
      s
  s.feed compress (zero (blockSize - 8 - s.context.blk.length))

/- A fresh context, some pieces, the padding and the length. -/
def recordedRun (words : Vector UInt32 n) (pieces : List (List Byte)) (length : List Byte) :
    Recorded n :=
  ((pieces.foldl (Recorded.feed compress)
    ⟨.fresh words, []⟩).pad compress).feed compress length

/-
  All that was fed since the words were those of the start is
  in the blocks, or waits for its block.
-/
structure Recorded.Holds (start : Vector UInt32 n) (s : Recorded n) (text : List Byte) : Prop where
  calls : s.calls = wholeBlocks blockSize text
  words : s.context.words = (wholeBlocks blockSize text).foldl compress start
  blk : s.context.blk = lastPart blockSize text

theorem Recorded.pad_context (s : Recorded n) :
    (s.pad compress).context = padstream compress s.context := by
  unfold Recorded.pad padstream
  by_cases hRoom : blockSize - 8 < (s.feed compress [0x80]).context.blk.length
  · have hSame : blockSize - 8 < (hashstream compress s.context [0x80]).blk.length := hRoom
    simp only [if_pos hRoom, if_pos hSame]
    rfl
  · have hSame : ¬ blockSize - 8 < (hashstream compress s.context [0x80]).blk.length := hRoom
    simp only [if_neg hRoom, if_neg hSame]
    rfl

theorem foldl_feed_context (pieces : List (List Byte)) (s : Recorded n) :
    (pieces.foldl (Recorded.feed compress) s).context =
      pieces.foldl (hashstream compress) s.context := by
  induction pieces generalizing s with
  | nil => rfl
  | cons p pieces ih =>
    rw [List.foldl_cons, List.foldl_cons, ih]
    rfl

/- A recorded run does what the run does. -/
theorem recordedRun_context (words : Vector UInt32 n) (pieces : List (List Byte))
    (length : List Byte) :
    (recordedRun compress words pieces length).context =
      hashstream compress (padstream compress (pieces.foldl (hashstream compress) (.fresh words)))
        length := by
  rw [← foldl_feed_context compress pieces ⟨.fresh words, []⟩, ← Recorded.pad_context]
  rfl

/- A run may start with any context. -/
theorem Recorded.Holds.start (c : BlockContext n) :
    Recorded.Holds compress c.words ⟨c, []⟩ c.blk where
  calls := (wholeBlocks_short c.blk_lt).symm
  words := by
    rw [wholeBlocks_short c.blk_lt]
    rfl
  blk := (lastPart_short c.blk_lt).symm

theorem Recorded.Holds.fresh (words : Vector UInt32 n) :
    Recorded.Holds compress words ⟨.fresh words, []⟩ [] :=
  .start compress (.fresh words)

variable {compress} {start : Vector UInt32 n}

variable {s : Recorded n} {text : List Byte}

theorem Recorded.Holds.feed (hHolds : Recorded.Holds compress start s text)
    (p : List Byte) : Recorded.Holds compress start (s.feed compress p) (text ++ p) where
  calls := by
    rw [Recorded.feed, hashstreamCalls_eq, hHolds.calls,
      hHolds.blk, wholeBlocks_append blockSize_pos text p]
  words := by
    rw [Recorded.feed, hashstream_words, hHolds.words, hHolds.blk,
      wholeBlocks_append blockSize_pos text p, List.foldl_append]
  blk := by
    rw [Recorded.feed, hashstream_blk, hHolds.blk, lastPart_append blockSize_pos text p]

theorem Recorded.Holds.foldl_feed (hHolds : Recorded.Holds compress start s text)
    (pieces : List (List Byte)) :
    Recorded.Holds compress start (pieces.foldl (Recorded.feed compress) s)
      (text ++ pieces.flatten) := by
  induction pieces generalizing s text with
  | nil =>
    rw [List.flatten_nil, List.append_nil]
    exact hHolds
  | cons p pieces ih =>
    rw [List.foldl_cons, List.flatten_cons, ← List.append_assoc]
    exact ih (hHolds.feed p)

theorem Recorded.Holds.length_blk (hHolds : Recorded.Holds compress start s text) :
    s.context.blk.length = text.length % blockSize := by
  rw [hHolds.blk, length_lastPart blockSize_pos]

/-
  The zeros behind the first byte of the padding: the last
  block keeps room for a length of eight bytes.
-/
def padZeros (length : Nat) : Nat :=
  (119 - length % 64) % 64

theorem zero_append_zero (a b : Nat) : zero a ++ zero b = zero (a + b) :=
  List.replicate_append_replicate

/- A number of zeros that is known from the text. -/
theorem Recorded.Holds.feed_zero (hHolds : Recorded.Holds compress start s text)
    {count k : Nat} (hCount : count = k) :
    Recorded.Holds compress start (s.feed compress (zero count)) (text ++ zero k) := by
  rw [hCount]
  exact hHolds.feed (zero k)

/- The block has room for the length, or the next one has. -/
theorem Recorded.Holds.pad (hHolds : Recorded.Holds compress start s text) :
    Recorded.Holds compress start (s.pad compress)
      (text ++ [0x80] ++ zero (padZeros text.length)) := by
  have hFirst := hHolds.feed [0x80]
  have hLength := hFirst.length_blk
  rw [List.length_append, List.length_singleton] at hLength
  unfold Recorded.pad
  by_cases hRoom : blockSize - 8 < (s.feed compress [0x80]).context.blk.length
  · simp only [if_pos hRoom]
    rw [hLength] at hRoom
    have hBlock := hFirst.feed_zero (congrArg (blockSize - ·) hLength)
    have hNext := hBlock.length_blk
    have hNone : (text ++ [0x80] ++ zero (blockSize -
        (text.length + 1) % blockSize)).length % blockSize = 0 := by
      rw [List.length_append, List.length_append,
        List.length_singleton, zero, List.length_replicate]
      unfold blockSize
      omega
    rw [hNone] at hNext
    have hLast := hBlock.feed_zero (congrArg (blockSize - 8 - ·) hNext)
    have hCount : blockSize - (text.length + 1) % blockSize +
        (blockSize - 8 - 0) = padZeros text.length := by
      unfold blockSize padZeros at *
      omega
    rw [List.append_assoc _ (zero _), zero_append_zero, hCount] at hLast
    exact hLast
  · simp only [if_neg hRoom]
    rw [hLength] at hRoom
    apply hFirst.feed_zero
    rw [hLength]
    unfold blockSize padZeros at *
    omega

/- The padding and a length of eight bytes fill the blocks. -/
theorem length_padded (text : List Byte) {tail : List Byte} (hTail : tail.length = 8) :
    (text ++ [0x80] ++ zero (padZeros text.length) ++ tail).length % blockSize = 0 := by
  rw [List.length_append, List.length_append, List.length_append, hTail, zero,
    List.length_replicate, List.length_singleton]
  unfold padZeros blockSize
  omega

/- The blocks of a whole run are the padded text. -/
theorem calls_padded (compress : Compress n) (words : Vector UInt32 n)
    (pieces : List (List Byte)) {length : List Byte} (hLength : length.length = 8) :
    let calls := (recordedRun compress words pieces length).calls
    (∀ block ∈ calls, block.length = blockSize) ∧
      calls.flatten = pieces.flatten ++ [0x80] ++
        zero (padZeros pieces.flatten.length) ++ length := by
  have hRun := ((Recorded.Holds.fresh compress words).foldl_feed pieces).pad.feed length
  rw [List.nil_append] at hRun
  unfold recordedRun
  simp only []
  rw [hRun.calls]
  exact ⟨length_of_mem_wholeBlocks blockSize_pos _,
    wholeBlocks_flatten blockSize_pos (length_padded pieces.flatten hLength)⟩

end Wmail.Authlib
