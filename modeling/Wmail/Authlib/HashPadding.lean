import Wmail.Authlib.HashStream
import Wmail.Core.BigEndian

/-
  The padded message of MD5 and SHA-1, and what the functions
  hand to their compression functions (md5/md5.c,
  sha1/sha1.c).

  The length of a SHA-1 message takes four bytes of the eight
  that are kept for it, so a message of 2^29 bytes or more has
  the padding of a shorter one.

  Key theorems include:
    * `md5_streaming`
    * `sha1_streaming_iff`
-/

------------
-- Bits
------------

namespace Wmail.Authlib

/- The bits of a text, of each byte the highest one first. -/
def bitsOf (text : List Byte) : List Bool :=
  text.flatMap fun b => (List.range 8).map fun i => b.toNat.testBit (7 - i)

/- A length in 64 bits, the highest one first. -/
def bigEndian64 (length : Nat) : List Bool :=
  (List.range 64).map fun i => length.testBit (63 - i)

/- The same, but the bytes are in the opposite order. -/
def littleEndian64 (length : Nat) : List Bool :=
  (List.range 64).map fun i => length.testBit (8 * (i / 8) + (7 - i % 8))

/- As many zeros as leave 64 bits of a block of 512. -/
def zeroBits (length : Nat) : Nat :=
  (959 - length % 512) % 512

/- A message padded for SHA-1. -/
def fips180Padded (message : List Bool) : List Bool :=
  message ++ [true] ++ List.replicate (zeroBits message.length) false ++ bigEndian64 message.length

/- A message padded for MD5. -/
def rfc1321Padded (message : List Bool) : List Bool :=
  message ++ [true] ++ List.replicate (zeroBits message.length) false ++
      littleEndian64 message.length

theorem bitsOf_append (text more : List Byte) :
    bitsOf (text ++ more) = bitsOf text ++ bitsOf more :=
  List.flatMap_append

theorem length_bitsOf (text : List Byte) : (bitsOf text).length = 8 * text.length := by
  unfold bitsOf
  rw [List.length_flatMap]
  simp [Nat.mul_comm]

theorem bitsOf_zero (count : Nat) : bitsOf (zero count) = List.replicate (8 * count) false := by
  induction count with
  | zero => rfl
  | succ count ih =>
    have hSplit : zero (count + 1) = zero 1 ++ zero count := by
      rw [zero_append_zero, Nat.add_comm]
    have hByte : bitsOf (zero 1) = List.replicate 8 false := by decide
    rw [hSplit, bitsOf_append, ih, hByte, List.replicate_append_replicate, Nat.mul_succ,
      Nat.add_comm]

theorem bitsOf_range (f : Nat → Byte) (count : Nat) :
    bitsOf ((List.range count).map f) = (List.range (8 * count)).map fun i =>
        (f (i / 8)).toNat.testBit (7 - i % 8) := by
  induction count with
  | zero => rfl
  | succ count ih =>
    have hLast : bitsOf [f count] = (List.range 8).map fun i =>
          (f ((8 * count + i) / 8)).toNat.testBit (7 - (8 * count + i) % 8) := by
      unfold bitsOf
      rw [List.flatMap_singleton]
      apply List.map_congr_left
      intro i hMem
      have hLess := List.mem_range.mp hMem
      have hDiv : (8 * count + i) / 8 = count := by omega
      have hMod : (8 * count + i) % 8 = i := by omega
      rw [hDiv, hMod]
    rw [List.range_succ, List.map_append, bitsOf_append, ih, List.map_singleton, hLast,
      Nat.mul_succ, List.range_add, List.map_append, List.map_map]
    rfl

/- The padding in bits and in bytes. -/
theorem bitsOf_padding (text tail : List Byte) :
    bitsOf (text ++ [0x80] ++ zero (padZeros text.length) ++ tail) =
      bitsOf text ++ [true] ++ List.replicate (zeroBits (bitsOf text).length) false ++
          bitsOf tail := by
  have hOne : bitsOf [0x80] = [true] ++ List.replicate 7 false := by decide
  have hCount : 7 + 8 * padZeros text.length = zeroBits (bitsOf text).length := by
    rw [length_bitsOf]
    unfold padZeros zeroBits
    omega
  rw [bitsOf_append, bitsOf_append, bitsOf_append, hOne, bitsOf_zero, ← hCount, List.replicate_add]
  simp only [List.append_assoc]

/- The bytes of a number, the lowest one first. -/
def lowBytes (count n : Nat) : List Byte :=
  (List.range count).map fun k => UInt8.ofNat (n / 2 ^ (8 * k))

theorem littleEndian_eq (w : UInt32) : littleEndian w = lowBytes 4 w.toNat := by
  unfold littleEndian lowBytes
  simp only [List.range_succ, List.range_zero, List.nil_append, List.cons_append, List.map_cons,
    List.map_nil, List.cons.injEq, and_true]
  simp [← UInt8.toNat_inj, Nat.shiftRight_eq_div_pow]

/- A bit of a byte of a number is a bit of the number. -/
theorem testBit_byte (n k : Nat) {j : Nat} (hBit : j < 8) :
    (UInt8.ofNat (n / 2 ^ (8 * k))).toNat.testBit j = n.testBit (8 * k + j) := by
  rw [UInt8.toNat_ofNat', Nat.testBit_mod_two_pow, decide_eq_true hBit, Bool.true_and,
    Nat.testBit_div_two_pow, Nat.add_comm]

theorem bitsOf_lowBytes (n : Nat) : bitsOf (lowBytes 8 n) = littleEndian64 n := by
  unfold lowBytes
  rw [bitsOf_range]
  apply List.map_congr_left
  intro i _
  exact testBit_byte n (i / 8) (by omega)

theorem bitsOf_reverse_lowBytes (n : Nat) : bitsOf (lowBytes 8 n).reverse = bigEndian64 n := by
  have hReverse : (lowBytes 8 n).reverse = (List.range 8).map fun k =>
        UInt8.ofNat (n / 2 ^ (8 * (7 - k))) := rfl
  rw [hReverse, bitsOf_range]
  apply List.map_congr_left
  intro i hMem
  have hLess := List.mem_range.mp hMem
  have hPlace : 8 * (7 - i / 8) + (7 - i % 8) = 63 - i := by omega
  rw [testBit_byte n (7 - i / 8) (by omega), hPlace]

/- A number of 64 bits is known from its bits. -/
theorem bigEndian64_injective {m n : Nat} (hm : m < 2 ^ 64) (hn : n < 2 ^ 64)
    (hSame : bigEndian64 m = bigEndian64 n) : m = n := by
  apply Nat.eq_of_testBit_eq
  intro j
  rcases Nat.lt_or_ge j 64 with hLess | hMore
  · have hBit := List.map_inj_left.mp hSame (63 - j) (List.mem_range.mpr (by omega))
    have hPlace : 63 - (63 - j) = j := by omega
    simp only [hPlace] at hBit
    exact hBit
  · have hBound := Nat.pow_le_pow_right Nat.two_pos hMore
    rw [Nat.testBit_lt_two_pow (Nat.lt_of_lt_of_le hm hBound),
      Nat.testBit_lt_two_pow (Nat.lt_of_lt_of_le hn hBound)]

/-
  `md5_context_init`, a call of `md5_context_hashstream` for
  each piece, and `md5_context_endstream`.
-/
def md5Stream (compress : Compress 4) (pieces : List (List Byte)) (ll : Nat) : Recorded 4 :=
  recordedRun compress md5ContextInit pieces
    (littleEndian (UInt32.ofNat ll <<< 3) ++ littleEndian (UInt32.ofNat ll >>> 29))

/- The recorded run is that of the hash function. -/
theorem md5Stream_context (compress : Compress 4) (pieces : List (List Byte)) (ll : Nat) :
    (md5Stream compress pieces ll).context =
      (hmacMd5 compress).endhash
        (pieces.foldl (hmacMd5 compress).hash (hmacMd5 compress).init) ll :=
  recordedRun_context compress _ pieces _

/- The length in two words is the length in eight bytes. -/
theorem md5_length {ll : Nat} (hLength : ll < 2 ^ 32) :
    littleEndian (UInt32.ofNat ll <<< 3) ++ littleEndian (UInt32.ofNat ll >>> 29) =
      lowBytes 8 (8 * ll) := by
  rw [littleEndian_eq, littleEndian_eq]
  unfold lowBytes
  simp only [List.range_succ, List.range_zero, List.nil_append, List.cons_append, List.map_cons,
    List.map_nil, List.cons.injEq, and_true]
  simp [← UInt8.toNat_inj, Nat.shiftRight_eq_div_pow, Nat.shiftLeft_eq]
  omega

/- The blocks are those of the padded message. -/
def Padded (calls : List (List Byte)) (message : List Bool) : Prop :=
  (∀ block ∈ calls, block.length = blockSize) ∧ bitsOf calls.flatten = message

/- A saved context, and its digest after the rest. -/
def md5Resumed (compress : Compress 4) (front rest : List (List Byte)) (ll : Nat) : List Byte :=
  let hh := hmacMd5 compress
  let saved := hh.getdigest (front.foldl hh.hash hh.init)
  hh.getdigest (hh.endhash (rest.foldl hh.hash (hh.setdigest saved)) ll)

/- `md5_context_digest` at the end of a run. -/
def md5Digest (compress : Compress 4) (pieces : List (List Byte)) (ll : Nat) : List Byte :=
  (hmacMd5 compress).getdigest
    (md5Stream compress pieces ll).context
/- The blocks of MD5 are those of the padded message. -/
theorem md5_padded (compress : Compress 4) (pieces : List (List Byte))
    (hLength : pieces.flatten.length < 2 ^ 32) :
    Padded (md5Stream compress pieces pieces.flatten.length).calls
      (rfc1321Padded (bitsOf pieces.flatten)) := by
  have hTail := md5_length hLength
  have hEight : (lowBytes 8 (8 * pieces.flatten.length)).length = 8 := by
    unfold lowBytes
    rw [List.length_map, List.length_range]
  rcases calls_padded compress md5ContextInit pieces hEight with ⟨hBlocks, hFlatten⟩
  unfold md5Stream
  rw [hTail]
  refine ⟨hBlocks, ?_⟩
  rw [hFlatten, bitsOf_padding, bitsOf_lowBytes, ← length_bitsOf]
  rfl

------------
-- Saved Contexts
------------

/- A byte below a word. -/
theorem toNat_shift_or (a : UInt32) (b : Byte) : (a <<< 8 ||| b.toUInt32).toNat =
      a.toNat % 2 ^ 24 * 2 ^ 8 + b.toNat := by
  have hByte : b.toNat < 2 ^ 8 := b.toNat_lt
  have hHigh : (a <<< 8).toNat = (a.toNat % 2 ^ 24) <<< 8 := by
    rw [UInt32.toNat_shiftLeft, Nat.shiftLeft_eq, Nat.shiftLeft_eq]
    simp
    omega
  rw [UInt32.toNat_or, hHigh, UInt8.toNat_toUInt32, shiftLeft_or hByte]

theorem ofLittleEndian_littleEndian (w : UInt32) (rest : List Byte) :
    ofLittleEndian (littleEndian w ++ rest) = w := by
  have hw := w.toNat_lt
  rw [← UInt32.toNat_inj]
  unfold ofLittleEndian littleEndian
  simp only [List.cons_append, List.getD_cons_succ, List.getD_cons_zero, toNat_shift_or]
  simp [Nat.shiftRight_eq_div_pow]
  omega

theorem drop_flatMap {α β : Type} {f : α → List β} {k : Nat}
    (hLength : ∀ a, (f a).length = k) (l : List α) (i : Nat) :
    (l.flatMap f).drop (k * i) = (l.drop i).flatMap f := by
  induction i generalizing l with
  | zero => rfl
  | succ i ih =>
    cases l with
    | nil => simp
    | cons a l =>
      rw [List.flatMap_cons, Nat.mul_succ, Nat.add_comm,
        ← List.drop_drop, List.drop_left' (hLength a), ih]
      rfl

/- The words of a digest are read back. -/
theorem restored_words {n : Nat} (put : UInt32 → List Byte) (get : List Byte → UInt32)
    (hPut : ∀ w, (put w).length = 4) (hGet : ∀ w rest, get (put w ++ rest) = w)
    (words : Vector UInt32 n) :
    (Vector.ofFn fun i : Fin n => get ((words.toList.flatMap put).drop (4 * i))) = words := by
  apply Vector.ext
  intro i hIndex
  have hList : i < words.toList.length := by
    rw [Vector.length_toList]
    exact hIndex
  rw [Vector.getElem_ofFn, drop_flatMap hPut, List.drop_eq_getElem_cons hList, List.flatMap_cons,
    hGet, Vector.getElem_toList]

/- A context in which nothing waits is its words. -/
theorem BlockContext.eq_fresh {n : Nat} {c : BlockContext n} (hEmpty : c.blk = []) :
    c = .fresh c.words := by
  cases c with
  | mk words blk hRoom =>
    cases hEmpty
    rfl

theorem md5_restored (compress : Compress 4) {c : BlockContext 4} (hEmpty : c.blk = []) :
    (hmacMd5 compress).setdigest ((hmacMd5 compress).getdigest c) = c := by
  have hWords := restored_words littleEndian ofLittleEndian
    (fun _ => rfl) ofLittleEndian_littleEndian c.words
  rw [BlockContext.eq_fresh hEmpty]
  exact congrArg BlockContext.fresh hWords

/- After whole blocks nothing waits. -/
theorem foldl_hashstream_blk {n : Nat} (compress : Compress n) (words : Vector UInt32 n)
    {pieces : List (List Byte)} (hWhole : pieces.flatten.length % blockSize = 0) :
    (pieces.foldl (hashstream compress) (.fresh words)).blk = [] := by
  have hHolds := (Recorded.Holds.fresh compress words).foldl_feed pieces
  have hBlk := hHolds.blk
  rw [foldl_feed_context, List.nil_append, lastPart_eq_nil blockSize_pos hWhole] at hBlk
  exact hBlk

/- A context that is saved after whole blocks is as good. -/
theorem md5Resumed_eq (compress : Compress 4) (front rest : List (List Byte)) (ll : Nat)
    (hWhole : front.flatten.length % blockSize = 0) :
    md5Resumed compress front rest ll = md5Digest compress (front ++ rest) ll := by
  unfold md5Digest
  rw [md5Stream_context, List.foldl_append]
  have hSaved : (hmacMd5 compress).setdigest ((hmacMd5 compress).getdigest
        (front.foldl (hmacMd5 compress).hash (hmacMd5 compress).init)) =
        front.foldl (hmacMd5 compress).hash (hmacMd5 compress).init :=
    md5_restored compress (foldl_hashstream_blk compress _ hWhole)
  unfold md5Resumed
  simp only []
  rw [hSaved]

/-
  MD5 hands over the blocks of the padded message, however it
  was cut, and a context that is saved after whole blocks and
  restored leads to the same digest.
-/
theorem md5_streaming (compress : Compress 4) (pieces : List (List Byte))
    (hLength : pieces.flatten.length < 2 ^ 32) :
    Padded (md5Stream compress pieces pieces.flatten.length).calls
        (rfc1321Padded (bitsOf pieces.flatten)) ∧
      ∀ front rest, pieces = front ++ rest → front.flatten.length % blockSize = 0 →
            md5Resumed compress front rest pieces.flatten.length = md5Digest compress pieces
                pieces.flatten.length := by
  refine ⟨md5_padded compress pieces hLength, ?_⟩
  intro front rest hSplit hWhole
  rw [hSplit]
  exact md5Resumed_eq compress front rest _ hWhole

/- A message that is saved after its first block. -/
theorem md5_streaming_two_blocks : Padded (md5Stream (fun words _ => words) [zero 64, [1]] 65).calls
        (rfc1321Padded (bitsOf (zero 64 ++ [1]))) ∧
      ∀ front rest,
        [zero 64, [1]] = front ++ rest →
          front.flatten.length % blockSize = 0 →
            md5Resumed (fun words _ => words) front rest 65 = md5Digest (fun words _ => words)
                [zero 64, [1]] 65 :=
  md5_streaming (fun words _ => words) [zero 64, [1]] (by decide)

/-
  `sha1_context_init`, a call of `sha1_context_hashstream` for
  each piece, and `sha1_context_endstream`.
-/
def sha1Stream (compress : Compress 5) (pieces : List (List Byte)) (l : Nat) : Recorded 5 :=
  recordedRun compress sha1ContextInit
    pieces (zero 4 ++ (littleEndian (UInt32.ofNat (l * 8))).reverse)

/- Only the low half of the length is kept. -/
theorem sha1_length (l : Nat) : zero 4 ++ (littleEndian (UInt32.ofNat (l * 8))).reverse =
      (lowBytes 8 (8 * l % 2 ^ 32)).reverse := by
  have hSplit : lowBytes 8 (8 * l % 2 ^ 32) = lowBytes 4 (8 * l % 2 ^ 32) ++ zero 4 := by
    unfold lowBytes zero
    simp only [List.range_succ, List.range_zero, List.nil_append, List.cons_append, List.map_cons,
      List.map_nil, List.replicate_succ, List.replicate_zero, List.cons.injEq, and_true]
    simp [← UInt8.toNat_inj]
    omega
  have hZero : (zero 4).reverse = zero 4 := rfl
  rw [hSplit, List.reverse_append, hZero, littleEndian_eq, UInt32.toNat_ofNat', Nat.mul_comm l 8]

/- The padding is right if its length is. -/
theorem sha1_padded_iff (compress : Compress 5) (pieces : List (List Byte)) :
    Padded (sha1Stream compress pieces pieces.flatten.length).calls
        (fips180Padded (bitsOf pieces.flatten)) ↔
      bigEndian64 (8 * pieces.flatten.length % 2 ^ 32) =
        bigEndian64 (8 * pieces.flatten.length) := by
  have hEight : (lowBytes 8 (8 * pieces.flatten.length % 2 ^ 32)).reverse.length = 8 := by
    unfold lowBytes
    rw [List.length_reverse, List.length_map, List.length_range]
  rcases calls_padded compress sha1ContextInit pieces hEight with ⟨hBlocks, hFlatten⟩
  unfold Padded sha1Stream
  rw [sha1_length, hFlatten, bitsOf_padding, bitsOf_reverse_lowBytes]
  unfold fips180Padded
  rw [List.append_right_inj, length_bitsOf]
  exact and_iff_right hBlocks

/-
  SHA-1 hands over the blocks of the padded message, however
  it was cut, just if the message has less than 2^29 bytes.
-/
theorem sha1_streaming_iff (compress : Compress 5) (pieces : List (List Byte))
    (hLength : pieces.flatten.length < 2 ^ 32) :
    Padded (sha1Stream compress pieces pieces.flatten.length).calls
        (fips180Padded (bitsOf pieces.flatten)) ↔
      pieces.flatten.length < 2 ^ 29 := by
  rw [sha1_padded_iff]
  constructor
  · intro hSame
    have hValue := bigEndian64_injective (by omega) (by omega) hSame
    omega
  · intro hSmall
    have hMod : 8 * pieces.flatten.length % 2 ^ 32 = 8 * pieces.flatten.length := by omega
    rw [hMod]

/- A message in two pieces. -/
theorem sha1_streaming_abc : [bytes "ab", bytes "c"].flatten.length < 2 ^ 32 ∧
      (Padded (sha1Stream (fun words _ => words)
          [bytes "ab", bytes "c"] 3).calls
        (fips180Padded (bitsOf (bytes "abc"))) ↔ 3 < 2 ^ 29) :=
  ⟨by decide, sha1_streaming_iff (fun words _ => words)
    [bytes "ab", bytes "c"] (by decide)⟩

/- The length of a message of 2^29 bytes becomes zero. -/
theorem not_sha1_streaming : let pieces := [zero (2 ^ 29)]
    pieces.flatten.length < 2 ^ 32 ∧ ¬ Padded (sha1Stream (fun words _ => words) pieces
          pieces.flatten.length).calls
        (fips180Padded (bitsOf pieces.flatten)) := by
  have hLength : [zero (2 ^ 29)].flatten.length = 2 ^ 29 := by
    rw [List.flatten_singleton, zero, List.length_replicate]
  simp only []
  rw [sha1_padded_iff, hLength]
  refine ⟨by omega, ?_⟩
  intro hSame
  have hValue := bigEndian64_injective (by omega) (by omega) hSame
  omega

end Wmail.Authlib
