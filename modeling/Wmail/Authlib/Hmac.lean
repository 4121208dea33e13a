import Wmail.Core.Bytes

/-
  Keyed hashes over a hash function with a context
  (libhmac/hmac.c), and the two functions that are installed
  (md5/md5.c, sha1/sha1.c).

  A hash function is given by the operations of its context.
  The two installed ones are built from their compression
  functions, which are left open.

  Key definitions include:
    * `HashInfo`
-/

namespace Wmail.Authlib

/-
  `struct hmac_hashinfo`.  `setdigest` overwrites all of a
  context, so the context that it is given does not matter.
-/
structure HashInfo where
  Context : Type
  name : List Byte
  B : Nat
  L : Nat
  init : Context
  hash : Context → List Byte → Context
  endhash : Context → Nat → Context
  getdigest : Context → List Byte
  setdigest : List Byte → Context
  length_getdigest : ∀ c, (getdigest c).length = L

/- `hh_hash` takes the length of a text as an `unsigned`. -/
def hashedPart (text : List Byte) : List Byte :=
  text.take (text.length % 2 ^ 32)

/- The size of `buf` in `dokeycalc`. -/
def keyBufSize : Nat :=
  64

/- `hh_hash` on one full `buf` after another. -/
def HashInfo.hashBufs (hh : HashInfo) (c : hh.Context) (text : List Byte) : hh.Context :=
  if _hEnd : text = [] then
    c
  else
    hh.hashBufs (hh.hash c (text.take keyBufSize)) (text.drop keyBufSize)
termination_by text.length
decreasing_by
  have hSome := List.length_pos_iff.mpr _hEnd
  rw [List.length_drop]
  unfold keyBufSize
  omega

/- One of the two loops of `dokeycalc`. -/
def HashInfo.keyPad (hh : HashInfo) (k : List Byte) (pad : Byte) : List Byte :=
  hh.getdigest (hh.hashBufs hh.init ((List.range hh.B).map fun l => k.getD l 0 ^^^ pad))

/- `dokeycalc`: `kxopad` and `kxipad`. -/
def HashInfo.keycalc (hh : HashInfo) (k : List Byte) : List Byte × List Byte :=
  (hh.keyPad k 0x5C, hh.keyPad k 0x36)

/- `hmac_hashkey`: a long key is hashed first. -/
def HashInfo.hashkey (hh : HashInfo) (k : List Byte) : List Byte × List Byte :=
  if hh.B < k.length then
    hh.keycalc (hh.getdigest (hh.endhash (hh.hash hh.init (hashedPart k)) k.length))
  else
    hh.keycalc k

/- `hmac_hashtext`. -/
def HashInfo.hashtext (hh : HashInfo) (t kxopad kxipad : List Byte) : List Byte :=
  let inner := hh.getdigest (hh.endhash (hh.hash (hh.setdigest kxipad) (hashedPart t))
      (t.length + hh.B))
  hh.getdigest (hh.endhash (hh.hash (hh.setdigest kxopad) (hashedPart inner)) (hh.L + hh.B))

theorem length_keyPad (hh : HashInfo) (k : List Byte) (pad : Byte) :
    (hh.keyPad k pad).length = hh.L :=
  hh.length_getdigest _

/- Both halves of a key are as long as a digest. -/
theorem length_hashkey (hh : HashInfo) (k : List Byte) : (hh.hashkey k).1.length = hh.L ∧
      (hh.hashkey k).2.length = hh.L := by
  unfold HashInfo.hashkey
  split
  · exact ⟨length_keyPad hh _ _, length_keyPad hh _ _⟩
  · exact ⟨length_keyPad hh _ _, length_keyPad hh _ _⟩

theorem length_hashtext (hh : HashInfo) (t kxopad kxipad : List Byte) :
    (hh.hashtext t kxopad kxipad).length = hh.L :=
  hh.length_getdigest _

/- `MD5_BLOCK_SIZE` and `SHA1_BLOCK_SIZE`. -/
def blockSize : Nat :=
  64

/- What a block does to the words of a context. -/
abbrev Compress (n : Nat) :=
  Vector UInt32 n → List Byte → Vector UInt32 n

/-
  `struct MD5_CONTEXT` and `struct SHA1_CONTEXT`: the words,
  and the first `blk_ptr` bytes of `blk`.
-/
structure BlockContext (n : Nat) where
  words : Vector UInt32 n
  blk : List Byte
  blk_lt : blk.length < blockSize

section Blocks

variable {n : Nat} (compress : Compress n)

/- A context without bytes that wait for their block. -/
def BlockContext.fresh (words : Vector UInt32 n) : BlockContext n :=
  ⟨words, [], by decide⟩

/- `md5_context_hashstream` and `sha1_context_hashstream`. -/
def hashstream (c : BlockContext n) (p : List Byte) : BlockContext n :=
  if _hEnd : p = [] then
    c
  else if c.blk = [] ∧ blockSize ≤ p.length then
    hashstream (.fresh (compress c.words (p.take blockSize))) (p.drop blockSize)
  else
    let ll := min p.length (blockSize - c.blk.length)
    if hFull : blockSize ≤ (c.blk ++ p.take ll).length then
      hashstream (.fresh (compress c.words (c.blk ++ p.take ll))) (p.drop ll)
    else
      hashstream ⟨c.words, c.blk ++ p.take ll, Nat.lt_of_not_le hFull⟩ (p.drop ll)
termination_by p.length
decreasing_by
  all_goals
    have hSome := List.length_pos_iff.mpr _hEnd
    have hRoom := c.blk_lt
    rw [List.length_drop]
    unfold blockSize at *
    omega

/- `static unsigned char zero[]`. -/
def zero (count : Nat) : List Byte :=
  List.replicate count 0

/-
  `md5_context_endstream` and `sha1_context_endstream`, up to
  the length.  The loop runs once, or twice if the block has
  no room for the length.
-/
def padstream (c : BlockContext n) : BlockContext n :=
  let c := hashstream compress c [0x80]
  let c :=
    if blockSize - 8 < c.blk.length then
      hashstream compress c (zero (blockSize - c.blk.length))
    else
      c
  hashstream compress c (zero (blockSize - 8 - c.blk.length))

end Blocks

/- The bytes of a word, the lowest one first. -/
def littleEndian (w : UInt32) : List Byte :=
  [w.toUInt8, (w >>> 8).toUInt8, (w >>> 16).toUInt8, (w >>> 24).toUInt8]

/- The word of four bytes, the lowest one first. -/
def ofLittleEndian (d : List Byte) : UInt32 :=
  (((d.getD 3 0).toUInt32 <<< 8 ||| (d.getD 2 0).toUInt32) <<< 8 |||
    (d.getD 1 0).toUInt32) <<< 8 ||| (d.getD 0 0).toUInt32

theorem length_digest {n : Nat} {put : UInt32 → List Byte} (hPut : ∀ w, (put w).length = 4)
    (words : Vector UInt32 n) : (words.toList.flatMap put).length = n * 4 := by
  rw [List.length_flatMap]
  have hFour : words.toList.map (fun w => (put w).length) = List.replicate n 4 := by
    rw [List.eq_replicate_iff]
    constructor
    · rw [List.length_map, Vector.length_toList]
    · intro k hMem
      rcases List.mem_map.mp hMem with ⟨w, _, hEq⟩
      rw [← hEq]
      exact hPut w
  rw [hFour, List.sum_replicate_nat]

/- The words that `md5_context_init` sets. -/
def md5ContextInit : Vector UInt32 4 :=
  #v[0x67452301, 0xefcdab89, 0x98badcfe, 0x10325476]

/-
  `hmac_md5`.  The length is that of the text in bits, in two
  words: `ll << 3` and `ll >> 29`, where a word has 32 bits.
-/
def hmacMd5 (compress : Compress 4) : HashInfo where
  Context := BlockContext 4
  name := bytes "md5"
  B := blockSize
  L := 4 * 4
  init := .fresh md5ContextInit
  hash := hashstream compress
  endhash c ll :=
    hashstream compress (padstream compress c) (littleEndian (UInt32.ofNat ll <<< 3) ++
        littleEndian (UInt32.ofNat ll >>> 29))
  getdigest c := c.words.toList.flatMap littleEndian
  setdigest d :=
    .fresh (Vector.ofFn fun i => ofLittleEndian (d.drop (4 * i)))
  length_getdigest c := length_digest (fun _ => rfl) c.words

/- The words that `sha1_context_init` sets. -/
def sha1ContextInit : Vector UInt32 5 :=
  #v[0x67452301, 0xEFCDAB89, 0x98BADCFE, 0x10325476, 0xC3D2E1F0]

/-
  `hmac_sha1`.  The length in bits takes the last four bytes
  of eight.
-/
def hmacSha1 (compress : Compress 5) : HashInfo where
  Context := BlockContext 5
  name := bytes "sha1"
  B := blockSize
  L := 5 * 4
  init := .fresh sha1ContextInit
  hash := hashstream compress
  endhash c l :=
    hashstream compress (padstream compress c)
      (zero 4 ++ (littleEndian (UInt32.ofNat (l * 8))).reverse)
  getdigest c :=
    c.words.toList.flatMap fun w => (littleEndian w).reverse
  setdigest d :=
    .fresh (Vector.ofFn fun i => ofLittleEndian ((d.drop (4 * i)).take 4).reverse)
  length_getdigest c := length_digest (fun _ => rfl) c.words

/- `hmac_list`. -/
def hmacList (md5 : Compress 4) (sha1 : Compress 5) : List HashInfo :=
  [hmacMd5 md5, hmacSha1 sha1]

end Wmail.Authlib
