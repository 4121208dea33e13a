import Wmail.Authlib.HashPadding
import Wmail.Core.IteratedHash

/-
  The keyed hash (libhmac/hmac.c) is that of its definition.

  A hash function streams an iterated hash when its contexts
  stand for a state and the text that waits for its block.
  The length of a text reaches the hash function as an
  `unsigned`, so a longer text is cut.

  Key theorems include:
    * `sha1Streams`
    * `hmac_correct_iff`
-/

namespace Wmail.Authlib

/- A key of one block. -/
def blockKey (H : IteratedHash Byte) (key : List Byte) : List Byte :=
  let k := if H.size < key.length then H.hash key else key
  k ++ zero (H.size - k.length)

/- `H((K xor opad) || H((K xor ipad) || text))`. -/
def hmacOf (H : IteratedHash Byte) (key text : List Byte) : List Byte :=
  H.hash ((blockKey H key).map (· ^^^ 0x5C) ++ H.hash ((blockKey H key).map (· ^^^ 0x36) ++ text))

/-
  `hmac_hashkey`, then `hmac_hashtext`.  The loops of
  `dokeycalc` count in an `unsigned`, and do not end if `hh_B`
  is not one.
-/
def HashInfo.hmac (hh : HashInfo) (k t : List Byte) : Option (List Byte) :=
  if 2 ^ 32 ≤ hh.B then
    none
  else
    let key := hh.hashkey k
    some (hh.hashtext t key.1 key.2)

/-
  The operations of a hash function compute an iterated hash.
  A context holds a state, and the text that waits.
-/
structure Streams (hh : HashInfo) (H : IteratedHash Byte) where
  holds : hh.Context → H.State → List Byte → Prop
  size_eq : H.size = hh.B
  init : holds hh.init H.iv []
  hash : ∀ c s waits p, holds c s waits → holds (hh.hash c p) (H.run s (waits ++ p))
          (lastPart H.size (waits ++ p))
  endhash : ∀ c s waits l, holds c s waits → waits.length = l % H.size →
          hh.getdigest (hh.endhash c l) = H.digest (H.run s (waits ++ H.padding l))
  getdigest : ∀ c s, holds c s [] → hh.getdigest c = H.digest s
  setdigest : ∀ s, holds (hh.setdigest (H.digest s)) s []

variable {hh : HashInfo} {H : IteratedHash Byte}

/- A text that is hashed after a saved state. -/
theorem Streams.finished (hStreams : Streams hh H) {c : hh.Context} {s : H.State}
    (hHolds : hStreams.holds c s []) (text : List Byte) :
    hh.getdigest (hh.endhash (hh.hash c text) (text.length + H.size)) =
      H.digest (H.run s (text ++ H.padding (text.length + H.size))) := by
  have hText := hStreams.hash c s [] text hHolds
  rw [List.nil_append] at hText
  have hLength : (lastPart H.size text).length = (text.length + H.size) % H.size := by
    rw [length_lastPart H.size_pos, Nat.add_mod_right]
  rw [hStreams.endhash _ _ _ _ hText hLength, ← H.run_append]

/- A whole message. -/
theorem Streams.hashed (hStreams : Streams hh H) (text : List Byte) :
    hh.getdigest (hh.endhash (hh.hash hh.init text) text.length) = H.hash text := by
  have hText := hStreams.hash _ _ [] text hStreams.init
  rw [List.nil_append] at hText
  rw [hStreams.endhash _ _ _ _ hText (length_lastPart H.size_pos text), ← H.run_append]
  rfl

theorem Streams.length_digest (hStreams : Streams hh H) (s : H.State) :
    (H.digest s).length = hh.L := by
  rw [← hStreams.getdigest _ _ (hStreams.setdigest s)]
  exact hh.length_getdigest _

variable {waits : List Byte}

theorem Streams.hashBufs (hStreams : Streams hh H) (text : List Byte) {c : hh.Context}
    {s : H.State} (hHolds : hStreams.holds c s waits) (hWaits : waits.length < H.size) :
    hStreams.holds (hh.hashBufs c text) (H.run s (waits ++ text))
      (lastPart H.size (waits ++ text)) := by
  fun_induction HashInfo.hashBufs hh c text generalizing s waits with
  | case1 c =>
    rw [List.append_nil, lastPart_short hWaits]
    have hNone : H.run s waits = s := by
      unfold IteratedHash.run
      rw [wholeBlocks_short hWaits]
      rfl
    rw [hNone]
    exact hHolds
  | case2 c text hEnd ih =>
    have hFront := hStreams.hash c s waits (text.take keyBufSize) hHolds
    have hRest := ih hFront (length_lastPart_lt H.size_pos _)
    rw [← H.run_append, ← lastPart_append H.size_pos,
      List.append_assoc, List.take_append_drop] at hRest
    exact hRest

variable {k : List Byte}

/- The characters of a key, and zeros behind them. -/
theorem range_map_getD {size : Nat} (hShort : k.length ≤ size) (pad : Byte) :
    ((List.range size).map fun l => k.getD l 0 ^^^ pad) =
      (k ++ zero (size - k.length)).map (· ^^^ pad) := by
  apply List.ext_getElem
  · rw [List.length_map, List.length_map, List.length_range,
      List.length_append, zero, List.length_replicate]
    omega
  · intro i hLeft hRight
    rw [List.getElem_map, List.getElem_map, List.getElem_range]
    congr 1
    rcases Nat.lt_or_ge i k.length with hIn | hOut
    · rw [List.getElem_append_left hIn, List.getD_eq_getElem _ _ hIn]
    · rw [List.getElem_append_right hOut, List.getD_eq_default _ _ hOut]
      exact (List.getElem_replicate _).symm

theorem length_blockKey {size : Nat} (hShort : k.length ≤ size) (pad : Byte) :
    ((k ++ zero (size - k.length)).map (· ^^^ pad)).length = size := by
  rw [List.length_map, List.length_append, zero, List.length_replicate]
  omega

/- The state after the first block is what is kept. -/
theorem Streams.keyPad (hStreams : Streams hh H) (hShort : k.length ≤ H.size) (pad : Byte) :
    hh.keyPad k pad = H.digest (H.compress H.iv
        ((k ++ zero (H.size - k.length)).map (· ^^^ pad))) := by
  have hBlock := length_blockKey hShort pad
  have hRun := hStreams.hashBufs ((k ++ zero (H.size - k.length)).map (· ^^^ pad))
    hStreams.init H.size_pos
  have hLast : lastPart H.size ([] ++ (k ++ zero (H.size - k.length)).map (· ^^^ pad)) = [] := by
    rw [List.nil_append]
    exact lastPart_eq_nil H.size_pos (by rw [hBlock, Nat.mod_self])
  have hState := H.run_block hBlock H.iv []
  rw [List.append_nil, H.run_nil] at hState
  rw [hLast, List.nil_append, hState] at hRun
  unfold HashInfo.keyPad
  rw [← hStreams.size_eq, range_map_getD hShort]
  exact hStreams.getdigest _ _ hRun

theorem hashedPart_eq {text : List Byte} (hFits : text.length < 2 ^ 32) :
    hashedPart text = text := by
  unfold hashedPart
  rw [Nat.mod_eq_of_lt hFits, List.take_length]

theorem Streams.length_hash (hStreams : Streams hh H) (message : List Byte) :
    (H.hash message).length = hh.L :=
  hStreams.length_digest _

/- The keyed hash with a key of at most one block. -/
theorem Streams.keyed (hStreams : Streams hh H) (hDigest : hh.L < 2 ^ 32) {text : List Byte}
    (hText : text.length < 2 ^ 32) (hShort : k.length ≤ H.size) :
    hh.hashtext text (hh.keycalc k).1 (hh.keycalc k).2 = H.hash
        ((k ++ zero (H.size - k.length)).map (· ^^^ 0x5C) ++
          H.hash ((k ++ zero (H.size - k.length)).map (· ^^^ 0x36) ++ text)) := by
  have hInner := hStreams.finished (hStreams.setdigest (H.compress H.iv
      ((k ++ zero (H.size - k.length)).map (· ^^^ 0x36)))) text
  rw [← H.hash_block (length_blockKey hShort 0x36)] at hInner
  have hOuter := hStreams.finished (hStreams.setdigest (H.compress H.iv
      ((k ++ zero (H.size - k.length)).map (· ^^^ 0x5C))))
    (H.hash ((k ++ zero (H.size - k.length)).map (· ^^^ 0x36) ++ text))
  rw [← H.hash_block (length_blockKey hShort 0x5C)] at hOuter
  have hPart : hashedPart (H.hash ((k ++ zero (H.size - k.length)).map (· ^^^ 0x36) ++ text)) = _ :=
    hashedPart_eq (by rw [hStreams.length_hash]; exact hDigest)
  unfold HashInfo.hashtext HashInfo.keycalc
  simp only [hStreams.keyPad hShort]
  rw [hashedPart_eq hText, ← hStreams.size_eq, hInner, hPart, ← hOuter, hStreams.length_hash]

/- The keyed hash of a key and a text that are not too long. -/
theorem hmac_eq (hStreams : Streams hh H) (hDigest : hh.L ≤ hh.B) (hSize : hh.B < 2 ^ 32)
    {key text : List Byte} (hKey : key.length < 2 ^ 32) (hText : text.length < 2 ^ 32) :
    hh.hmac key text = some (hmacOf H key text) := by
  have hLess : hh.L < 2 ^ 32 := Nat.lt_of_le_of_lt hDigest hSize
  unfold HashInfo.hmac
  rw [if_neg (Nat.not_le_of_lt hSize)]
  simp only [Option.some.injEq]
  unfold HashInfo.hashkey hmacOf blockKey
  rw [hashedPart_eq hKey, hStreams.hashed, ← hStreams.size_eq]
  split
  · apply hStreams.keyed hLess hText
    rw [hStreams.length_hash, hStreams.size_eq]
    exact hDigest
  · rename_i hLong
    exact hStreams.keyed hLess hText (Nat.le_of_not_lt hLong)

theorem padding_blocks {tail : List Byte} (hTail : tail.length = 8) (l : Nat) :
    (l + ([0x80] ++ zero (padZeros l) ++ tail).length) % blockSize = 0 := by
  rw [List.length_append, List.length_append, hTail, zero,
    List.length_replicate, List.length_singleton]
  unfold padZeros blockSize
  omega

/- An iterated hash with blocks of 64 bytes. -/
def iterated {n : Nat} (compress : Compress n) (iv : Vector UInt32 n)
    (length : Nat → List Byte) (hLength : ∀ l, (length l).length = 8)
    (put : UInt32 → List Byte) : IteratedHash Byte where
  State := Vector UInt32 n
  size := blockSize
  size_pos := blockSize_pos
  iv := iv
  compress := compress
  padding l := [0x80] ++ zero (padZeros l) ++ length l
  padding_whole l := padding_blocks (hLength l) l
  digest words := words.toList.flatMap put

/- A context holds its words and the bytes in its buffer. -/
def contextHolds {n : Nat} (c : BlockContext n) (words : Vector UInt32 n)
    (waits : List Byte) : Prop :=
  c.words = words ∧ c.blk = waits

theorem contextHolds_hashstream {n : Nat} (compress : Compress n) {c : BlockContext n}
    {words : Vector UInt32 n} (hHolds : contextHolds c words waits) (p : List Byte) :
    contextHolds (hashstream compress c p)
      ((wholeBlocks blockSize (waits ++ p)).foldl compress words)
      (lastPart blockSize (waits ++ p)) := by
  rcases hHolds with ⟨hWords, hBlk⟩
  rw [← hWords, ← hBlk]
  exact ⟨hashstream_words compress c p, hashstream_blk compress c p⟩

/- The padding and the length end the last block. -/
theorem padstream_words {n : Nat} (compress : Compress n) {c : BlockContext n}
    {words : Vector UInt32 n} (hHolds : contextHolds c words waits) {l : Nat}
    (hWaits : waits.length = l % blockSize) (length : List Byte) :
    (hashstream compress (padstream compress c) length).words =
      (wholeBlocks blockSize
        (waits ++ ([0x80] ++ zero (padZeros l) ++ length))).foldl
          compress words := by
  rcases hHolds with ⟨hWords, hBlk⟩
  have hRun := (Recorded.Holds.start compress c).pad.feed length
  have hZeros : padZeros c.blk.length = padZeros l := by
    rw [hBlk, hWaits]
    unfold padZeros blockSize
    omega
  have hResult := hRun.words
  rw [hZeros, hWords, hBlk] at hResult
  rw [← Recorded.pad_context compress ⟨c, []⟩]
  simp only [List.append_assoc] at hResult ⊢
  exact hResult

/- `hmac_md5` streams its iterated hash. -/
def md5Streams (compress : Compress 4) : Streams (hmacMd5 compress) (iterated compress
        md5ContextInit
        (fun l => littleEndian (UInt32.ofNat l <<< 3) ++ littleEndian (UInt32.ofNat l >>> 29))
        (fun _ => rfl) littleEndian) where
  holds := contextHolds
  size_eq := rfl
  init := ⟨rfl, rfl⟩
  hash _ _ _ p hHolds := contextHolds_hashstream compress hHolds p
  endhash _ _ _ _ hHolds hWaits :=
    congrArg (fun words => words.toList.flatMap littleEndian)
      (padstream_words compress hHolds hWaits _)
  getdigest _ _ hHolds :=
    congrArg (fun words => words.toList.flatMap littleEndian) hHolds.1
  setdigest s :=
    ⟨restored_words littleEndian ofLittleEndian (fun _ => rfl) ofLittleEndian_littleEndian s, rfl⟩

theorem ofLittleEndian_reverse (w : UInt32) (rest : List Byte) :
    ofLittleEndian (((littleEndian w).reverse ++ rest).take 4).reverse = w := by
  have hFront : ((littleEndian w).reverse ++ rest).take 4 = (littleEndian w).reverse :=
    List.take_left' rfl
  have hWord := ofLittleEndian_littleEndian w []
  rw [List.append_nil] at hWord
  rw [hFront, List.reverse_reverse, hWord]

/- `hmac_sha1` streams its iterated hash. -/
def sha1Streams (compress : Compress 5) : Streams (hmacSha1 compress) (iterated compress
        sha1ContextInit
        (fun l => zero 4 ++ (littleEndian (UInt32.ofNat (l * 8))).reverse)
        (fun _ => rfl) fun w => (littleEndian w).reverse) where
  holds := contextHolds
  size_eq := rfl
  init := ⟨rfl, rfl⟩
  hash _ _ _ p hHolds := contextHolds_hashstream compress hHolds p
  endhash _ _ _ _ hHolds hWaits :=
    congrArg (fun words =>
      words.toList.flatMap fun w => (littleEndian w).reverse)
      (padstream_words compress hHolds hWaits _)
  getdigest _ _ hHolds :=
    congrArg (fun words =>
      words.toList.flatMap fun w => (littleEndian w).reverse)
      hHolds.1
  setdigest s :=
    ⟨restored_words (fun w => (littleEndian w).reverse) (fun d => ofLittleEndian (d.take 4).reverse)
      (fun _ => rfl) ofLittleEndian_reverse s, rfl⟩

------------
-- Long Keys and Texts
------------

/- The operations that an iterated hash is used with. -/
def interfaceOf (H : IteratedHash Byte) (L : Nat) (hLength : ∀ s, (H.digest s).length = L)
    (restore : List Byte → H.State) : HashInfo where
  Context := H.State × List Byte
  name := bytes "abstract"
  B := H.size
  L := L
  init := (H.iv, [])
  hash c p := (H.run c.1 (c.2 ++ p), lastPart H.size (c.2 ++ p))
  endhash c l := (H.run c.1 (c.2 ++ H.padding l), [])
  getdigest c := H.digest c.1
  setdigest d := (restore d, [])
  length_getdigest c := hLength c.1

def interfaceStreams (H : IteratedHash Byte) (L : Nat)
    (hLength : ∀ s, (H.digest s).length = L) (restore : List Byte → H.State)
    (hRestore : ∀ s, restore (H.digest s) = s) : Streams (interfaceOf H L hLength restore) H where
  holds c s waits := c = (s, waits)
  size_eq := rfl
  init := rfl
  hash c s waits p hHolds := by
    rw [hHolds]
    rfl
  endhash c s waits l hHolds _ := by
    rw [hHolds]
    rfl
  getdigest c s hHolds := by
    rw [hHolds]
    rfl
  setdigest s := congrArg (·, []) (hRestore s)

/- The bytes that the hash below looks for. -/
def mark (b : Byte) : Bool :=
  b = 1 || b = 0x37

/- A digest that tells whether there was a mark. -/
def markDigest (L : Nat) (s : Bool) : List Byte :=
  (if s then 1 else 0) :: zero (L - 1)

/-
  A hash function that tells whether a marked byte was hashed.
  Its padding is zeros.
-/
def markHash (B L : Nat) (hB : 0 < B) : IteratedHash Byte where
  State := Bool
  size := B
  size_pos := hB
  iv := false
  compress s block := s || block.any mark
  padding l := zero (B - l % B)
  padding_whole l := by
    have hLess := Nat.mod_lt l hB
    have hSplit := Nat.div_add_mod l B
    have hWhole : l + (B - l % B) = B * (l / B + 1) := by
      rw [Nat.mul_succ]
      omega
    rw [zero, List.length_replicate, hWhole, Nat.mul_mod_right]
  digest := markDigest L

theorem any_mark_zero (count : Nat) : (zero count).any mark = false := by
  rw [List.any_eq_false]
  intro b hMem
  rw [List.eq_of_mem_replicate hMem]
  decide

theorem any_mark_digest (L : Nat) (s : Bool) : (markDigest L s).any mark = s := by
  unfold markDigest
  rw [List.any_cons, any_mark_zero, Bool.or_false]
  cases s with
  | false => rfl
  | true => rfl

theorem length_markDigest {L : Nat} (hL : 0 < L) (s : Bool) : (markDigest L s).length = L := by
  unfold markDigest
  rw [List.length_cons, zero, List.length_replicate]
  omega

section Marks

variable {B L : Nat}

theorem markHash_run (hB : 0 < B) (s : Bool) (text : List Byte) : (markHash B L hB).run s text =
      (s || (wholeBlocks B text).flatten.any mark) := by
  unfold IteratedHash.run markHash
  simp only []
  induction wholeBlocks B text generalizing s with
  | nil => rw [List.foldl_nil, List.flatten_nil, List.any_nil, Bool.or_false]
  | cons block blocks ih =>
    rw [List.foldl_cons, ih, List.flatten_cons, List.any_append, Bool.or_assoc]

variable {text : List Byte}

/- Blocks of a text without marks have none. -/
theorem markHash_run_plain (hB : 0 < B) (s : Bool) (hPlain : text.any mark = false) :
    (markHash B L hB).run s text = s := by
  have hSplit := flatten_wholeBlocks hB text
  rw [← hSplit, List.any_append, Bool.or_eq_false_iff] at hPlain
  rw [markHash_run, hPlain.1, Bool.or_false]

theorem lastPart_plain (hB : 0 < B) (hPlain : text.any mark = false) :
    (lastPart B text).any mark = false := by
  have hSplit := flatten_wholeBlocks hB text
  rw [← hSplit, List.any_append, Bool.or_eq_false_iff] at hPlain
  exact hPlain.2

/- A message is hashed to whether it has a mark. -/
theorem markHash_hash (hB : 0 < B) (message : List Byte) : (markHash B L hB).hash message =
      markDigest L (message.any mark) := by
  have hBlocks : (wholeBlocks B (message ++ zero (B - message.length % B))).flatten =
        message ++ zero (B - message.length % B) :=
    (markHash B L hB).wholeBlocks_padded message
  have hRun := markHash_run (L := L) hB false (message ++ zero (B - message.length % B))
  rw [hBlocks, List.any_append, any_mark_zero, Bool.or_false, Bool.false_or] at hRun
  exact congrArg (markDigest L) hRun

/- The state that a digest stands for. -/
def markRestore (d : List Byte) : Bool :=
  d.head? = some 1

theorem markRestore_digest (L : Nat) (s : Bool) : markRestore (markDigest L s) = s := by
  cases s with
  | false => rfl
  | true => rfl

def markInfo (B L : Nat) (hB : 0 < B) (hL : 0 < L) : HashInfo :=
  interfaceOf (markHash B L hB) L (length_markDigest hL) markRestore

/- No mark was hashed, and none waits. -/
def NoMarks (c : Bool × List Byte) : Prop :=
  c.1 = false ∧ c.2.any mark = false

variable {hB : 0 < B} {hL : 0 < L}

theorem NoMarks.hash {c : Bool × List Byte} (hNone : NoMarks c) {p : List Byte}
    (hPlain : p.any mark = false) : NoMarks ((markInfo B L hB hL).hash c p) := by
  have hText : (c.2 ++ p).any mark = false := by
    rw [List.any_append, hNone.2, hPlain]
    rfl
  have hRun := markHash_run_plain (L := L) hB c.1 hText
  rw [hNone.1] at hRun
  exact ⟨by rw [← hRun, ← hNone.1]; rfl, lastPart_plain hB hText⟩

theorem NoMarks.endhash {c : Bool × List Byte} (hNone : NoMarks c) (l : Nat) :
    (markInfo B L hB hL).getdigest ((markInfo B L hB hL).endhash c l) =
      markDigest L false := by
  have hText : (c.2 ++ zero (B - l % B)).any mark = false := by
    rw [List.any_append, hNone.2, any_mark_zero]
    rfl
  have hRun := markHash_run_plain (L := L) hB c.1 hText
  rw [hNone.1] at hRun
  have hState : (markHash B L hB).run c.1 (c.2 ++ zero (B - l % B)) = false := by
    rw [hNone.1]
    exact hRun
  exact congrArg (markDigest L) hState

theorem NoMarks.hashBufs (hPlain : text.any mark = false) {c : (markInfo B L hB hL).Context}
    (hNone : NoMarks c) : NoMarks ((markInfo B L hB hL).hashBufs c text) := by
  fun_induction HashInfo.hashBufs (markInfo B L hB hL) c text with
  | case1 c => exact hNone
  | case2 c text hSome ih =>
    have hSplit : text = text.take keyBufSize ++ text.drop keyBufSize :=
      (List.take_append_drop keyBufSize text).symm
    rw [hSplit, List.any_append, Bool.or_eq_false_iff] at hPlain
    exact ih hPlain.2 (hNone.hash hPlain.1)

/- A padded key without marks. -/
def QuietKey (B : Nat) (k : List Byte) (pad : Byte) : Prop :=
  ((List.range B).map fun l => k.getD l 0 ^^^ pad).any mark = false

/- Without marks in its parts the keyed hash finds none. -/
theorem hashtext_no_marks {k text : List Byte} (hOuter : QuietKey B k 0x5C)
    (hInner : QuietKey B k 0x36) (hText : (hashedPart text).any mark = false) :
    (markInfo B L hB hL).hashtext text
        ((markInfo B L hB hL).keycalc k).1
        ((markInfo B L hB hL).keycalc k).2 =
      markDigest L false := by
  have hInit : NoMarks (markInfo B L hB hL).init := ⟨rfl, rfl⟩
  have hKey : ∀ pad, QuietKey B k pad → (markInfo B L hB hL).keyPad k pad =
        markDigest L false := by
    intro pad hQuiet
    have hState := NoMarks.hashBufs hQuiet hInit
    exact congrArg (markDigest L) hState.1
  have hSaved : NoMarks ((markInfo B L hB hL).setdigest (markDigest L false)) :=
    ⟨markRestore_digest L false, rfl⟩
  have hPart : (hashedPart (markDigest L false)).any mark = false := by
    have hDigest := any_mark_digest L false
    rw [List.any_eq_false] at hDigest ⊢
    intro b hMem
    exact hDigest b (List.mem_of_mem_take hMem)
  unfold HashInfo.hashtext HashInfo.keycalc
  simp only [hKey 0x5C hOuter, hKey 0x36 hInner]
  rw [(hSaved.hash hText).endhash]
  exact (hSaved.hash hPart).endhash _

/- A text whose last byte is marked, if it is too long. -/
def content (length : Nat) : List Byte :=
  if 2 ^ 32 ≤ length then zero (length - 1) ++ [1] else zero length

theorem length_content (length : Nat) : (content length).length = length := by
  unfold content
  split
  · rw [List.length_append, zero, List.length_replicate, List.length_singleton]
    omega
  · exact List.length_replicate

theorem any_mark_of_zeros (hZeros : ∀ b ∈ text, b = 0) : text.any mark = false := by
  rw [List.any_eq_false]
  intro b hMem
  rw [hZeros b hMem]
  decide

theorem quietKey_of_zeros {k : List Byte} (hZeros : ∀ b ∈ k, b = 0) {pad : Byte}
    (hPad : mark pad = false) : QuietKey B k pad := by
  unfold QuietKey
  rw [List.any_map, List.any_eq_false]
  intro l _
  have hByte : k.getD l 0 = 0 := by
    rw [List.getD_eq_getElem?_getD]
    cases hGet : k[l]? with
    | none => rfl
    | some b => exact hZeros b (List.mem_of_getElem? hGet)
  rw [Function.comp_apply, hByte, UInt8.zero_xor, hPad]
  exact Bool.false_ne_true

theorem mem_zero {count : Nat} {b : Byte} (hMem : b ∈ zero count) : b = 0 :=
  List.eq_of_mem_replicate hMem

/- The mark of a long text is cut off. -/
theorem hashedPart_content (length : Nat) : ∀ b ∈ hashedPart (content length), b = 0 := by
  intro b hMem
  unfold hashedPart at hMem
  rw [length_content] at hMem
  unfold content at hMem
  split at hMem
  · rename_i hLong
    have hCut : length % 2 ^ 32 ≤ (zero (length - 1)).length := by
      rw [zero, List.length_replicate]
      omega
    rw [List.take_append_of_le_length hCut] at hMem
    exact mem_zero (List.mem_of_mem_take hMem)
  · exact mem_zero (List.mem_of_mem_take hMem)

theorem any_mark_content {length : Nat} (hLong : 2 ^ 32 ≤ length) :
    (content length).any mark = true := by
  unfold content
  rw [if_pos hLong, List.any_append]
  exact Bool.or_true _

/- The code finds no mark. -/
theorem hmac_content (hSize : B < 2 ^ 32) (kl tl : Nat) :
    (markInfo B L hB hL).hmac (content kl) (content tl) = some (markDigest L false) := by
  have hText := any_mark_of_zeros (hashedPart_content tl)
  have hInit : NoMarks (markInfo B L hB hL).init := ⟨rfl, rfl⟩
  have hFits : ¬ 2 ^ 32 ≤ (markInfo B L hB hL).B := Nat.not_le_of_lt hSize
  unfold HashInfo.hmac
  rw [if_neg hFits]
  simp only [Option.some.injEq]
  unfold HashInfo.hashkey
  split
  · have hHashed : (markInfo B L hB hL).getdigest ((markInfo B L hB hL).endhash
          ((markInfo B L hB hL).hash (markInfo B L hB hL).init
            (hashedPart (content kl))) (content kl).length) =
          markDigest L false :=
      (hInit.hash (any_mark_of_zeros (hashedPart_content kl))).endhash _
    have hZeros : ∀ b ∈ markDigest L false, b = 0 := by
      intro b hMem
      rcases List.mem_cons.mp hMem with hEq | hIn
      · exact hEq
      · exact mem_zero hIn
    rw [hHashed]
    exact hashtext_no_marks (quietKey_of_zeros hZeros rfl) (quietKey_of_zeros hZeros rfl) hText
  · rename_i hShort
    have hLess : ¬ 2 ^ 32 ≤ kl := by
      rw [length_content] at hShort
      exact fun hLong => hShort (Nat.lt_of_lt_of_le hSize hLong)
    have hZeros : ∀ b ∈ content kl, b = 0 := by
      intro b hMem
      unfold content at hMem
      rw [if_neg hLess] at hMem
      exact mem_zero hMem
    exact hashtext_no_marks (quietKey_of_zeros hZeros rfl) (quietKey_of_zeros hZeros rfl) hText

/- The keyed hash has the mark of a key or of a text. -/
theorem hmacOf_content (hB : 0 < B) (hSize : B < 2 ^ 32) {kl tl : Nat}
    (hLong : 2 ^ 32 ≤ kl ∨ 2 ^ 32 ≤ tl) :
    hmacOf (markHash B L hB) (content kl) (content tl) = markDigest L true := by
  have hFound : ((blockKey (markHash B L hB) (content kl)).map
        (· ^^^ 0x36) ++ content tl).any mark = true := by
    rw [List.any_append]
    rcases hLong with hKey | hText
    · have hHashed : (markHash B L hB).size < (content kl).length := by
        rw [length_content]
        exact Nat.lt_of_lt_of_le hSize hKey
      unfold blockKey
      rw [if_pos hHashed, markHash_hash, any_mark_content hKey]
      rfl
    · rw [any_mark_content hText]
      exact Bool.or_true _
  unfold hmacOf
  rw [markHash_hash, markHash_hash, hFound, List.any_append, any_mark_digest, Bool.or_true]

end Marks

/-
  With blocks of `B` bytes and digests of `L`, for keys and
  texts of these lengths.
-/
def HmacCorrect (B L kl tl : Nat) : Prop :=
  ∀ (hh : HashInfo) (H : IteratedHash Byte), Streams hh H → hh.B = B →
        hh.L = L → ∀ key text : List Byte, key.length = kl →
              text.length = tl → hh.hmac key text = some (hmacOf H key text)

/- A length that is no `unsigned` makes it wrong. -/
theorem not_hmacCorrect {B L kl tl : Nat} (hL : 0 < L) (hDigest : L ≤ B)
    (hLong : 2 ^ 32 ≤ B ∨ 2 ^ 32 ≤ kl ∨ 2 ^ 32 ≤ tl) : ¬ HmacCorrect B L kl tl := by
  intro hCorrect
  have hB : 0 < B := Nat.lt_of_lt_of_le hL hDigest
  have hResult := hCorrect (markInfo B L hB hL) (markHash B L hB)
    (interfaceStreams _ _ _ _ (markRestore_digest L)) rfl rfl
    (content kl) (content tl) (length_content kl)
    (length_content tl)
  rcases Nat.lt_or_ge B (2 ^ 32) with hSize | hSize
  · have hMore : 2 ^ 32 ≤ kl ∨ 2 ^ 32 ≤ tl := hLong.resolve_left (Nat.not_le_of_lt hSize)
    rw [hmac_content hSize, hmacOf_content hB hSize hMore] at hResult
    cases hResult
  · have hEndless : 2 ^ 32 ≤ (markInfo B L hB hL).B := hSize
    unfold HashInfo.hmac at hResult
    rw [if_pos hEndless] at hResult
    cases hResult

/-
  The keyed hash is `H((K xor opad) || H((K xor ipad) || text))`
  just if the sizes of the block, the key and the text are
  values of an `unsigned`.
-/
theorem hmac_correct_iff (B L kl tl : Nat) (hL : 0 < L) (hDigest : L ≤ B) :
    HmacCorrect B L kl tl ↔ B < 2 ^ 32 ∧ kl < 2 ^ 32 ∧ tl < 2 ^ 32 := by
  constructor
  · intro hCorrect
    by_contra hLong
    exact not_hmacCorrect hL hDigest (by omega) hCorrect
  · rintro ⟨hSize, hKey, hText⟩
    intro hh H hStreams hB hLen key text hKl hTl
    exact hmac_eq hStreams (by rw [hB, hLen]; exact hDigest)
      (by rw [hB]; exact hSize) (by rw [hKl]; exact hKey)
      (by rw [hTl]; exact hText)

/- The sizes of MD5, with a key of 100 bytes. -/
theorem hmac_correct_long_key : 0 < 16 ∧ 16 ≤ 64 ∧ (HmacCorrect 64 16 100 3 ↔
        64 < 2 ^ 32 ∧ 100 < 2 ^ 32 ∧ 3 < 2 ^ 32) :=
  ⟨by decide, by decide, hmac_correct_iff 64 16 100 3 (by decide) (by decide)⟩

/- A text of 2^32 bytes is hashed as the empty one. -/
theorem not_hmac_correct : ¬ HmacCorrect 64 16 3 (2 ^ 32) :=
  not_hmacCorrect (by decide) (by decide) (Or.inr (Or.inr (Nat.le_refl _)))

end Wmail.Authlib
