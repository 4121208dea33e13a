import Wmail.Core.Bytes
import Mathlib.Data.List.DropRight

/-
  Encoded words in header text (rfc2047.c).

  A C string is the list of its bytes, without the NUL.  The
  callbacks that collect text never fail, so the decoder
  gives the pieces it passes to its callback, and the encoder
  gives the text it passes, joined.

  Key definitions include:
    * `Piece`
-/

namespace Wmail.Rfc822

/- What the decoder passes to its callback. -/
structure Piece where
  text : List Byte
  chset : Option (List Byte)
  lang : Option (List Byte)
deriving DecidableEq, Repr

def xdigit : List Byte :=
  bytes "0123456789ABCDEF"

/- `nyb`. -/
def nyb (c : Byte) : Nat :=
  (xdigit.idxOf? (toupper c)).getD 0

/- An underscore stands for a blank. -/
def unscore (c : Byte) : Byte :=
  if c = chr '_' then chr ' ' else c

/- The loop over the text of a `Q` word. -/
def decodeQ : List Byte → List Byte
  | [] => []
  | [c] => [unscore c]
  | [c, d] => [unscore c, unscore d]
  | c :: a :: b :: rest =>
    if c = chr '=' then
      UInt8.ofNat (nyb a * 16 + nyb b) :: decodeQ rest
    else
      unscore c :: decodeQ (a :: b :: rest)

def base64Chars : List Byte :=
  bytes "ABCDEFGHIJKLMNOPQRSTUVWXYZ" ++ bytes "abcdefghijklmnopqrstuvwxyz0123456789+/"

/- `decode64tab`. -/
def decode64tab (c : Byte) : Byte :=
  if c = chr '=' then 99 else UInt8.ofNat ((base64Chars.idxOf? c).getD 0)

/- `decodebase64`; what is left after the groups of four is
  not decoded. -/
def decodebase64 : List Byte → List Byte
  | p :: q :: r :: s :: rest =>
    let w := decode64tab p
    let x := decode64tab q
    let y := decode64tab r
    let z := decode64tab s
    (w <<< 2 ||| x >>> 4) ::
      ((if r = chr '=' then [] else [x <<< 4 ||| y >>> 2]) ++
        ((if s = chr '=' then [] else [y <<< 6 ||| z]) ++ decodebase64 rest))
  | _ => []

/- The text before `=?`. -/
def plainText : List Byte → List Byte
  | [] => []
  | c :: rest =>
    if c = chr '=' ∧ rest.head? = some (chr '?') then [] else c :: plainText rest

/- `rfc2047_search_quote`, and where it stops. -/
def rfc2047SearchQuote (text : List Byte) : List Byte × List Byte :=
  text.span (· ≠ chr '?')

/- The text of an encoded word. -/
def decodeText (encoding enctext : List Byte) : List Byte :=
  if encoding = bytes "Q" ∨ encoding = bytes "q" then
    decodeQ enctext
  else if encoding = bytes "B" ∨ encoding = bytes "b" then
    decodebase64 enctext
  else
    enctext

/- The character set of a word, and its language if any. -/
def splitLang (chset : List Byte) : List Byte × Option (List Byte) :=
  if chset.contains (chr '*') then
    let lang :=
      (chset.reverse.takeWhile (· ≠ chr '*')).reverse
    (chset.take (chset.length - (lang.length + 1)), some lang)
  else
    (chset, none)

/- One encoded word, behind its `=?`, and what follows. -/
def decodeWord (text : List Byte) : Piece × List Byte :=
  let (chset, text) := rfc2047SearchQuote text
  let (encoding, text) := rfc2047SearchQuote (text.drop 1)
  let (enctext, text) := rfc2047SearchQuote (text.drop 1)
  let text :=
    if (bytes "?=").isPrefixOf text then text.drop 2 else text
  let (name, lang) := splitLang chset
  -- the callback gets the text up to the first NUL
  (⟨(decodeText encoding enctext).takeWhile (· ≠ 0), some name, lang⟩, text)

/-
  The loop of `rfc2047_decode`.  Every round goes over at
  least one byte, so a `fuel` of the length is enough.
-/
def decodeLoop : Nat → Bool → List Byte → List Piece
  | 0, _, _ => []
  | _ + 1, _, [] => []
  | fuel + 1, hadLastWord, c :: rest =>
    if c = chr '=' ∧ rest.head? = some (chr '?') then
      let (piece, text) := decodeWord (rest.drop 1)
      piece :: decodeLoop fuel true text
    else
      let p := plainText (c :: rest)
      let had := hadLastWord && p.all isspace
      (if had then [] else [⟨p, none, none⟩]) ++ decodeLoop fuel had ((c :: rest).drop p.length)

/- `rfc2047_decode`. -/
def rfc2047Decode (text : List Byte) : List Piece :=
  decodeLoop text.length false text

/- `rfc2047_decode_simple`. -/
def rfc2047DecodeSimple (text : List Byte) : List Byte :=
  (rfc2047Decode text).flatMap Piece.text

/- `DOENCODE`. -/
def doencode (b : Byte) : Bool :=
  128 ≤ b || b = chr '"' || b = chr '='

/- `ISSPACE`. -/
def blank (b : Byte) : Bool :=
  b < 128 && isspace b

/- A character that is not itself in an encoded word. -/
def special (b : Byte) : Bool :=
  128 ≤ b || b = chr '"' || b = chr ' ' || b = chr '_' || b = chr '=' || b = chr '?'

/- How a special character is written in an encoded word. -/
def encodeSpecial (b : Byte) : List Byte :=
  if b = chr ' ' then
    bytes "_"
  else
    [chr '=', xdigit.getD (b.toNat / 16) 0, xdigit.getD (b.toNat % 16) 0]

/-
  The words that are encoded together, from the start of a
  word on.  Every round goes over a blank at least.
-/
def encodedRun : Nat → List Byte → List Byte
  | 0, str => str
  | fuel + 1, str =>
    let word := str.takeWhile (!blank ·)
    let rest := str.dropWhile (!blank ·)
    let gap := rest.takeWhile blank
    let next := (rest.dropWhile blank).takeWhile fun b => !blank b && !doencode b
    let more := (rest.dropWhile blank).dropWhile fun b => !blank b && !doencode b
    match more with
    | [] => word
    | b :: _ =>
      if blank b then word else word ++ (gap ++ (next ++ encodedRun fuel more))

/-
  The characters that one round of that loop goes over: a
  special one, or plain ones as far as there is room.
-/
def nextChunk (c : Nat) (b : Byte) (rest : List Byte) : List Byte :=
  if special b then [b] else ((b :: rest).takeWhile (!special ·)).take (50 - c)

/- What the round writes for them. -/
def chunkText (c : Nat) (b : Byte) (rest : List Byte) : List Byte :=
  if special b then encodeSpecial b else nextChunk c b rest

/-
  The loop that writes encoded words; `c` is the length of
  the current word.  It gives nothing when it does not end:
  a word without room for one character goes on for ever.
-/
def encodeWords (charset : List Byte) : Nat → Nat → List Byte → Option (List Byte)
  | _, _, [] => some []
  | 0, _, _ :: _ => none
  | fuel + 1, c, b :: rest =>
    let opening :=
      if c = 0 then bytes "=?" ++ charset ++ bytes "?Q?" else []
    let c := if c = 0 then charset.length + 5 else c
    let text := chunkText c b rest
    let str := (b :: rest).drop (nextChunk c b rest).length
    if str = [] ∨ 50 ≤ c + text.length then
      let closing :=
        if str = [] then bytes "?=" else bytes "?= "
      (encodeWords charset fuel 0 str).map fun more => opening ++ text ++ closing ++ more
    else
      (encodeWords charset fuel (c + text.length) str).map
        fun more => opening ++ text ++ more

/-
  The loop of `rfc2047_encode_callback`.  Every round goes
  over at least one byte.
-/
def encodeLoop (charset : List Byte) : Nat → List Byte → Option (List Byte)
  | _, [] => some []
  | 0, _ :: _ => none
  | fuel + 1, str =>
    if str.any doencode then
      let front := str.takeWhile (!doencode ·)
      let raw := front.rdropWhile (!blank ·)
      let word := str.drop raw.length
      let run := encodedRun word.length word
      match encodeWords charset run.length 0 run with
      | none => none
      | some words =>
        (encodeLoop charset fuel
          (word.drop run.length)).map
            fun more => raw ++ words ++ more
    else
      some str

/- `rfc2047_encode_str`. -/
def rfc2047EncodeStr (str charset : List Byte) : Option (List Byte) :=
  encodeLoop charset str.length str

end Wmail.Rfc822
