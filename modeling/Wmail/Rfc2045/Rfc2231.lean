import Wmail.Core.SortedInsert
import Wmail.Maildir.Maildirfilter
import Wmail.Rfc2045.Part

/-
  Parameters that are given in segments (rfc2231.c).

  Key definitions include:
    * `buildAttrList`
-/

namespace Wmail.Rfc2231

open Rfc2045 (Attrs CString)

/- `struct rfc2231param`, in the order of the `next` links. -/
structure Rfc2231param where
  paramnum : Int32
  encoded : Bool
  value : List Byte
deriving DecidableEq, Repr

/- `strchr`, from the byte that is found on. -/
def strchr (s : List Byte) (c : Byte) : Option (List Byte) :=
  match s with
  | [] => none
  | b :: rest => if b = c then some (b :: rest) else strchr rest c

/- `strrchr`. -/
def strrchr (s : List Byte) (c : Byte) : Option (List Byte) :=
  match s with
  | [] => none
  | b :: rest =>
    match strrchr rest c with
    | some found => some found
    | none => if b = c then some (b :: rest) else none

/-
  The name of an attribute is the name of the parameter, with
  a star and more behind it or not.
-/
def ofName (name attrName : List Byte) : Bool :=
  name.isPrefixOf attrName && ((attrName.drop name.length).head? = none ||
      (attrName.drop name.length).head? = some (chr '*'))

/-
  `paramnum`: zero without a star, else one more than the
  number behind it.
-/
def paramnum (p : List Byte) : Int32 :=
  match p with
  | [] => 0
  | _ :: p =>
    let n := Maildir.atoi p + 1
    if n ≤ 0 then 1 else n

/- The node for an attribute with the right name. -/
def paramOf (name attrName attrValue : List Byte) : Rfc2231param where
  paramnum := paramnum (attrName.drop name.length)
  encoded :=
    match strrchr attrName (chr '*') with
    | some [_] => true
    | _ => false
  value := attrValue

/- `rfc2231_buildAttrList`. -/
def buildAttrList (paramList : List Rfc2231param) (name attrName attrValue : List Byte) :
    List Rfc2231param :=
  if ofName name attrName then
    insertByKey (·.paramnum.toInt) (paramOf name attrName attrValue) paramList
  else
    paramList

/- `rfc2231_paramCreate`. -/
def paramCreate (attr : Attrs) (name : List Byte) : List Rfc2231param :=
  attr.foldl (fun paramList a => buildAttrList paramList name a.1 a.2) []

/- A buffer, or a null pointer, and the length that is counted. -/
structure Stored where
  ptr : CString
  len : Nat
deriving DecidableEq, Repr

/- One byte is stored, if there is a buffer, and counted. -/
def Stored.put (f : Stored) (b : Byte) : Stored where
  ptr := f.ptr.map (· ++ [b])
  len := f.len + 1

/- The null byte at the end is counted from the start on. -/
def Stored.terminate (f : Stored) : Stored :=
  { f with ptr := f.ptr.map (· ++ [0]) }

/- The results of `rfc2231_paramDecode`. -/
structure Decoded where
  charset : Stored
  lang : Stored
  text : Stored
deriving DecidableEq, Repr

/- `nyb`. -/
def nyb (c : Byte) : Nat :=
  match (bytes "0123456789ABCDEFabcdef").idxOf? c with
  | none => 0
  | some n => if 16 ≤ n then n - 6 else n

/- The loop up to a quote; the quote is there. -/
def copyToQuote (f : Stored) : List Byte → Stored × List Byte
  | [] => (f, [])
  | b :: p => if b = chr '\'' then (f, b :: p) else copyToQuote (f.put b) p

/- The loop over the text of a segment. -/
def copyText (encoded : Bool) (f : Stored) : List Byte → Stored
  | [] => f
  | [b] => f.put b
  | [b, c] => (f.put b).put c
  | b :: c :: d :: p =>
    if b = chr '%' ∧ encoded then
      copyText encoded (f.put (UInt8.ofNat (nyb c * 16 + nyb d))) p
    else
      copyText encoded (f.put b) (c :: d :: p)

/-
  The start of the first segment, when it is encoded: the
  character set and the language, if both quotes are there.
-/
def copyPrefix (d : Decoded) (p : List Byte) : Decoded × List Byte :=
  match strchr p (chr '\'') with
  | some (_ :: q) =>
    if (strchr q (chr '\'')).isSome then
      let (charset, p) := copyToQuote d.charset p
      let (lang, p) := copyToQuote d.lang (p.drop 1)
      ({ d with charset, lang }, p.drop 1)
    else
      (d, p)
  | _ => (d, p)

/- The loop over the segments. -/
def decodeParams (first : Bool) (d : Decoded) : List Rfc2231param → Decoded
  | [] => d
  | param :: paramList =>
    let (d, p) :=
      if first && param.encoded then copyPrefix d param.value else (d, param.value)
    decodeParams false { d with text := copyText param.encoded d.text p } paramList

/- A parameter without segments, where there are segments too. -/
def betterParams : List Rfc2231param → List Rfc2231param
  | plain :: next :: paramList =>
    if plain.paramnum = 0 then next :: paramList else plain :: next :: paramList
  | paramList => paramList

/- `rfc2231_paramDecode`. -/
def paramDecode (paramList : List Rfc2231param) (charsetPtr langPtr textPtr : CString) :
    Decoded :=
  let d := decodeParams true ⟨⟨charsetPtr, 1⟩, ⟨langPtr, 1⟩, ⟨textPtr, 1⟩⟩ (betterParams paramList)
  ⟨d.charset.terminate, d.lang.terminate, d.text.terminate⟩

end Wmail.Rfc2231
