import Wmail.Rfc2045.ParamSegments

/-
  Writing a parameter with a character set
  (rfc2231encode.c).

  Key theorems include:
    * `attrCreate_eq`
    * `percentDecoded_encodedText`
-/

namespace Wmail.Rfc2231

open Rfc2045 (CString)

/- `xdigit`. -/
def xdigit : List Byte :=
  bytes "0123456789ABCDEFabcdef"

/- `DOENCODE`; a signed `char` from 128 on is below a blank. -/
def attrDoencode (c : Byte) : Bool :=
  (bytes "'\"\\%:;=").contains c || c ≤ chr ' ' || 127 ≤ c

/- The loop that writes the value. -/
def encodeLoop (f : Stored) : List Byte → Stored
  | [] => f
  | c :: value =>
    if attrDoencode c then
      encodeLoop (((f.put (chr '%')).put (xdigit.getD (c.toNat / 16) 0)).put
            (xdigit.getD (c.toNat % 16) 0))
        value
    else
      encodeLoop (f.put c) value

/-
  `rfc2231_attrCreate`: what is written, if there is a buffer,
  and the length with the null byte.
-/
def attrCreate (name value charset : List Byte) (strPtr : CString) (language : CString) :
    Stored :=
  let f : Stored := ⟨strPtr, 0⟩
  if value.any attrDoencode then
    let f := ((f.puts name).put (chr '*')).put (chr '=')
    let f := (f.puts charset).put (chr '\'')
    let f := (f.puts (language.getD [])).put (chr '\'')
    (encodeLoop f value).put 0
  else
    -- no need to encode
    (((f.puts name).put (chr '=')).puts value).put 0

/- One byte of a value, escaped where it has to be. -/
def encodedByte (c : Byte) : List Byte :=
  if attrDoencode c then
    [chr '%', xdigit.getD (c.toNat / 16) 0, xdigit.getD (c.toNat % 16) 0]
  else
    [c]

def encodedText (value : List Byte) : List Byte :=
  value.flatMap encodedByte

/- The parameter without the null byte. -/
def attrText (name value charset : List Byte) (language : CString) : List Byte :=
  if value.any attrDoencode then
    name ++ chr '*' :: chr '=' :: (charset ++ chr '\'' ::
      (language.getD [] ++ chr '\'' :: encodedText value))
  else
    name ++ chr '=' :: value

@[simp] theorem encodedText_nil : encodedText [] = [] :=
  rfl

theorem encodedText_cons (c : Byte) (value : List Byte) :
    encodedText (c :: value) = encodedByte c ++ encodedText value :=
  rfl

/- A value that needs no escapes is written as it is. -/
theorem encodedText_plain {value : List Byte} (hPlain : value.any attrDoencode = false) :
    encodedText value = value := by
  induction value with
  | nil => rfl
  | cons c value ih =>
    rw [List.any_cons, Bool.or_eq_false_iff] at hPlain
    rw [encodedText_cons, encodedByte, hPlain.1, if_neg Bool.false_ne_true, ih hPlain.2]
    rfl

theorem encodeLoop_eq (f : Stored) (value : List Byte) :
    encodeLoop f value = f.puts (encodedText value) := by
  induction value generalizing f with
  | nil => exact (Stored.puts_nil f).symm
  | cons c value ih =>
    rw [encodeLoop, encodedText_cons, encodedByte]
    cases attrDoencode c with
    | true =>
      rw [if_pos rfl, if_pos rfl, ih]
      simp only [List.cons_append, List.nil_append, Stored.puts_cons]
    | false =>
      rw [if_neg Bool.false_ne_true, if_neg Bool.false_ne_true, ih]
      simp only [List.singleton_append, Stored.puts_cons]

theorem Stored.put_eq (f : Stored) (b : Byte) : f.put b = f.puts [b] := by
  rw [Stored.puts_cons, Stored.puts_nil]

/- With a buffer or without one, the length is the same. -/
theorem attrCreate_eq (name value charset : List Byte) (strPtr language : CString) :
    attrCreate name value charset strPtr language = Stored.puts ⟨strPtr, 0⟩
        (attrText name value charset language ++ [0]) := by
  unfold attrCreate attrText
  cases value.any attrDoencode with
  | true =>
    simp only [if_true, encodeLoop_eq, Stored.put_eq, ← Stored.puts_append, List.append_assoc,
      List.cons_append, List.nil_append]
  | false =>
    simp only [Bool.false_eq_true, if_false, Stored.put_eq, ← Stored.puts_append, List.append_assoc,
      List.cons_append, List.nil_append]

/- What is written of a byte. -/
theorem encodedByte_cases : ∀ c : Byte, (attrDoencode c = true ∧
        UInt8.ofNat (nyb (xdigit.getD (c.toNat / 16) 0) * 16 +
          nyb (xdigit.getD (c.toNat % 16) 0)) = c) ∨
      (attrDoencode c = false ∧ c ≠ chr '%') := by
  apply byte_forall
  decide +kernel

theorem percentDecoded_plain {c : Byte} (hPlain : c ≠ chr '%') (text : List Byte) :
    percentDecoded (c :: text) = c :: percentDecoded text := by
  match text with
  | [] => rfl
  | [_] => rfl
  | _ :: _ :: _ => rw [percentDecoded, if_neg hPlain]

/- The decoder undoes the escapes. -/
theorem percentDecoded_encodedText (value : List Byte) :
    percentDecoded (encodedText value) = value := by
  induction value with
  | nil => rfl
  | cons c value ih =>
    rw [encodedText_cons, encodedByte]
    rcases encodedByte_cases c with ⟨hEncode, hByte⟩ | ⟨hPlain, hOther⟩
    · rw [if_pos hEncode, List.cons_append, List.cons_append, List.cons_append, List.nil_append,
        percentDecoded, if_pos rfl, hByte, ih]
    · rw [hPlain, if_neg Bool.false_ne_true, List.singleton_append, percentDecoded_plain hOther, ih]

end Wmail.Rfc2231
