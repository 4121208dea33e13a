import Wmail.Core.Bytes
import Wmail.Core.Chunking
import Wmail.Core.ReturnCode

/-
  Decoding of content transfer encodings (rfc2045cdecode.c).

  The decoders keep undecoded text in `workbuf` and pass
  decoded fragments to the callback.  `sent` records the
  fragments passed so far, oldest first.

  Key definitions include:
    * `Cdecode`
-/

namespace Wmail.Rfc2045

/- The fields of `struct rfc2045` that the decoders use. -/
structure Cdecode where
  workbuf : List Byte
  sent : List (List Byte)
deriving DecidableEq, Repr

namespace Cdecode

/- `(*p->udecode_func)(fragment, ...)`. -/
def udecode (u : Sink Byte) (p : Cdecode) (fragment : List Byte) : Rc Cdecode :=
  (u p.sent fragment, { p with sent := p.sent ++ [fragment] })

/- `rfc2045_add_workbuf`. -/
def addWorkbuf (p : Cdecode) (s : List Byte) : Cdecode :=
  { p with workbuf := p.workbuf ++ s }

/- Everything passed to the callback, joined. -/
def output (p : Cdecode) : List Byte :=
  p.sent.flatten

end Cdecode

/- `decode_raw`. -/
def decodeRaw (u : Sink Byte) (p : Cdecode) (s : Option (List Byte)) : Rc Cdecode :=
  match s with
  | none => (0, p)
  | some s => if s = [] then (0, p) else p.udecode u s

def xdigit : List Byte :=
  bytes "0123456789ABCDEF"

/- `strchr(xdigit, c) - xdigit`. -/
def xdigitValue (c : Byte) : Option Nat :=
  xdigit.idxOf? c

/-
  The loop of `do_decode_qp` over the buffer.  The decoded
  bytes are written behind the reading position, so writing
  does not disturb what is still to be read.
-/
def qpScan : List Byte → List Byte
  | [] => []
  | a :: rest =>
    if a ≠ chr '=' then
      a :: qpScan rest
    else
      match rest with
      | [] => []
      | x :: digits =>
        -- `break`: the rest of the buffer is dropped
        if x = 0 ∨ isspace x then
          []
        else
          match xdigitValue x with
          | none => qpScan (x :: digits)
          | some high =>
            match digits with
            | [] => []
            | y :: after =>
              if y = 0 then
                []
              else
                match xdigitValue y with
                | none => qpScan (y :: after)
                | some low => UInt8.ofNat (high * 16 + low) :: qpScan after

/- `do_decode_qp`. -/
def doDecodeQp (u : Sink Byte) (p : Cdecode) : Rc Cdecode :=
  let (rc, p) := p.udecode u (qpScan p.workbuf)
  (rc, { p with workbuf := [] })

/-
  The fragment that `decode_qp` keeps back when the buffer
  fills up: from the first `=` among the last five bytes.
-/
def heldBack (workbuf : List Byte) : List Byte :=
  (workbuf.drop (workbuf.length - 5)).dropWhile
    (· ≠ chr '=')

/- The bytes before the fragment that is kept back. -/
def keptFront (workbuf : List Byte) : List Byte :=
  workbuf.take (workbuf.length - (heldBack workbuf).length)

/-
  `decode_qp` with a full buffer.  The fragment that is kept
  back is added again as a C string, up to its first NUL.
-/
def decodeQpFull (u : Sink Byte) (p : Cdecode) : Rc Cdecode :=
  if p.workbuf.length > 1024 then
    let buf := heldBack p.workbuf
    (doDecodeQp u
        { p with workbuf := keptFront p.workbuf }).andThen
      fun p => (0, p.addWorkbuf (buf.takeWhile (· ≠ 0)))
  else
    (0, p)

/-
  The outer loop of `decode_qp`.  Every turn but the last
  reads through the next newline, and decodes the line.
-/
def decodeQpLoop (u : Sink Byte) (p : Cdecode) (start s : List Byte) : Rc Cdecode :=
  match s with
  | [] =>
    if start = [] then (0, p) else decodeQpFull u (p.addWorkbuf start)
  | c :: rest =>
    if c ≠ nl then
      decodeQpLoop u p (start ++ [c]) rest
    else
      (doDecodeQp u
          ((p.addWorkbuf start).addWorkbuf [nl])).andThen
        fun p =>
          (decodeQpFull u p).andThen
            fun p => decodeQpLoop u p [] rest

/- `decode_qp`. -/
def decodeQp (u : Sink Byte) (p : Cdecode) (s : Option (List Byte)) : Rc Cdecode :=
  match s with
  | none => doDecodeQp u p
  | some s => decodeQpLoop u p [] s

def base64tab : List Byte :=
  bytes "ABCDEFGHIJKLMNOPQRSTUVWXYZabcdefghijklmnopqrstuvwxyz0123456789+/"

/- The table `decode64tab`. -/
def decode64tab (c : Byte) : Nat :=
  if c = chr '=' then
    99
  else
    match base64tab.idxOf? c with
    | none => 100
    | some i => i

/- One group of four characters in `do_decode_base64`. -/
def decode64Group (c d e f : Byte) : List Byte :=
  let w := decode64tab c
  let x := decode64tab d
  let y := decode64tab e
  let z := decode64tab f
  let a := UInt8.ofNat ((w <<< 2) ||| (x >>> 4))
  let b := UInt8.ofNat ((x <<< 4) ||| (y >>> 2))
  let c := UInt8.ofNat ((y <<< 6) ||| z)
  a :: ((if e ≠ chr '=' then [b] else []) ++ (if f ≠ chr '=' then [c] else []))

/- The decoded text of all complete groups of four. -/
def decode64Groups : List Byte → List Byte
  | c :: d :: e :: f :: rest => decode64Group c d e f ++ decode64Groups rest
  | _ => []

/- The characters after the last complete group. -/
def decode64Rest : List Byte → List Byte
  | _ :: _ :: _ :: _ :: rest => decode64Rest rest
  | rest => rest

/- `decode64tab[c] < 100`: the character is kept. -/
def isBase64 (c : Byte) : Bool :=
  decode64tab c < 100

/-
  `do_decode_base64`.  The return code of the callback is
  not looked at.
-/
def doDecodeBase64 (u : Sink Byte) (p : Cdecode) : Rc Cdecode :=
  let data := p.workbuf.filter isBase64
  let (_rc, p) := p.udecode u (decode64Groups data)
  (0, { p with workbuf := decode64Rest data })

/- `decode_base64`. -/
def decodeBase64 (u : Sink Byte) (p : Cdecode) (s : Option (List Byte)) : Rc Cdecode :=
  match s with
  | none => doDecodeBase64 u p
  | some s =>
    let p := p.addWorkbuf s
    if p.workbuf.length > 256 then doDecodeBase64 u p else (0, p)

/- The values of `decode_func`. -/
inductive DecodeFunc where
  | raw
  | quotedPrintable
  | base64
deriving DecidableEq, Repr

/-
  `rfc2045_cdecode_start`: the decoder that belongs to a
  content transfer encoding.
-/
def cdecodeStart (contentTransferEncoding : Option (List Byte)) : DecodeFunc :=
  match contentTransferEncoding with
  | none => .raw
  | some te =>
    if te = bytes "quoted-printable" then
      .quotedPrintable
    else if te = bytes "base64" then
      .base64
    else
      .raw

/- `(*p->decode_func)(p, s, l)`. -/
def DecodeFunc.decode (func : DecodeFunc) (u : Sink Byte) (p : Cdecode)
    (s : Option (List Byte)) : Rc Cdecode :=
  match func with
  | .raw => decodeRaw u p s
  | .quotedPrintable => decodeQp u p s
  | .base64 => decodeBase64 u p s

/- `rfc2045_cdecode`. -/
def cdecode (func : DecodeFunc) (u : Sink Byte) (p : Cdecode) (s : List Byte) : Rc Cdecode :=
  if s = [] then (0, p) else func.decode u p (some s)

/- `rfc2045_cdecode_end`. -/
def cdecodeEnd (func : DecodeFunc) (u : Sink Byte) (p : Cdecode) : Rc Cdecode :=
  func.decode u p none

/-
  A whole decoding run with a callback that accepts
  everything: the joined text that the callback receives.
-/
def cdecoder (func : DecodeFunc) : Transducer Byte Cdecode (List Byte) where
  init := { workbuf := [], sent := [] }
  feed p s := (cdecode func (Sink.accept Byte) p s).2
  finish p :=
    (cdecodeEnd func (Sink.accept Byte) p).2.output

end Wmail.Rfc2045
