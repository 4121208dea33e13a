import Wmail.Core.Bytes
import Wmail.Core.Chunking
import Wmail.Core.ReturnCode

/-
  Encoding for transfer (rfc2045encode.c).

  The encoders collect their output in `output_buffer`,
  which goes to the callback whenever it is full and more
  output arrives.  `sent` records the fragments that the
  callback was given, oldest first.

  Key definitions include:
    * `EncodeInfo`
-/

namespace Wmail.Rfc2045

/- The size of `output_buffer`. -/
def BUFSIZ : Nat :=
  8192

/-
  `struct rfc2045_encode_info`.  The base64 encoder keeps
  `input_buf_cnt` bytes in `input_buffer`, and the list
  carries its own count; `inputBufCnt` is the count that the
  quoted-printable encoder keeps of the current line.
-/
structure EncodeInfo where
  outputBuffer : List Byte
  inputBuffer : List Byte
  inputBufCnt : Nat
  sent : List (List Byte)
deriving DecidableEq, Repr

namespace EncodeInfo

/- Pass the whole `output_buffer` to the callback. -/
def callback (u : Sink Byte) (info : EncodeInfo) : Rc EncodeInfo :=
  (u info.sent info.outputBuffer,
    { info with
      outputBuffer := []
      sent := info.sent ++ [info.outputBuffer] })

/- The output so far, passed on or still buffered. -/
def output (info : EncodeInfo) : List Byte :=
  info.sent.flatten ++ info.outputBuffer

end EncodeInfo

/-
  `eflush`, which copies into `output_buffer` and empties it
  through the callback when there is no room.
-/
def eflush (u : Sink Byte) (info : EncodeInfo) (ptr : List Byte) : Rc EncodeInfo :=
  match ptr with
  | [] => (0, info)
  | c :: rest =>
    (if info.outputBuffer.length = BUFSIZ then
      info.callback u
    else
      (0, info)).andThen
      fun info =>
        eflush u
          { info with
            outputBuffer := info.outputBuffer ++ [c] }
          rest

def base64Alphabet : List Byte :=
  bytes "ABCDEFGHIJKLMNOPQRSTUVWXYZabcdefghijklmnopqrstuvwxyz0123456789+/"

/- `base64tab[i]`. -/
def base64Char (i : Nat) : Byte :=
  base64Alphabet.getD i 0

/-
  The loop of `base64_flush`: four characters for every
  three bytes, with missing bytes read as zero.
-/
def base64Groups : List Byte → List Byte
  | [] => []
  | a :: rest =>
    let b := rest.getD 0 0
    let c := rest.getD 1 0
    let d := base64Char (a.toNat >>> 2)
    let e :=
      base64Char (((a.toNat &&& 3) <<< 4) ||| (b.toNat >>> 4))
    let f :=
      base64Char (((b.toNat &&& 15) <<< 2) ||| (c.toNat >>> 6))
    let g := base64Char (c.toNat &&& 63)
    match rest with
    | [] => [d, e, chr '=', chr '=']
    | [_] => [d, e, f, chr '=']
    | _ :: _ :: rest => d :: e :: f :: g :: base64Groups rest

/- `base64_flush`. -/
def base64Flush (u : Sink Byte) (info : EncodeInfo) : Rc EncodeInfo :=
  eflush u { info with inputBuffer := [] } (base64Groups info.inputBuffer ++ [nl])

/- The size of `input_buffer`. -/
def inputBufferSize : Nat :=
  57

/- The copying loop of `base64`. -/
def base64Loop (u : Sink Byte) (info : EncodeInfo) (buf : List Byte) : Rc EncodeInfo :=
  match buf with
  | [] => (0, info)
  | c :: rest =>
    (if info.inputBuffer.length = inputBufferSize then
      base64Flush u info
    else
      (0, info)).andThen
      fun info =>
        base64Loop u
          { info with
            inputBuffer := info.inputBuffer ++ [c] }
          rest

/- `base64`; a null buffer ends the text. -/
def base64 (u : Sink Byte) (info : EncodeInfo) (buf : Option (List Byte)) : Rc EncodeInfo :=
  match buf with
  | none =>
    if info.inputBuffer ≠ [] then base64Flush u info else (0, info)
  | some buf => base64Loop u info buf

/- The encoder state with the local buffer of a call. -/
structure QpLocal where
  info : EncodeInfo
  localBuf : List Byte
deriving DecidableEq, Repr

/- The size of `local_buf`. -/
def localBufSize : Nat :=
  256

/- The macro `QPUT`. -/
def qput (u : Sink Byte) (q : QpLocal) (c : Byte) : Rc QpLocal :=
  if q.localBuf.length = localBufSize then
    let (rc, info) := eflush u q.info q.localBuf
    if rc ≠ 0 then (rc, { info, localBuf := [] }) else (0, { info, localBuf := [c] })
  else
    (0, { q with localBuf := q.localBuf ++ [c] })

/- Set the count of the current line. -/
def QpLocal.setCnt (q : QpLocal) (n : Nat) : QpLocal :=
  { q with info := { q.info with inputBufCnt := n } }

/- `xdigit[i]`. -/
def hexDigit (i : Nat) : Byte :=
  (bytes "0123456789ABCDEF").getD i 0

/- `*p < ' ' || *p == '=' || *p >= 0x7F`, `char` signed. -/
def qpEscaped (c : Byte) : Bool :=
  c < 32 || c = chr '=' || 127 ≤ c

/- The soft line break before a byte, when one is due. -/
def qpSoftBreak (u : Sink Byte) (q : QpLocal) (c : Byte) : Rc QpLocal :=
  if q.info.inputBufCnt > 72 ∧ c ≠ nl then
    (qput u q (chr '=')).andThen fun q =>
      (qput u q nl).andThen fun q => (0, q.setCnt 0)
  else
    (0, q)

/- One byte of the input of `quoted_printable`. -/
def qpByte (u : Sink Byte) (q : QpLocal) (c : Byte) : Rc QpLocal :=
  (qpSoftBreak u q c).andThen fun q =>
    if c = nl then
      qput u (q.setCnt 0) c
    else if qpEscaped c then
      (qput u q (chr '=')).andThen fun q =>
        (qput u q (hexDigit (c.toNat >>> 4 &&& 15))).andThen
          fun q =>
            (qput u q (hexDigit (c.toNat &&& 15))).andThen
              fun q => (0, q.setCnt (q.info.inputBufCnt + 3))
    else
      qput u (q.setCnt (q.info.inputBufCnt + 1)) c

/- The loop of `quoted_printable`. -/
def qpLoop (u : Sink Byte) (q : QpLocal) (p : List Byte) : Rc QpLocal :=
  match p with
  | [] => (0, q)
  | c :: rest => (qpByte u q c).andThen fun q => qpLoop u q rest

/- `quoted_printable`. -/
def quotedPrintable (u : Sink Byte) (info : EncodeInfo) (p : Option (List Byte)) :
    Rc EncodeInfo :=
  match p with
  | none => (0, info)
  | some p =>
    let (rc, q) := qpLoop u { info, localBuf := [] } p
    if rc ≠ 0 then
      (rc, q.info)
    else if q.localBuf ≠ [] then
      eflush u q.info q.localBuf
    else
      (0, q.info)

/- The values of `encoding_func`. -/
inductive EncodingFunc where
  | quotedPrintable
  | base64
  | eflush
deriving DecidableEq, Repr

/-
  `rfc2045_encode_start`: the first character of the name of
  the transfer encoding selects the encoder.
-/
def encodeStart (transferEncoding : List Byte) : EncodingFunc :=
  match transferEncoding with
  | [] => .eflush
  | c :: _ =>
    if c = chr 'q' ∨ c = chr 'Q' then
      .quotedPrintable
    else if c = chr 'b' ∨ c = chr 'B' then
      .base64
    else
      .eflush

/- `(*info->encoding_func)(info, ptr, cnt)`. -/
def EncodingFunc.apply (func : EncodingFunc) (u : Sink Byte) (info : EncodeInfo)
    (ptr : Option (List Byte)) : Rc EncodeInfo :=
  match func with
  | .quotedPrintable => Rfc2045.quotedPrintable u info ptr
  | .base64 => Rfc2045.base64 u info ptr
  | .eflush => Rfc2045.eflush u info (ptr.getD [])

/- `rfc2045_encode`. -/
def encode (func : EncodingFunc) (u : Sink Byte) (info : EncodeInfo) (ptr : List Byte) :
    Rc EncodeInfo :=
  func.apply u info (some ptr)

/- `rfc2045_encode_end`. -/
def encodeEnd (func : EncodingFunc) (u : Sink Byte) (info : EncodeInfo) : Rc EncodeInfo :=
  (func.apply u info none).andThen fun info =>
    if info.outputBuffer ≠ [] then info.callback u else (0, info)

/-
  A whole encoding run with a callback that accepts
  everything: the joined text that the callback receives.
-/
def encoder (func : EncodingFunc) : Transducer Byte EncodeInfo (List Byte) where
  init :=
    { outputBuffer := []
      inputBuffer := []
      inputBufCnt := 0
      sent := [] }
  feed info ptr := (encode func (Sink.accept Byte) info ptr).2
  finish info :=
    (encodeEnd func (Sink.accept Byte) info).2.sent.flatten

end Wmail.Rfc2045
