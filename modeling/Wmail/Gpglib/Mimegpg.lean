import Wmail.Authlib.Cram
import Wmail.Core.Fgets
import Wmail.Maildir.Maildirfilter

/-
  Signing a part of a message, and reading the signed content
  of a multipart/signed entity again (mimegpg.c,
  mimegpgstack.c).

  A file is the list of the pieces that `fgets` reads of it.
  Each of them is a C string, so that what is behind a zero
  byte is not seen.

  Key definitions include:
    * `isBoundary`
-/

namespace Wmail.Gpglib

open Authlib (cString)
open Maildir (bufsiz)

/- `struct mimestack`, the innermost boundary first. -/
abbrev MimeStack :=
  List (List Byte)

/- `search_mimestack`. -/
def searchMimestack (s : MimeStack) (c : List Byte) : Option (List Byte) :=
  s.find? fun b => casePrefix b c

/- `pop_mimestack_to`. -/
def popMimestackTo (stack : MimeStack) (b : List Byte) : MimeStack :=
  (stack.dropWhile (· ≠ b)).drop 1

/- `is_boundary`: the boundary, and whether it is closing. -/
def isBoundary (s : MimeStack) (line : List Byte) : Option (List Byte × Bool) :=
  match line with
  | c :: d :: rest =>
    if c ≠ chr '-' || d ≠ chr '-' then
      none
    else
      match searchMimestack s rest with
      | none => none
      | some b =>
        some
          (b, (bytes "--").isPrefixOf (rest.drop b.length))
  | _ => none

/-
  `find_boundary`, with nothing copied: the stack and the
  pieces behind a boundary that is not closing.  `skipping`
  says that the line of a long piece is read to its end.
-/
def findBoundary : Bool → MimeStack → List (List Byte) → Option (MimeStack × List (List Byte))
  | _, _, [] => none
  | true, stack, piece :: rest => findBoundary (nl ∉ piece) stack rest
  | false, stack, piece :: rest =>
    match isBoundary stack (cString piece) with
    | none => findBoundary (nl ∉ cString piece) stack rest
    | some (b, isClosing) =>
      if isClosing then findBoundary false (popMimestackTo stack b) rest else some (stack, rest)

/- What `newboundary` is made of. -/
structure Stamp where
  pid : UInt32
  time : UInt32
  counter : UInt32

/- `%1.128s`. -/
def hostField (hostname : List Byte) : List Byte :=
  if hostname = [] then [chr ' '] else hostname.take 128

/- `%04u`. -/
def counterField (n : Nat) : List Byte :=
  List.replicate (4 - (decimalDigits 10 n).length) (chr '0') ++ decimalDigits 10 n

/- `newboundary`. -/
def newboundary (hostname : List Byte) (stamp : Stamp) : List Byte :=
  bytes "=_mimegpg-" ++ hostField hostname ++ bytes "-" ++
    decimalDigits 10 stamp.pid.toNat ++ bytes "-" ++
    decimalDigits 10 stamp.time.toNat ++ bytes "-" ++
    counterField stamp.counter.toNat

/- A line with two dashes and the boundary. -/
def startsBoundary (boundary line : List Byte) : Bool :=
  (bytes "--").isPrefixOf line &&
    casePrefix boundary (line.drop 2)

/- `good_boundary`. -/
def goodBoundary (boundary : List Byte) (m : MimeStack) (errmsg : List Byte)
    (fp : List (List Byte)) : Bool :=
  (isBoundary m boundary).isNone &&
    ! (errmsg.splitOn nl).any (startsBoundary boundary) &&
    ! fp.any fun piece => startsBoundary boundary (cString piece)

/-
  `get_boundary`: the first good one of the boundaries that
  `newboundary` makes.
-/
def getBoundary (m : MimeStack) (errmsg : List Byte) (fp : List (List Byte))
    (hostname : List Byte) (stamps : List Stamp) : Option (List Byte) :=
  (stamps.map (newboundary hostname)).find? fun boundary => goodBoundary boundary m errmsg fp

/- `encode_header`. -/
def encodeHeader (h : List Byte) : Bool :=
  casePrefix (bytes "content-") h

/- A header with its line ends made those of the network. -/
def signedHeader (h : List Byte) : List Byte :=
  ((cString h).filter (· ≠ cr)).flatMap fun b => if b = nl then [cr, b] else [b]

/- What is written of a piece: the line without its end. -/
def pieceText (piece : List Byte) : List Byte :=
  ((cString piece).takeWhile (· ≠ nl)).filter (· ≠ cr)

/-
  The loop of `dogpgsign` over the content: what it writes,
  the boundary line it ends at, and the pieces behind.
  `needCrlf` says that a line begins.
-/
def signContent (stack : MimeStack) :
    Bool → List (List Byte) → List Byte × Option (List Byte × Bool) × List (List Byte)
  | _, [] => ([], none, [])
  | needCrlf, piece :: rest =>
    match (if needCrlf then
          isBoundary stack (cString piece)
        else
          none) with
    | some b => ([], some b, rest)
    | none =>
      let more :=
        signContent stack (nl ∈ cString piece) rest
      ((if needCrlf then bytes "\r\n" else []) ++ pieceText piece ++ more.1, more.2)

/-
  What `dogpgsign` leaves: the boundary it chose, the text
  that gpg was given, the headers of the entity and its body,
  and the pieces of the input behind the content.
-/
structure Signed where
  boundary : List Byte
  signed : List Byte
  headers : List Byte
  body : List Byte
  rest : List (List Byte)

/- The file with the content to be signed. -/
def signedContent (stack : MimeStack) (h : List (List Byte)) (fpin : List (List Byte)) :
    List Byte :=
  (h.filter encodeHeader).flatMap signedHeader ++
    (signContent stack true fpin).1 ++
    (if stack = [] then bytes "\r\n" else [])

/- The text above the signed part. -/
def signedPreamble : List Byte :=
  bytes "This is a mimegpg-signed message.  If you see this text, it means that\n" ++
    bytes "your E-mail software does not support MIME-formatted messages.\n"

/- The boundary line that the content ended at. -/
def closingLine : Option (List Byte × Bool) → List Byte
  | none => []
  | some (b, closFlag) =>
    bytes "\n--" ++ b ++ (if closFlag then bytes "--" else []) ++
      [nl]

/-
  `dogpgsign`; `gpg` is the signature that gpg makes of a
  text.  The pieces that `find_boundary` copies behind a
  closing boundary are left in `rest`.
-/
def dogpgsign (stack : MimeStack) (h : List (List Byte)) (fpin : List (List Byte))
    (hostname : List Byte) (stamps : List Stamp) (gpg : List Byte → List Byte) : Option Signed :=
  let fp := fgetsAll bufsiz (signedContent stack h fpin)
  match getBoundary stack [] fp hostname stamps with
  | none => none
  | some boundary =>
    let signed := fp.flatMap cString
    some
      { boundary := boundary
        signed := signed
        headers :=
          (h.filter (! encodeHeader ·)).flatMap cString ++
            bytes "Content-Type: multipart/signed;\n" ++
            bytes "    boundary=\"" ++ boundary ++
            bytes "\";\n    micalg=pgp-sha1;" ++
            bytes " protocol=\"application/pgp-signature\"\n\n"
        body :=
          signedPreamble ++
            bytes "\n--" ++ boundary ++ [nl] ++
            fp.flatMap (fun piece => (cString piece).filter (· ≠ cr)) ++
            bytes "\n--" ++ boundary ++ [nl] ++
            bytes "Content-Type: application/pgp-signature\n" ++
            bytes "Content-Transfer-Encoding: 7bit\n\n" ++
            gpg signed ++
            bytes "\n--" ++ boundary ++ bytes "--\n" ++
            closingLine (signContent stack true fpin).2.1
        rest := (signContent stack true fpin).2.2 }

/-
  The loop of `checksign` that collects the signed content.
-/
def collectContent (stack : MimeStack) : Bool → Bool → List (List Byte) → List Byte
  | _, _, [] => []
  | checkBoundary, needNl, piece :: rest =>
    if checkBoundary && (isBoundary stack (cString piece)).isSome then
      []
    else
      (if needNl then bytes "\r\n" else []) ++
        (cString piece).takeWhile (· ≠ nl) ++
        collectContent stack (nl ∈ cString piece) (nl ∈ cString piece) rest

/- `checksign`, as far as the signed content is recovered. -/
def checksign (stack : MimeStack) (fpin : List (List Byte)) : Option (List Byte) :=
  match findBoundary false stack fpin with
  | none => none
  | some (stack, rest) => some (collectContent stack true false rest)

end Wmail.Gpglib
