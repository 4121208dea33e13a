import Wmail.Rfc822.Address

/-
  The parts of a MIME message (rfc2045.h) and what one header
  line does to its part (`do_header` of rfc2045.c).

  Parts refer to each other by their position in the list of
  all parts, which is the order of their creation.

  Key definitions include:
    * `Part`
-/

namespace Wmail.Rfc2045

open Rfc822

/- A null pointer, or a C string. -/
abbrev CString :=
  Option (List Byte)

/- `struct rfc2045attr`, in the order of the `next` links. -/
abbrev Attrs :=
  List (List Byte × List Byte)

/- The bits of `rfcviolation`. -/
structure Violation where
  err8bitheader : Bool
  err8bitcontent : Bool
  err2complex : Bool
  errbadboundary : Bool
deriving DecidableEq, Repr

/- The links of a part, and its number among its siblings. -/
structure PartLinks where
  parent : Option Nat
  pindex : Nat
  lastpart : Option Nat
  workclosed : Bool
deriving DecidableEq, Repr

/- Where a part is in the message. -/
structure PartCounts where
  startpos : Nat
  endpos : Nat
  startbody : Nat
  endbody : Nat
  nlines : Nat
  nbodylines : Nat
deriving DecidableEq, Repr

/- What the header of a part says. -/
structure MimeInfo where
  mimeVersion : CString
  contentType : CString
  contentTypeAttr : Attrs
  contentDisposition : CString
  boundary : CString
  contentDispositionAttr : Attrs
  contentTransferEncoding : CString
  content8bit : Bool
  contentId : CString
  contentDescription : CString
  contentLanguage : CString
  contentMd5 : CString
  contentBase : CString
  contentLocation : CString
deriving DecidableEq, Repr

/- What rewriting knows about a part. -/
structure PartScan where
  has8bitchars : Bool
  haslongline : Bool
  rwTransferEncoding : CString
deriving DecidableEq, Repr

/-
  `struct rfc2045`.  The children of a part are the parts
  with that `parent`, in their order, and `lastpart` is the
  last of them.
-/
structure Part extends PartLinks, PartCounts, MimeInfo, PartScan where
  rfcviolation : Violation
  workinheader : Bool
  isdummy : Bool
  informdata : Bool
  header : List Byte
deriving DecidableEq, Repr

/- `rfc2045_alloc`. -/
def Part.alloc : Part where
  parent := none
  pindex := 1
  lastpart := none
  workclosed := false
  startpos := 0
  endpos := 0
  startbody := 0
  endbody := 0
  nlines := 0
  nbodylines := 0
  mimeVersion := none
  contentType := none
  contentTypeAttr := []
  contentDisposition := none
  boundary := none
  contentDispositionAttr := []
  contentTransferEncoding := none
  content8bit := false
  contentId := none
  contentDescription := none
  contentLanguage := none
  contentMd5 := none
  contentBase := none
  contentLocation := none
  has8bitchars := false
  haslongline := false
  rwTransferEncoding := none
  rfcviolation := ⟨false, false, false, false⟩
  workinheader := true
  isdummy := false
  informdata := false
  header := []

/- The value of a run of decimal digits. -/
def digitsValue : Nat → List Byte → Nat
  | value, [] => value
  | value, c :: rest =>
    if 48 ≤ c ∧ c ≤ 57 then digitsValue (value * 10 + (c.toNat - 48)) rest else value

/- `atoi`, where the value fits into an `int`. -/
def atoi (s : List Byte) : Int :=
  match s.dropWhile isspace with
  | [] => 0
  | c :: rest =>
    if c = chr '-' then
      - (digitsValue 0 rest : Int)
    else if c = chr '+' then
      digitsValue 0 rest
    else
      digitsValue 0 (c :: rest)

/- `RFC2045_ISMIME1`. -/
def isMime1 (p : CString) : Bool :=
  match p with
  | none => false
  | some version => atoi version = 1

/- `RFC2045_ISMIME1DEF`. -/
def isMime1Def (p : CString) : Bool :=
  match p with
  | none => true
  | some version => atoi version = 1

/- `rfc2045_getattr`. -/
def getattr (p : Attrs) (name : List Byte) : CString :=
  p.lookup name

/- `rfc2045_setattr` with a value. -/
def setattr (p : Attrs) (name val : List Byte) : Attrs :=
  match p with
  | [] => [(name, val)]
  | (other, old) :: rest =>
    if other = name then (other, val) :: rest else (other, old) :: setattr rest name val

/-
  `rfc2045_setattr`, where a null value takes the attribute
  away.
-/
def setattrOpt (p : Attrs) (name : List Byte) (val : CString) : Attrs :=
  match val with
  | some val => setattr p name val
  | none => p.eraseP (fun attr => attr.1 = name)

/- `paste_tokens`: comments are ignored. -/
def pasteTokens (ts : List Token) : List Byte :=
  ts.flatMap fun t =>
    if t.token = chr '(' then
      []
    else if isAtom t.token then
      t.text
    else
      [t.token]

/- `lower_paste_tokens`. -/
def lowerPasteTokens (ts : List Token) : List Byte :=
  (pasteTokens ts).map tolower

/-
  The loop of `parse_content_header` over the parameters,
  which calls `init_parameter` for every `<atom>=`.
-/
def parseParameters {α : Type} (inReformime : Bool)
    (initParameter : α → List Byte → List Token → α) : Nat → α → List Token → α
  | 0, r, _ => r
  | _ + 1, r, [] => r
  | fuel + 1, r, first :: others =>
    let ts := first :: others
    let i := (ts.takeWhile (·.token != chr ';')).length
    let name := ts.take i
    let comments :=
      (name.drop 1).takeWhile (·.token = chr '(')
    let j := 1 + comments.length
    if ((name.drop j).head?.map (·.token)) = some (chr '=') then
      let j := j + 1
      -- loose parsing: the value ends with a quoted string
      let i :=
        if inReformime ∧ ((name.drop j).head?.map (·.token)) = some (chr '"') then j + 1 else i
      parseParameters inReformime initParameter fuel (initParameter r (lowerPasteTokens [first])
          ((ts.take i).drop j))
        (ts.drop (i + 1))
    else
      parseParameters inReformime initParameter fuel r (ts.drop (i + 1))

/- `parse_content_header`, from the third token on. -/
def parseContentHeader {α : Type} (inReformime : Bool) (initToken : α → List Byte → α)
    (initParameter : α → List Byte → List Token → α) (r : α) (ts : List Token) : α :=
  let value := ts.takeWhile (·.token != chr ';')
  parseParameters inReformime initParameter ts.length (initToken r (lowerPasteTokens value))
    (ts.drop (value.length + 1))

/- One of the two boundaries begins with the other. -/
def boundariesOverlap (a b : List Byte) : Bool :=
  a.isPrefixOf b || b.isPrefixOf a

/-
  `save_content_type_parameter`.  `outer` holds the boundaries
  of the enclosing parts, and the flag is set when the new
  boundary is ambiguous with one of them.
-/
def saveContentTypeParameter (outer : List (List Byte)) (r : MimeInfo × Bool)
    (name : List Byte) (value : List Token) : MimeInfo × Bool :=
  let p :=
    if name = bytes "charset" then lowerPasteTokens value else pasteTokens value
  let info :=
    { r.1 with
        contentTypeAttr :=
          setattr r.1.contentTypeAttr name p }
  if name = bytes "boundary" then
    let p := lowerPasteTokens value
    ({ info with boundary := some p }, r.2 || outer.any (fun q => boundariesOverlap q p))
  else
    (info, r.2)

/- `content_type`. -/
def contentType (inReformime : Bool) (outer : List (List Byte)) (r : MimeInfo)
    (ts : List Token) : MimeInfo × Bool :=
  parseContentHeader inReformime (fun r contentType =>
      ({ r.1 with contentType := some contentType }, r.2))
    (saveContentTypeParameter outer) (r, false) ts

/- `content_transfer_encoding`. -/
def contentTransferEncoding (r : MimeInfo) (ts : List Token) : MimeInfo :=
  let p := lowerPasteTokens ts
  { r with
      contentTransferEncoding := some p
      content8bit :=
        if p = bytes "8bit" then true else r.content8bit }

/- `content_disposition`. -/
def contentDisposition (inReformime : Bool) (r : MimeInfo) (ts : List Token) : MimeInfo :=
  parseContentHeader inReformime (fun r disposition =>
      { r with contentDisposition := some disposition })
    (fun r name value =>
      { r with
          contentDispositionAttr :=
            setattr r.contentDispositionAttr name
              (pasteTokens value) })
    r ts

/- `content_id`: the first address of the whole line. -/
def contentId (p : MimeInfo) (ts : List Token) : MimeInfo :=
  match (parseaddr ts).find? (fun a => a.tokens ≠ []) with
  | none => p
  | some a => { p with contentId := some (rfc822Getaddr a) }

/- The text after the colon, as an unstructured header has it. -/
def headerValue (header : List Byte) : List Byte :=
  ((header.dropWhile (· ≠ chr ':')).drop 1).dropWhile isspace

/- The value of an unstructured header, unless it is empty. -/
def setNonempty (old : CString) (s : List Byte) : CString :=
  if s = [] then old else some s

/-
  `do_header`, for the complete line `header` of a part.  The
  flag is set when a new boundary is ambiguous with one of the
  enclosing parts.
-/
def doHeader (inReformime : Bool) (outer : List (List Byte)) (header : List Byte)
    (p : MimeInfo) : MimeInfo × Bool :=
  match tokenize header with
  | name :: colon :: ts =>
    let t := lowerPasteTokens [name]
    if name.token ≠ 0 ∨ colon.token ≠ chr ':' then
      -- broken header
      (p, false)
    else if t = bytes "mime-version" then
      ({ p with mimeVersion := some (pasteTokens ts) }, false)
    else if t = bytes "content-type" then
      contentType inReformime outer p ts
    else if t = bytes "content-transfer-encoding" then
      (contentTransferEncoding p ts, false)
    else if t = bytes "content-disposition" then
      (contentDisposition inReformime p ts, false)
    else if t = bytes "content-id" then
      (contentId p (name :: colon :: ts), false)
    else if t = bytes "content-description" then
      ({ p with
          contentDescription :=
            setNonempty p.contentDescription
              (headerValue header) },
        false)
    else if t = bytes "content-language" then
      ({ p with
          contentLanguage :=
            setNonempty p.contentLanguage
              (headerValue header) },
        false)
    else if t = bytes "content-base" then
      ({ p with contentBase := some (pasteTokens ts) }, false)
    else if t = bytes "content-location" then
      ({ p with contentLocation := some (pasteTokens ts) }, false)
    else if t = bytes "content-md5" then
      ({ p with
          contentMd5 :=
            setNonempty p.contentMd5
              (headerValue header) },
        false)
    else
      (p, false)
  | _ => (p, false)

/-
  What the end of its header does to the content type of a
  part, `parentType` being the type of the part around it.
-/
def MimeInfo.endHeader (parentType : CString) (p : MimeInfo) : MimeInfo :=
  let p :=
    if isMime1 p.mimeVersion then
      p
    else
      -- not a MIME flavor that is understood
      { p with
          contentType := none
          contentTypeAttr := []
          contentDisposition := none
          contentDispositionAttr := []
          boundary := none }
  let p :=
    if isMime1 p.mimeVersion ∧ p.contentType = none then
      { p with
          contentType :=
            if parentType = some (bytes "multipart/digest") then
              some (bytes "message/rfc822")
            else
              some (bytes "text/plain") }
    else
      p
  match p.contentType with
  | none => { p with boundary := none }
  | some t =>
    if (bytes "multipart/").isPrefixOf t then p else { p with boundary := none }

end Wmail.Rfc2045
