import Wmail.Core.Links
import Wmail.Rfc2045.Part

/-
  The MIME parser (rfc2045.c) and the scan of the contents
  that prepares rewriting (rfc2045acprep.c).

  Key definitions include:
    * `Acprep`
-/

namespace Wmail.Rfc2045

open Links

/- `MAXPARTS`. -/
def maxParts : Nat :=
  300

/- `state_t` of rfc2045acprep.c. -/
inductive AcState where
  | raw
  | quotedprint
  | qpseeneq
  | qpseeneqh
  | base64
deriving DecidableEq, Repr

/- The static variables of rfc2045acprep.c. -/
structure Acprep where
  currwp : Option Nat
  curlinepos : Nat
  curstate : AcState
  statechar : Byte
deriving DecidableEq, Repr

/-
  All parts of a message, the fields that only the root has,
  and the static variables.  `rfc2045acptr` is null without
  the scan for rewriting.
-/
structure St where
  parts : List Part
  workbuf : List Byte
  numparts : Nat
  rfc2045acptr : Option Acprep
  inReformime : Bool
deriving DecidableEq, Repr

/- `rfc2045_alloc`. -/
def alloc (inReformime : Bool) : St where
  parts := [Part.alloc]
  workbuf := []
  numparts := 0
  rfc2045acptr := none
  inReformime := inReformime

/- `rfc2045_alloc_ac`. -/
def allocAc (inReformime : Bool) : St :=
  { alloc inReformime with
      rfc2045acptr := some ⟨none, 0, .raw, 0⟩ }

namespace St

/- What a pointer to a part points to. -/
def part (s : St) (i : Nat) : Part :=
  s.parts.getD i Part.alloc

/- Assign to fields of one part. -/
def setPart (s : St) (i : Nat) (f : Part → Part) : St :=
  { s with parts := s.parts.modify i f }

/-
  A part and everything around it, innermost first:
  `for (q=p; q; q=q->parent)`.  A part is made after the part
  around it, so its number bounds the walk.
-/
def upward (s : St) (i : Nat) : List Nat :=
  follow (fun q => (s.part q).parent) i i

/- `p->lastpart && !p->lastpart->workclosed`. -/
def openLast (s : St) (p : Nat) : Option Nat :=
  match (s.part p).lastpart with
  | none => none
  | some last => if (s.part last).workclosed then none else some last

/-
  The open parts, from the root to the innermost one: `for
  (p=h; p->lastpart && !p->lastpart->workclosed;
  p=p->lastpart)`.
-/
def openPath (s : St) : List Nat :=
  follow s.openLast s.parts.length 0

/- Assign to fields of a part and of everything around it. -/
def setUpward (s : St) (i : Nat) (f : Part → Part) : St :=
  (s.upward i).foldl (fun s j => s.setPart j f) s

end St

/- The loop body of `update_counts`. -/
def Part.count (newcnt newendcnt nlines : Nat) (p : Part) : Part :=
  { p with
      endpos := newcnt
      endbody := newendcnt
      nlines := p.nlines + nlines
      nbodylines :=
        if p.workinheader then p.nbodylines else p.nbodylines + nlines }

/- `update_counts`. -/
def updateCounts (s : St) (i newcnt newendcnt nlines : Nat) : St :=
  s.setUpward i (Part.count newcnt newendcnt nlines)

/- `start_rwprep`. -/
def startSection (s : St) (i : Nat) : St :=
  { s with
      rfc2045acptr := s.rfc2045acptr.map fun ac =>
        { ac with
            currwp := some i
            curlinepos := 0
            curstate :=
              match (s.part i).contentTransferEncoding with
              | none => .raw
              | some te =>
                if te = bytes "quoted-printable" then
                  .quotedprint
                else if te = bytes "base64" then
                  .base64
                else
                  .raw } }

/- `h2nyb`, in arithmetic modulo 256. -/
def h2nyb (c : Byte) : Byte :=
  if chr 'a' ≤ c ∧ c ≤ chr 'f' then
    c - (chr 'a' - 10)
  else if chr 'A' ≤ c ∧ c ≤ chr 'F' then
    c - (chr 'A' - 10)
  else
    c - chr '0'

/- The scan variables, and the flags raised so far. -/
structure Scan where
  ac : Acprep
  has8bitchars : Bool
  haslongline : Bool
deriving DecidableEq, Repr

/- `if (++curlinepos > 500) currwp->haslongline=1;`. -/
def Scan.advance (r : Scan) : Scan :=
  { r with
      ac := { r.ac with
        curlinepos := r.ac.curlinepos + 1 }
      haslongline :=
        r.haslongline || 500 < r.ac.curlinepos + 1 }

/- The case `raw` of `do_rwprep`. -/
def Scan.rawByte (r : Scan) (c : Byte) : Scan :=
  let r :=
    if c = cr ∨ c = nl then { r with ac := { r.ac with curlinepos := 0 } } else r.advance
  { r with has8bitchars := r.has8bitchars || 127 ≤ c }

/- One round of the loop of `do_rwprep`. -/
def Scan.step (r : Scan) (c : Byte) : Scan :=
  match r.ac.curstate with
  | .quotedprint =>
    if c = chr '=' then { r with ac := { r.ac with curstate := .qpseeneq } } else r.rawByte c
  | .raw => r.rawByte c
  | .qpseeneq =>
    if c = nl then
      { r with ac := { r.ac with
          curstate := .quotedprint } }
    else if isspace c then
      r
    else
      { r with ac := { r.ac with
          statechar := c, curstate := .qpseeneqh } }
  | .qpseeneqh =>
    { r.advance with
        ac := { r.advance.ac with
          curstate := .quotedprint }
        has8bitchars :=
          r.has8bitchars ||
            127 ≤ h2nyb r.ac.statechar * 16 + h2nyb c }
  | .base64 => r

/- The flags of a part after the scan. -/
def Scan.store (r : Scan) (p : Part) : Part :=
  { p with
      has8bitchars := r.has8bitchars
      haslongline := r.haslongline }

/- `do_rwprep`. -/
def sectionContents (s : St) (p : List Byte) : St :=
  match s.rfc2045acptr with
  | none => s
  | some ac =>
    match ac.currwp with
    | none => s
    | some i =>
      let r := p.foldl Scan.step ⟨ac, (s.part i).has8bitchars, (s.part i).haslongline⟩
      { s.setPart i r.store with
          rfc2045acptr := some r.ac }

/- The part that `append_part_noinherit` makes. -/
def newPart (s : St) (p startpos : Nat) : Part :=
  { Part.alloc with
      parent := some p
      pindex :=
        match (s.part p).lastpart with
        | some last => (s.part last).pindex + 1
        | none => 0
      startpos := startpos
      endpos := startpos
      startbody := startpos
      endbody := startpos }

/- `append_part_noinherit`; the new part comes last. -/
def appendPartNoinherit (s : St) (p startpos : Nat) : St :=
  let t := s.setPart p fun q => { q with lastpart := some s.parts.length }
  { t with
      parts := t.parts ++ [newPart s p startpos]
      numparts := t.numparts + 1 }

/-
  `append_part`: the transfer encoding and the character set
  are inherited.
-/
def appendPart (s : St) (p startpos : Nat) : St :=
  (appendPartNoinherit s p startpos).setPart s.parts.length
    fun newp =>
      { newp with
          contentTransferEncoding :=
            (s.part p).contentTransferEncoding
          contentTypeAttr :=
            setattrOpt newp.contentTypeAttr (bytes "charset") (getattr (s.part p).contentTypeAttr
                (bytes "charset")) }

/- The length of a line without its `\n` or `\r\n`. -/
def lineLength (buf : List Byte) : Nat :=
  let n := buf.length - 1
  if n ≠ 0 ∧ buf[n - 1]? = some cr then n - 1 else n

/-
  The look-ahead of `doline`: the open path from the part on
  that is in the middle of a long line.
-/
def lookAhead (s : St) : List Nat → Option (List Nat)
  | newp :: last :: rest =>
    if (s.part newp).boundary = none ∨ (s.part newp).workinheader then
      lookAhead s (last :: rest)
    else if (s.part last).informdata then
      some (last :: rest)
    else
      lookAhead s (last :: rest)
  | _ => none

/- The line `--boundary`, with anything after it. -/
def isBoundary (cb c : List Byte) : Bool :=
  (bytes "--").isPrefixOf c &&
    (2 + cb.length ≤ lineLength c &&
      casePrefix cb (c.drop 2))

/- The line `--boundary--`. -/
def isLastBoundary (cb c : List Byte) : Bool :=
  4 + cb.length ≤ lineLength c &&
    (bytes "--").isPrefixOf (c.drop (2 + cb.length))

/- Where the drill down of `doline` ends. -/
inductive Place where
  /- after the last boundary line of the part -/
  | leftover (p : Nat)
  /- at a boundary line of the part, inside its last part -/
  | boundary (p last : Nat) (final : Bool)
  /- in the part that the line belongs to -/
  | section (p : Nat)
deriving DecidableEq, Repr

/- The drill down, along the open path. -/
def locate (s : St) (c : List Byte) : List Nat → Place
  | [] => .section 0
  | [p] =>
    if (s.part p).lastpart.isSome then .leftover p else .section p
  | p :: last :: rest =>
    match (s.part p).boundary with
    | none => locate s c (last :: rest)
    | some cb =>
      if (s.part p).workinheader = false ∧ isBoundary cb c then
        .boundary p last (isLastBoundary cb c)
      else
        locate s c (last :: rest)

/- `doline` at a boundary line. -/
def dolineBoundary (s : St) (c : List Byte) (p last : Nat) (final : Bool) : St :=
  let endpos := (s.part p).endpos
  if final then
    updateCounts (s.setPart last fun q => { q with workclosed := true })
      p (endpos + c.length) (endpos + c.length) 1
  else
    (updateCounts (appendPart s p (endpos + c.length)) p
        (endpos + c.length) (endpos + lineLength c) 1).setPart
      s.parts.length
      fun newp => { newp with mimeVersion := (s.part p).mimeVersion }

/- `doline` after the last boundary line of a part. -/
def dolineLeftover (s : St) (c : List Byte) (p : Nat) : St :=
  let endpos := (s.part p).endpos
  updateCounts s p (endpos + c.length) (endpos + lineLength c) 1

/- `strncasecmp(content_type, "multipart/", 10) == 0`. -/
def isMultipart (contentType : CString) : Bool :=
  match contentType with
  | none => false
  | some t => casePrefix (bytes "multipart/") t

/- The content type of the part around a part. -/
def St.parentType (s : St) (p : Nat) : CString :=
  match (s.part p).parent with
  | none => none
  | some q => (s.part q).contentType

/- Eight-bit text in the body of a part that declares none. -/
def flagContent (s : St) (bit8 : Bool) (p : Nat) : St :=
  if bit8 && !(s.part p).content8bit && !(s.part p).rfcviolation.err8bitcontent then
    s.setUpward p fun q =>
      { q with rfcviolation :=
        { q.rfcviolation with err8bitcontent := true } }
  else
    s

/- Eight-bit text in a header. -/
def flagHeader (s : St) (bit8 : Bool) (p : Nat) : St :=
  if bit8 && !(s.part p).rfcviolation.err8bitheader then
    s.setUpward p fun q =>
      { q with rfcviolation :=
        { q.rfcviolation with err8bitheader := true } }
  else
    s

/- The scan of a line of the body. -/
def scanBody (s : St) (c : List Byte) (p : Nat) : St :=
  if (s.part p).isdummy then s else sectionContents s c

/-
  How much of a line is in the body: the final newline in a
  part of a multipart belongs to the boundary.
-/
def bodyLength (s : St) (c : List Byte) (p : Nat) : Nat :=
  if isMultipart (s.parentType p) then lineLength c else c.length

/- `doline` in the body of a part; `bit8` is for the line. -/
def dolineBody (s : St) (c : List Byte) (bit8 : Bool) (p : Nat) : St :=
  let endpos := (s.part p).endpos
  updateCounts (scanBody (flagContent s bit8 p) c p) p
    (endpos + c.length) (endpos + bodyLength s c p) 1

/- Parse the header line that is complete. -/
def dolineDoHeader (s : St) (p : Nat) : St :=
  let outer :=
    (s.upward p).tail.filterMap fun q => (s.part q).boundary
  let r :=
    doHeader s.inReformime outer (s.part p).header (s.part p).toMimeInfo
  let s := s.setPart p fun q => { q with toMimeInfo := r.1 }
  if r.2 then
    s.setPart 0 fun root =>
      { root with rfcviolation :=
        { root.rfcviolation with errbadboundary := true } }
  else
    s

/- The body of a part starts after the blank line `c`. -/
def startBody (s : St) (c : List Byte) (p : Nat) : St :=
  let startbody := (s.part p).endpos + c.length
  let s := s.setPart p fun q => { q with workinheader := false, startbody := startbody }
  let s := updateCounts s p startbody startbody 1
  s.setPart p fun q =>
    { q with
        -- the blank line is no line of the body
        nbodylines := q.nbodylines - 1
        toMimeInfo := q.toMimeInfo.endHeader (s.parentType p) }

/- What the type of a part asks for at the start of its body. -/
def enterBody (s : St) (p : Nat) : St :=
  if (s.part p).contentType = some (bytes "message/rfc822") then
    appendPartNoinherit s p (s.part p).startbody
  else if (s.part p).boundary ≠ none then
    -- the pseudo-section before the first boundary line
    (appendPart s p (s.part p).startbody).setPart
      s.parts.length
      fun newp => { newp with workinheader := false, isdummy := true }
  else
    startSection s p

/- `doline` at the blank line that ends a header. -/
def dolineHeaderEnd (s : St) (c : List Byte) (p : Nat) : St :=
  enterBody (startBody (dolineDoHeader s p) c p) p

/- Begin or continue the header line that is collected. -/
def collectHeader (s : St) (c : List Byte) (p : Nat) : St :=
  let line := c.take (lineLength c)
  if isspace (c.headD 0) then
    -- a continuation of the previous line
    s.setPart p fun q => { q with header := q.header ++ chr ' ' :: line }
  else
    (dolineDoHeader s p).setPart p fun q => { q with header := line }

/- `doline` at any other line of a header. -/
def dolineHeader (s : St) (c : List Byte) (p : Nat) : St :=
  let endpos := (s.part p).endpos
  collectHeader (updateCounts s p (endpos + c.length) (endpos + lineLength c) 1) c p

/- `doline` in the part that the line belongs to. -/
def dolineSection (s : St) (c : List Byte) (bit8 : Bool) (p : Nat) : St :=
  if (s.part p).workinheader then
    if lineLength c = 0 then
      dolineHeaderEnd (flagHeader s bit8 p) c p
    else
      dolineHeader (flagHeader s bit8 p) c p
  else
    dolineBody s c bit8 p

/- The drill down from the root, or from a look-ahead. -/
def St.start (s : St) : St × List Nat :=
  match lookAhead s s.openPath with
  | none => (s, s.openPath)
  | some [] => (s, s.openPath)
  | some (p :: rest) =>
    (s.setPart p fun q => { q with informdata := false }, p :: rest)

/- NULs are read as spaces. -/
def cleanLine (line : List Byte) : List Byte :=
  line.map fun b => if b = 0 then chr ' ' else b

/- `doline` at the place where the drill down ends. -/
def dolineAt (s : St) (c : List Byte) (bit8 : Bool) : Place → St
  | .leftover p => dolineLeftover s c p
  | .boundary p last final => dolineBoundary s c p last final
  | .section p => dolineSection s c bit8 p

/- `doline`, with the line in `workbuf`. -/
def doline (s : St) : St :=
  if maxParts < s.numparts then
    s.setPart 0 fun root =>
      { root with rfcviolation :=
        { root.rfcviolation with err2complex := true } }
  else
    let c := cleanLine s.workbuf
    let bit8 := s.workbuf.any (fun b => 128 ≤ b)
    let (s, path) := s.start
    dolineAt s c bit8 (locate s c path)

/-
  How much of `workbuf` is processed in part: a final `\r` may
  belong to a `\r\n`.
-/
def partialLength (s : St) : Nat :=
  if s.workbuf.getLast? = some cr then s.workbuf.length - 1 else s.workbuf.length

/- The scan of `l` bytes that are processed in part. -/
def scanPartial (s : St) (p l : Nat) : St :=
  if !(s.part p).workinheader && (s.part p).lastpart.isNone then
    sectionContents s (s.workbuf.take l)
  else
    s

/- `rfc2045_parse_partial`. -/
def parsePartial (s : St) : St :=
  if s.workbuf = [] then
    s
  else
    let p := s.openPath.getLastD 0
    let l := partialLength s
    let endpos := (s.part p).endpos
    let s' :=
      updateCounts (scanPartial s p l) p (endpos + l) (endpos + l) 0
    { s'.setPart p (fun q => { q with informdata := true }) with
        workbuf := s.workbuf.drop l }

/- Add one byte to `workbuf`, and process a finished line. -/
def parseByte (s : St) (b : Byte) : St :=
  let s := { s with workbuf := s.workbuf ++ [b] }
  if b = nl then { doline s with workbuf := [] } else s

/-
  `rfc2045_parse`: lines are processed as they end, and a
  long beginning of a line is processed in part.
-/
def parse (s : St) (buf : List Byte) : St :=
  let s := buf.foldl parseByte s
  if 1024 < s.workbuf.length then parsePartial s else s

/- Consecutive calls of `rfc2045_parse`. -/
def parseAll (s : St) (bufs : List (List Byte)) : St :=
  bufs.foldl parse s

end Wmail.Rfc2045
