import Wmail.Core.Bytes
import Wmail.Core.Chunking
import Wmail.Core.Words
import Mathlib.Data.List.DropRight

/-
  Flowed text (rfc2646create.c, rfc2646.c).

  The handlers never fail.  The creator's handler collects
  the text it gets, and the parser's handler collects the
  lines.

  Key definitions include:
    * `Create`
-/

namespace Wmail.Rfc2646

/- `struct rfc2646create`, and what its handler got. -/
structure Create where
  buffer : List Byte
  linesize : Nat
  hasSentParagraph : Bool
  lastSentQuotelevel : Nat
  sentFirsttime : Bool
  sent : List Byte
deriving DecidableEq, Repr

/- `rfc2646create_alloc`. -/
def rfc2646createAlloc : Create where
  buffer := []
  linesize := 76
  hasSentParagraph := false
  lastSentQuotelevel := 0
  sentFirsttime := true
  sent := []

/- The call of the handler. -/
def Create.handler (rfc : Create) (text : List Byte) : Create :=
  { rfc with sent := rfc.sent ++ text }

/- `wordwrap_line`: what it passes on for a piece of a line. -/
def wordwrapLine (text : List Byte) : List Byte :=
  if (bytes "From ").isPrefixOf text ∨
      (text.head? = some (chr '-') ∧ text ≠ bytes "-- ") then
    chr ' ' :: text
  else
    text

/- Drop the blanks at the end of a text that is reversed. -/
def trimReversed : List Byte → List Byte
  | [] => []
  | b :: rest =>
    if b = chr ' ' ∧ b :: rest ≠ (bytes "-- ").reverse then
      trimReversed rest
    else
      b :: rest

/- The blanks at the end of a line are not sent. -/
def trimEnd (text : List Byte) : List Byte :=
  (trimReversed text.reverse).reverse

/- The last blank up to a place, but not the very first. -/
def lastBlank (text : List Byte) : Nat → Nat
  | 0 => 0
  | j + 1 =>
    if text[j + 1]? = some (chr ' ') then j + 1 else lastBlank text j

/-
  Where a word without a blank is cut: not in the middle of
  a two-byte character.
-/
def cutWord (linesize : Nat) (text : List Byte) : Nat :=
  if ((text.take linesize).rtakeWhile (128 ≤ ·)).length % 2 = 1 then linesize + 1 else linesize

/-
  The loop of `wordwrap_sent`.  Every round goes over one
  byte at least.
-/
def wrapLoop (linesize : Nat) : Nat → List Byte → List Byte
  | _, [] => []
  | 0, _ :: _ => []
  | fuel + 1, text =>
    if text.length ≤ linesize then
      wordwrapLine text
    else
      let j := lastBlank text linesize
      if 0 < j then
        let rest := (text.drop (j + 1)).dropWhile (· = chr ' ')
        wordwrapLine (text.take j) ++ (if rest = [] then
            []
          else
            bytes " \n" ++ wrapLoop linesize fuel rest)
      else
        let j := cutWord linesize text
        wordwrapLine (text.take j) ++ (bytes " \n" ++ wrapLoop linesize fuel (text.drop j))

/- One blank at the front. -/
def dropBlank (text : List Byte) : List Byte :=
  if text.head? = some (chr ' ') then text.drop 1 else text

/- `wordwrap_sent`. -/
def wordwrapSent (rfc : Create) (buf : List Byte) : Create :=
  let quoteDepth := (buf.takeWhile (· = chr '>')).length
  let text := dropBlank (buf.drop quoteDepth)
  let rfc :=
    if rfc.hasSentParagraph ∧ text = [] ∧ rfc.lastSentQuotelevel = quoteDepth then
      { rfc.handler (bytes " \n") with hasSentParagraph := false }
    else
      { rfc.handler
          (if rfc.sentFirsttime then [] else bytes "\n") with
        hasSentParagraph := true }
  let rfc :=
    { rfc with
      sentFirsttime := false
      lastSentQuotelevel := quoteDepth }
  if quoteDepth ≠ 0 then
    rfc.handler buf
  else
    let text := trimEnd text
    rfc.handler (wrapLoop rfc.linesize text.length text)

/-
  The loop of `rfc2646create_parse`, with what it has read of
  the current line.
-/
def createLoop (rfc : Create) (line : List Byte) : List Byte → Create
  | [] => { rfc with buffer := line }
  | b :: rest =>
    if b = nl then
      createLoop (wordwrapSent rfc line) [] rest
    else
      createLoop rfc (line ++ [b]) rest

/- `rfc2646create_parse`. -/
def rfc2646createParse (rfc : Create) (str : List Byte) : Create :=
  createLoop rfc [] (rfc.buffer ++ str)

/- `rfc2646create_free`, and all that the handler got. -/
def rfc2646createFree (rfc : Create) : List Byte :=
  let rfc :=
    if rfc.buffer = [] then rfc else wordwrapSent rfc rfc.buffer
  (rfc.handler (bytes "\n")).sent

/- The calls that create flowed text, from the first on. -/
def rfc2646create : Transducer Byte Create (List Byte) where
  init := rfc2646createAlloc
  feed := rfc2646createParse
  finish := rfc2646createFree

/- `parse_mode`: zero, `PARSER_QUOTECNT`, `PARSER_LINE`. -/
inductive ParseMode where
  | start
  | quotecnt
  | line
deriving DecidableEq, Repr

/- What the parser's handler gets. -/
structure FlowedLine where
  quoteDepth : Nat
  isflowed : Bool
  line : List Byte
deriving DecidableEq, Repr

/- `struct rfc2646parser`, and what its handler got. -/
structure Parser where
  quoteDepth : Nat
  parseMode : ParseMode
  line : List Byte
  handled : List FlowedLine
deriving DecidableEq, Repr

/- `rfc2646_alloc`. -/
def rfc2646Alloc : Parser where
  quoteDepth := 0
  parseMode := .start
  line := []
  handled := []

/- The end of a line. -/
def Parser.endLine (p : Parser) : Parser :=
  let isflowed : Bool :=
    p.line.getLast? = some (chr ' ') ∧ p.line ≠ bytes "-- "
  let line := if isflowed then p.line.dropLast else p.line
  { p with
    line := line
    parseMode := .start
    handled := p.handled ++ [⟨p.quoteDepth, isflowed, line⟩] }

/- One round of the loop of `rfc2646_parse`. -/
def Parser.step (p : Parser) (b : Byte) : Parser :=
  if b = cr then
    p
  else
    let p :=
      if p.parseMode = .start then
        { p with
          parseMode := .quotecnt
          quoteDepth := 0
          line := [] }
      else
        p
    if b = nl then
      p.endLine
    else if p.parseMode = .quotecnt ∧ b = chr '>' then
      { p with quoteDepth := p.quoteDepth + 1 }
    else if p.parseMode = .quotecnt ∧ b = chr ' ' then
      { p with parseMode := .line }
    else
      -- the line buffer has room for 4095 bytes
      { p with
        parseMode := .line
        line :=
          if p.line.length < 4095 then p.line ++ [b] else p.line }

/- `rfc2646_parse`. -/
def rfc2646Parse (p : Parser) (s : List Byte) : Parser :=
  s.foldl Parser.step p

end Wmail.Rfc2646
