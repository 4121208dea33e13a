import Wmail.Core.Bytes

/-
  Tokens of structured header text (rfc822.c).

  A pointer into a C string is the rest of the string from
  there on, so the difference of two pointers into one string
  is a difference of lengths.

  Key definitions include:
    * `Token`
-/

namespace Wmail.Rfc822

/-
  `struct rfc822token`, without the `next` link: a chain of
  tokens is a list of them.
-/
structure Token where
  token : Byte
  ptr : List Byte
  len : Nat
deriving DecidableEq, Repr

/- The `len` bytes from `ptr` on. -/
def Token.text (t : Token) : List Byte :=
  t.ptr.take t.len

/- `rfc822_is_atom`. -/
def isAtom (token : Byte) : Bool :=
  token = 0 || token = chr '"' || token = chr '('

/- The characters that are tokens of their own. -/
def specials : List Byte :=
  bytes "<>@,;:.[]%!?=/"

/- The characters that end an atom, white space apart. -/
def atomEnds : List Byte :=
  bytes "<>@,;:.[]()%!\"\\?=/"

/- A character that an atom goes over. -/
def isAtomChar (c : Byte) : Bool :=
  !isspace c && !atomEnds.contains c

/-
  Scan a comment at nesting depth `level`: the length up to
  and including the parenthesis that closes it, and whether
  there is one.
-/
def scanComment : Nat → List Byte → Nat × Bool
  | _, [] => (0, false)
  | level, c :: rest =>
    if c = chr '(' then
      let (len, closed) := scanComment (level + 1) rest
      (len + 1, closed)
    else if c = chr ')' then
      if level - 1 = 0 then
        (1, true)
      else
        let (len, closed) := scanComment (level - 1) rest
        (len + 1, closed)
    else if c = chr '\\' then
      match rest with
      | [] => (1, false)
      | _ :: after =>
        let (len, closed) := scanComment level after
        (len + 2, closed)
    else
      let (len, closed) := scanComment level rest
      (len + 1, closed)

/-
  Scan the inside of a quoted string: its length, and
  whether a closing quote follows.
-/
def scanQuoted : List Byte → Nat × Bool
  | [] => (0, false)
  | c :: rest =>
    if c = chr '"' then
      (0, true)
    else if c = chr '\\' then
      match rest with
      | [] => (1, false)
      | _ :: after =>
        let (len, closed) := scanQuoted after
        (len + 2, closed)
    else
      let (len, closed) := scanQuoted rest
      (len + 1, closed)

/-
  The loop of `tokenize`.  Every round goes over at least one
  byte, so a `fuel` of the length of the string is enough.
-/
def tokenizeLoop : Nat → Bool → List Byte → List Token
  | 0, _, _ => []
  | _ + 1, _, [] => []
  | fuel + 1, inbracket, c :: rest =>
    if isspace c then
      tokenizeLoop fuel inbracket rest
    else if c = chr '(' then
      let (len, closed) := scanComment 0 (c :: rest)
      if closed then
        ⟨chr '(', c :: rest, len⟩ :: tokenizeLoop fuel inbracket ((c :: rest).drop len)
      else
        [⟨chr '"', c :: rest, len⟩]
    else if c = chr '"' then
      let (len, closed) := scanQuoted rest
      if closed then
        ⟨chr '"', rest, len⟩ :: tokenizeLoop fuel inbracket (rest.drop (len + 1))
      else
        [⟨chr '"', rest, len⟩]
    else if c = chr '\\' ∨ c = chr ')' then
      tokenizeLoop fuel inbracket rest
    else if specials.contains c then
      if (c = chr '<' && inbracket) || (c = chr '>' && !inbracket) then
        tokenizeLoop fuel inbracket rest
      else
        let inbracket :=
          if c = chr '<' then true
          else if c = chr '>' then false
          else inbracket
        -- a null address between the brackets of `<>`
        let fake : List Token :=
          if c = chr '<' ∧ rest.head? = some (chr '>') then [⟨0, [], 0⟩] else []
        ⟨c, c :: rest, 1⟩ :: (fake ++ tokenizeLoop fuel inbracket rest)
    else
      let len := ((c :: rest).takeWhile isAtomChar).length
      ⟨0, c :: rest, len⟩ :: tokenizeLoop fuel inbracket ((c :: rest).drop len)

/- `tokenize`, over the bytes before the terminating NUL. -/
def tokenize (p : List Byte) : List Token :=
  let s := p.takeWhile (· ≠ 0)
  tokenizeLoop s.length false s

end Wmail.Rfc822
