import Wmail.Rfc822.Token

/-
  Address lists (rfc822.c, rfc822_getaddr.c).

  A null `tokens` or `name` pointer is the empty chain.

  Key definitions include:
    * `Addr`
-/

namespace Wmail.Rfc822

/- `struct rfc822addr`. -/
structure Addr where
  tokens : List Token
  name : List Token
deriving DecidableEq, Repr

/-
  The end of an old-style address: a comma, a semicolon, or
  the second of two atoms in a row.  `flag` is set after an
  atom, and comments do not count.
-/
def oldStyleLength : Bool → List Token → Nat
  | _, [] => 0
  | flag, t :: rest =>
    if t.token = chr ',' ∨ t.token = chr ';' then
      0
    else if t.token = chr '(' then
      oldStyleLength flag rest + 1
    else if t.token = 0 ∨ t.token = chr '"' then
      if flag then 0 else oldStyleLength true rest + 1
    else
      oldStyleLength false rest + 1

/-
  One quoted string from the first of the tokens to the end
  of the last.
-/
def quoteTokens : List Token → List Token
  | [] => []
  | t :: rest =>
    let last := (t :: rest).getLast (List.cons_ne_nil t rest)
    [{ t with
        token := chr '"'
        len := t.ptr.length + last.len - last.ptr.length }]

/- The display name, from the tokens before the `<`. -/
def routeName (before : List Token) : List Token :=
  let name :=
    if before.all (fun t => t.token = 0 || t.token = chr '(') then before else quoteTokens before
  -- comments in the name part are changed to quotes
  name.map fun t =>
    if t.token = chr '(' then { t with token := chr '"' } else t

/-
  The loop of `parseaddr`.  Every round goes over at least
  one token.
-/
def parseaddrLoop : Nat → List Token → List Addr
  | 0, _ => []
  | _ + 1, [] => []
  | fuel + 1, first :: others =>
    let tokens := first :: others
    let atoms :=
      tokens.takeWhile (fun t => t.token = 0 || t.token = chr '"')
    let i := atoms.length
    -- `phrase ":"` names a group
    if (tokens.drop i).head?.map (·.token) = some (chr ':') then
      ⟨[], tokens.take (i + 1)⟩ :: parseaddrLoop fuel (tokens.drop (i + 1))
    else if first.token = chr ',' then
      parseaddrLoop fuel others
    else if first.token = chr ';' then
      ⟨[], [first]⟩ :: parseaddrLoop fuel others
    else
      let before :=
        tokens.takeWhile fun t => t.token != chr ';' && t.token != chr ',' && t.token != chr '<'
      let after := tokens.drop before.length
      if after.head?.map (·.token) = some (chr '<') then
        let inside :=
          (after.drop 1).takeWhile
            (fun t => t.token != chr '>')
        ⟨inside, routeName before⟩ :: parseaddrLoop fuel (after.drop (1 + inside.length + 1))
      else
        let i := oldStyleLength false tokens
        if i = 0 then
          parseaddrLoop fuel others
        else
          let old := tokens.take i
          -- the last comment is taken for the real name
          let comments :=
            old.filter (fun t => t.token = chr '(')
          ⟨old.filter (fun t => t.token != chr '('), comments.getLast?.toList⟩ ::
            parseaddrLoop fuel (tokens.drop i)

/- `rfc822a_alloc`, which is `parseaddr` on all tokens. -/
def parseaddr (tokens : List Token) : List Addr :=
  parseaddrLoop tokens.length tokens

/- The inside of a quoted string, as `print_token` does it. -/
def printQuoted : List Byte → List Byte
  | [] => []
  | c :: rest =>
    if c = chr '\\' then
      match rest with
      | [] => [chr '\\', chr '\\']
      | d :: after => chr '\\' :: d :: printQuoted after
    else if c = chr '"' then
      chr '\\' :: c :: printQuoted rest
    else
      c :: printQuoted rest

/- `print_token`. -/
def printToken (t : Token) : List Byte :=
  if t.token = 0 ∨ t.token = chr '(' then
    t.text
  else if t.token ≠ chr '"' then
    [t.token]
  else
    chr '"' :: (printQuoted t.text ++ [chr '"'])

/- `rfc822tok_print`, after an atom or not. -/
def tokPrint : Bool → List Token → List Byte
  | _, [] => []
  | prevIsatom, t :: rest =>
    (if prevIsatom && isAtom t.token then
        [chr ' ']
      else
        []) ++
      (printToken t ++ tokPrint (isAtom t.token) rest)

/- `rfc822tok_print`. -/
def rfc822tokPrint (tokens : List Token) : List Byte :=
  tokPrint false tokens

/- Two atoms in a row, which take brackets around them. -/
def needsBraces : List Token → Bool
  | [] => false
  | [_] => false
  | t :: u :: rest =>
    (isAtom t.token && isAtom u.token) ||
      needsBraces (u :: rest)

/- One address of `rfc822_print_common` (`decode_func` null). -/
def printAddr (a : Addr) : List Byte :=
  if a.tokens = [] then
    rfc822tokPrint a.name
  else if a.name.head?.map (·.token) = some (chr '(') then
    rfc822tokPrint a.tokens ++ chr ' ' :: rfc822tokPrint a.name
  else if a.name ≠ [] then
    rfc822tokPrint a.name ++ [chr ' ', chr '<'] ++ rfc822tokPrint a.tokens ++ [chr '>']
  else if needsBraces a.tokens then
    chr '<' :: (rfc822tokPrint a.tokens ++ [chr '>'])
  else
    rfc822tokPrint a.tokens

/-
  What `rfc822_print_common` passes to `print_separator`
  between two addresses.
-/
def printSeparator (a next : Addr) : List Byte :=
  if a.tokens = [] then
    match a.name.getLast? with
    | some t =>
      if t.token = chr ':' ∨ t.token = chr ';' then bytes " " else []
    | none => []
  else
    match next.tokens, next.name with
    | [], [] => []
    | [], t :: _ => if isAtom t.token then bytes ", " else []
    | _ :: _, _ => bytes ", "

/- `rfc822_print`, with a separator that is printed as it is. -/
def rfc822Print : List Addr → List Byte
  | [] => []
  | [a] => printAddr a
  | a :: next :: rest => printAddr a ++ (printSeparator a next ++ rfc822Print (next :: rest))

/- `rfc822_getaddr`: newlines are left out. -/
def rfc822Getaddr (a : Addr) : List Byte :=
  (rfc822tokPrint a.tokens).filter (· ≠ nl)

/- A quoted string in `rfc822_prname_orlist`. -/
def unquote : List Byte → List Byte
  | [] => []
  | c :: rest =>
    if c = chr '\\' then
      match rest with
      | [] => [c]
      | d :: after => d :: unquote after
    else
      c :: unquote rest

/- The name tokens in `rfc822_prname_orlist`. -/
def nameToks : Bool → List Token → List Byte
  | _, [] => []
  | prevIsatom, t :: rest =>
    (if prevIsatom && isAtom t.token then
        [chr ' ']
      else
        []) ++
      ((if t.token = chr '"' then
          unquote t.text
        else if t.token ≠ chr '(' then
          printToken t
        else
          -- the comment without its parentheses
          (t.ptr.drop 1).take (t.len - 2)) ++
        nameToks (isAtom t.token) rest)

/- `rfc822_prname_orlist`. -/
def prnameOrlist (a : Addr) : List Byte :=
  (if a.name ≠ [] then
      nameToks false a.name
    else
      rfc822tokPrint a.tokens) ++ [nl]

/- `rfc822_prname`. -/
def prname (a : Addr) : List Byte :=
  if a.tokens = [] then [] else prnameOrlist a

/- `rfc822_getname`: newlines and quotes are left out. -/
def rfc822Getname (a : Addr) : List Byte :=
  (prname a).filter (fun c => c ≠ nl ∧ c ≠ chr '"')

end Wmail.Rfc822
