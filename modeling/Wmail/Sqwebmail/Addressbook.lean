import Wmail.Rfc822.Getaddrs

/-
  The address book (addressbook.c) and the reader of its
  headers (maildir.c).

  The address book is a file of headers: a nickname, and the
  addresses under it as the text of an address list.

  Key definitions include:
    * `fixNameaddr`
-/

namespace Wmail.Sqwebmail

open Rfc822

/- A character that `fix_nameaddr` keeps in a name. -/
def inAbName (c : Byte) : Bool :=
  !iscntrl c && !(c = chr '"' || c = chr '\\')

/- A character that `fix_nameaddr` keeps in an address. -/
def inAbAddress (c : Byte) : Bool :=
  !isspace c && !iscntrl c && !(bytes "<>()\\").contains c

/- A character that `ab_add` keeps in a nickname. -/
def inNick (c : Byte) : Bool :=
  !isspace c && !iscntrl c && !(bytes ":;,<>@\\").contains c

/- `fix_nameaddr`: the name and the address. -/
def fixNameaddr (name addr : List Byte) : List Byte × List Byte :=
  ((name.takeWhile (· ≠ 0)).filter inAbName, (addr.takeWhile (· ≠ 0)).filter inAbAddress)

/- The nickname as `ab_add` cleans it. -/
def fixNick (nick : List Byte) : List Byte :=
  (nick.takeWhile (· ≠ 0)).filter inNick

/-
  The loop of `maildir_readheader_nolc`: a header with its
  continuation lines, what is left of the file, and whether
  the last character read was the end of the file.
-/
def readFolded : List Byte → List Byte × List Byte × Bool
  | [] => ([], [], true)
  | c :: rest =>
    if c ≠ nl then
      let (buf, more, eof) := readFolded rest
      (c :: buf, more, eof)
    else
      match rest with
      | [] => ([], [], true)
      | d :: _ =>
        if d = nl ∨ isspace d = false then
          ([], rest, false)
        else
          let (buf, more, eof) := readFolded rest
          (nl :: buf, more, eof)

/-
  `maildir_readheader_nolc`: the header, its value and what
  is left of the file.
-/
def maildirReadheaderNolc (fp : List Byte) : Option (List Byte × List Byte × List Byte) :=
  let (buf, rest, eof) := readFolded fp
  let buf := buf.takeWhile (· ≠ 0)
  if eof = true ∧ buf = [] then
    none
  else
    let header := buf.takeWhile (· ≠ chr ':')
    let value := buf.drop (header.length + 1)
    some (header, value.dropWhile isspace, rest)

/-
  All headers of a file with their values.  A header takes a
  byte of the file at least, so a `fuel` of the length of the
  file is enough.
-/
def headersLoop : Nat → List Byte → List (List Byte × List Byte)
  | 0, _ => []
  | fuel + 1, fp =>
    match maildirReadheaderNolc fp with
    | none => []
    | some (header, value, rest) => (header, value) :: headersLoop fuel rest

/- The headers that a loop over the file reads. -/
def readHeaders (fp : List Byte) : List (List Byte × List Byte) :=
  headersLoop fp.length fp

/- `fprintf(new_fp, "%s: %s\n", header, value)`. -/
def printHeader (header : List Byte × List Byte) : List Byte :=
  header.1 ++ bytes ": " ++ header.2 ++ [nl]

/- A name and an address as `ab_add` writes them. -/
def printNameaddr (names addresss : List Byte) : List Byte :=
  if names ≠ [] then
    chr '"' :: (names ++ bytes "\" <" ++ addresss ++ bytes ">\n")
  else
    chr '<' :: (addresss ++ bytes ">\n")

/- `ab_add`. -/
def abAdd (name address nick : List Byte) (book : List Byte) : List Byte :=
  if nick.takeWhile (· ≠ 0) = [] ∨ address.takeWhile (· ≠ 0) = [] then
    book
  else if fixNick nick = [] then
    book
  else
    let nicks := fixNick nick
    let (names, addresss) := fixNameaddr name address
    if addresss = [] then
      book
    else
      let headers := readHeaders book
      let before := headers.takeWhile (·.1 ≠ nicks)
      match headers.drop before.length with
      | (_, value) :: after =>
        before.flatMap printHeader ++ (nicks ++ bytes ": " ++ value ++ bytes ",\n    " ++
            (printNameaddr names addresss ++ after.flatMap printHeader))
      | [] => before.flatMap printHeader ++ (nicks ++ bytes ": " ++ printNameaddr names addresss)

/-
  The list that `dodel` writes: with entry `n` replaced, or
  without it.
-/
def editList (a : List Addr) (n : Nat) (replace : Option (List Byte × List Byte)) : List Addr :=
  match replace with
  | some (name, addr) =>
    if n < a.length then
      let (namebuf, addrbuf) := fixNameaddr name addr
      a.set n
        { tokens := [⟨0, addrbuf, addrbuf.length⟩]
          name := [⟨chr '"', namebuf, namebuf.length⟩] }
    else
      -- `--a->naddrs` all the same
      a.dropLast
  | none => if n < a.length then a.eraseIdx n else a.dropLast

/- A value of `dodel`: four blanks begin a further line. -/
def indent (text : List Byte) : List Byte :=
  text.flatMap fun c => if c = nl then bytes "\n    " else [c]

/-
  `dodel`, for the list `a` that was parsed from the value of
  the nickname; `replace` is `replace_name` and
  `replace_addr`, which callers give both or not at all.
-/
def dodel (nick : List Byte) (a : List Addr) (n : Nat)
    (replace : Option (List Byte × List Byte)) (book : List Byte) : List Byte :=
  let a := editList a n replace
  (readHeaders book).flatMap fun header =>
    if header.1 = nick.takeWhile (· ≠ 0) then
      if a = [] then [] else printHeader (header.1, indent (rfc822GetaddrsWrap a 70))
    else
      printHeader header

/- `dodelall`. -/
def dodelall (nick : List Byte) (book : List Byte) : List Byte :=
  ((readHeaders book).filter
    (·.1 ≠ nick.takeWhile (· ≠ 0))).flatMap printHeader

/- `ab_find`. -/
def abFind (nick : List Byte) (book : List Byte) : Option (List Byte) :=
  ((readHeaders book).find?
    (·.1 = nick.takeWhile (· ≠ 0))).map (·.2)

/- What a request to the address book asks for. -/
inductive AbRequest where
  | add (name address nick : List Byte)
  | del (nick : List Byte) (n : Nat)
  | replace (nick : List Byte) (n : Nat)
      (name address : List Byte)
  | delall (nick : List Byte)

/-
  The changes that `addressbook` makes.  It looks the
  nickname up and parses the value before it calls `dodel`,
  and it deletes one of the entries that it has found.
-/
def AbRequest.apply (book : List Byte) : AbRequest → List Byte
  | .add name address nick => abAdd name address nick book
  | .del nick n =>
    match abFind nick book with
    | none => book
    | some value =>
      let a := parseaddr (tokenize value)
      if n < a.length then dodel nick a n none book else book
  | .replace nick n name address =>
    match abFind nick book with
    | none => book
    | some value => dodel nick (parseaddr (tokenize value)) n (some (name, address)) book
  | .delall nick => dodelall nick book

/- An entry: the name, if there is one, and the address. -/
structure AbEntry where
  name : Option (List Byte)
  address : List Byte
deriving DecidableEq, Repr

/-
  An address as `ab_get_nameaddr` passes it on: without a
  name when it was parsed without one.
-/
def abEntry (a : Addr) : AbEntry where
  name := if a.name = [] then none else some (rfc822Getname a)
  address := rfc822Getaddr a

/- The entries that are read back under a nickname. -/
def entriesUnder (book nick : List Byte) : List AbEntry :=
  match abFind nick book with
  | none => []
  | some value => (parseaddr (tokenize value)).map abEntry

end Wmail.Sqwebmail
