import Wmail.Core.Decimal

/-
  The arguments of a CGI request, and the encoding that a form
  and a link put them in.

  A C string is the list of its bytes.  The list of arguments
  has the last argument first, as the linked list has it.

  Key definitions include:
    * `cgiurlencode`
-/

namespace Wmail.Cgi

/- An entry of `hex`. -/
def hexDigit (n : Byte) : Byte :=
  if n < 10 then n + chr '0' else n - 10 + chr 'A'

/-
  What `cgiurlencode_common` makes of one byte.  A `char` is
  signed, so the test for control characters finds the bytes
  from 128 on, too.
-/
def encodeByte (punct : List Byte) (b : Byte) : List Byte :=
  if punct.contains b || b < 32 || 127 ≤ b then
    [chr '%', hexDigit (b / 16), hexDigit (b &&& 15)]
  else if b = chr ' ' then
    [chr '+']
  else
    [b]

/- `cgiurlencode_common`. -/
def cgiurlencodeCommon (buf punct : List Byte) : List Byte :=
  buf.flatMap (encodeByte punct)

/- The characters that `cgiurlencode` escapes. -/
def punct : List Byte :=
  bytes "\"?;<>&=/:%@+#"

/- `cgiurlencode`. -/
def cgiurlencode (buf : List Byte) : List Byte :=
  cgiurlencodeCommon buf punct

/- `nybble`: a digit is read if there is one. -/
def nybble : List Byte → Byte → List Byte × Byte
  | [], n => ([], n)
  | b :: p, n =>
    if chr '0' ≤ b && b ≤ chr '9' then
      (p, n * 16 + (b - chr '0'))
    else if chr 'A' ≤ b && b ≤ chr 'F' then
      (p, n * 16 + (b - chr 'A' + 10))
    else
      (b :: p, n)

/- A digit that is read is taken off. -/
theorem length_nybble_le (p : List Byte) (n : Byte) : (nybble p n).1.length ≤ p.length := by
  fun_cases nybble p n with
  | case1 n => exact Nat.le_refl 0
  | case2 => exact Nat.le_succ _
  | case3 => exact Nat.le_succ _
  | case4 => exact Nat.le_refl _

/- What is written for an escape, if anything. -/
def escaped (c : Byte) : List Byte :=
  if c = 0xA0 then
    [chr ' ']
  else if c ≠ 0 && c ≠ cr then
    [c]
  else
    []

/-
  `cgiurldecode`.  The source writes the result over its
  argument; `length_cgiurldecode_le` says that it never writes
  ahead of what it has read.
-/
def cgiurldecode : List Byte → List Byte
  | [] => []
  | b :: q =>
    if b = chr '+' || b = 0xA0 then
      chr ' ' :: cgiurldecode q
    else if b ≠ chr '%' then
      b :: cgiurldecode q
    else
      escaped (nybble (nybble q 0).1 (nybble q 0).2).2 ++ cgiurldecode
          (nybble (nybble q 0).1 (nybble q 0).2).1
termination_by q => q.length
decreasing_by
  · exact Nat.lt_succ_self q.length
  · exact Nat.lt_succ_self q.length
  · exact Nat.lt_succ_of_le (Nat.le_trans (length_nybble_le _ _) (length_nybble_le _ _))

theorem length_escaped_le (c : Byte) : (escaped c).length ≤ 1 := by
  unfold escaped
  split
  · exact Nat.le_refl 1
  · split
    · exact Nat.le_refl 1
    · exact Nat.zero_le 1

theorem length_cgiurldecode_le (q : List Byte) : (cgiurldecode q).length ≤ q.length := by
  fun_induction cgiurldecode q with
  | case1 => exact Nat.le_refl 0
  | case2 b q hSpace ih => exact Nat.succ_le_succ ih
  | case3 b q hSpace hPlain ih => exact Nat.succ_le_succ ih
  | case4 b q hSpace hPlain ih =>
    have hFirst := length_nybble_le q 0
    have hSecond := length_nybble_le (nybble q 0).1 (nybble q 0).2
    have hWritten := length_escaped_le (nybble (nybble q 0).1 (nybble q 0).2).2
    rw [List.length_append, List.length_cons]
    omega

/- `struct cgi_arglist`, without its links. -/
structure Arg where
  argname : List Byte
  argvalue : List Byte
deriving DecidableEq

/- One argument: the value follows the first `=`, if any. -/
def parseArg (p : List Byte) : Arg where
  argname := cgiurldecode (p.takeWhile (· ≠ chr '='))
  argvalue := cgiurldecode ((p.dropWhile (· ≠ chr '=')).drop 1)

/- The last loop of `cgi_setup_1`. -/
def parseArgs (q : List Byte) (args : List Arg) : List Arg :=
  match q with
  | [] => args
  | b :: q =>
    parseArgs (((b :: q).dropWhile (· ≠ chr '&')).drop 1)
      (parseArg ((b :: q).takeWhile (· ≠ chr '&')) :: args)
termination_by q.length
decreasing_by
  have hRest := (List.dropWhile_suffix (l := b :: q) (· ≠ chr '&')).length_le
  rw [List.length_drop, List.length_cons]
  rw [List.length_cons] at hRest
  omega

/- `CGIMAXARG`, where the configuration names no other. -/
def CGIMAXARG : Nat :=
  500000

/- `CGIMAXFORMDATAARG`, likewise. -/
def CGIMAXFORMDATAARG : Nat :=
  2000000

/- What a request says that is read before the arguments. -/
structure Request where
  requestMethod : Option (List Byte)
  queryString : Option (List Byte)
  contentType : Option (List Byte)
  contentLength : Option (List Byte)
  stdin : List Byte

/- The ways in which the setup ends the program. -/
inductive Exit where
  | enomem
  | tooLarge
deriving DecidableEq

/-
  `atol`, stored in an `unsigned long` of 64 bits.  A number
  out of range becomes the nearest `long`.
-/
def atol (text : List Byte) : UInt64 :=
  match scanInt text with
  | none => 0
  | some (n, _) => (Int64.ofInt (max (-2 ^ 63) (min (2 ^ 63 - 1) n))).toUInt64

/-
  `cgi_setup_1`.  The arguments of a `multipart/form-data`
  form come from `cgi_formdata`.
-/
def cgiSetup1 (formdata : Request → UInt64 → Except Exit (List Arg)) (request : Request) :
    Except Exit (List Arg) :=
  if request.requestMethod = some (bytes "GET") then
    match request.queryString with
    | none => .ok []
    | some args =>
      if CGIMAXARG < args.length then .error .enomem else .ok (parseArgs args [])
  else if request.requestMethod = some (bytes "POST") then
    match request.contentType, request.contentLength with
    | none, _ => .ok []
    | some type, length =>
      if casePrefix (bytes "multipart/form-data;") type then
        match length with
        | none => .ok []
        | some args =>
          if CGIMAXFORMDATAARG < (atol args).toNat then
            .error .tooLarge
          else
            formdata request (atol args)
      else if (bytes "application/x-www-form-urlencoded" ).isPrefixOf type then
        match length with
        | none => .ok []
        | some args =>
          if CGIMAXARG < (atol args).toNat then
            .error .tooLarge
          else if request.stdin.length < (atol args).toNat then
            .ok []
          else
            .ok (parseArgs ((request.stdin.take (atol args).toNat ).takeWhile (· ≠ 0)) [])
      else
        .ok []
  else
    .ok []

/- `cgi`: the value of the first argument of that name. -/
def cgi (args : List Arg) (arg : List Byte) : List Byte :=
  ((args.find? (·.argname = arg)).map (·.argvalue)).getD []

/-
  `cgi_multiple`: the values of that name from the last
  argument of the list to the first one.  No separator follows
  as long as there is no text.
-/
def cgiMultiple (args : List Arg) (arg sep : List Byte) : List Byte :=
  ((args.filter (·.argname = arg)).map (·.argvalue)).foldr
    (fun value buf => if buf = [] then value else buf ++ sep ++ value) []

/- `cgi_put`: an argument that is there gets a new value. -/
def cgiPut (args : List Arg) (arg : Arg) : List Arg :=
  match args.findIdx? (·.argname = arg.argname) with
  | some i => args.set i arg
  | none => arg :: args

end Wmail.Cgi
