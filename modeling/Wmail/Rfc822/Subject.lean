import Wmail.Core.Bytes

/-
  Base subjects (imapsubj.c).

  Key definitions include:
    * `skipblob`
-/

namespace Wmail.Rfc822

/- `skipblob`: a bracketed text and the white space after it. -/
def skipblob : List Byte → List Byte
  | [] => []
  | c :: rest =>
    if c = chr '[' then
      match rest.dropWhile (fun d => d != chr '[' && d != chr ']') with
      | [] => c :: rest
      | d :: after =>
        if d = chr ']' then after.dropWhile isspace else c :: rest
    else
      c :: rest

/-
  `skipblobs`.  Every round but the last takes something off,
  so the length of the text bounds their number.
-/
def skipblobsLoop : Nat → List Byte → List Byte
  | 0, p => p
  | fuel + 1, p =>
    let q := skipblob p
    if q = p then q else skipblobsLoop fuel q

def skipblobs (p : List Byte) : List Byte :=
  skipblobsLoop p.length p

/- White space runs become one blank. -/
def foldSpaces : List Byte → List Byte
  | [] => []
  | c :: rest =>
    if isspace c then
      match rest with
      | [] => [chr ' ']
      | d :: _ =>
        if isspace d then foldSpaces rest else chr ' ' :: foldSpaces rest
    else
      c :: foldSpaces rest

/-
  The end of a subject without trailers, on the subject read
  backwards; the flag is `*hasrefwd`.
-/
def stripTrailerLoop : Nat → List Byte → Bool → List Byte × Bool
  | 0, p, flag => (p, flag)
  | _ + 1, [], flag => ([], flag)
  | fuel + 1, c :: rest, flag =>
    if isspace c then
      stripTrailerLoop fuel rest flag
    else if casePrefix (bytes "(FWD)").reverse (c :: rest) then
      stripTrailerLoop fuel ((c :: rest).drop 5) true
    else
      (c :: rest, flag)

def stripTrailer (s : List Byte) (flag : Bool) : List Byte × Bool :=
  let r := stripTrailerLoop s.length s.reverse flag
  (r.1.reverse, r.2)

/- The text after `re`, `fwd` or `fw`. -/
def skipRefwd (q : List Byte) : Option (List Byte) :=
  if casePrefix (bytes "RE") q then
    some (q.drop 2)
  else if casePrefix (bytes "FWD") q then
    some (q.drop 3)
  else if casePrefix (bytes "FW") q then
    some (q.drop 2)
  else
    none

/- The text after a `subj-refwd`, when there is one at `p`. -/
def skipReply (p : List Byte) : Option (List Byte) :=
  match skipRefwd (skipblobs p) with
  | none => none
  | some q =>
    match skipblob q with
    | [] => none
    | c :: after => if c = chr ':' then some after else none

/- The beginning of a subject without leaders and blobs. -/
def stripLeaderLoop : Nat → List Byte → Bool → List Byte × Bool
  | 0, p, flag => (p, flag)
  | _ + 1, [], flag => ([], flag)
  | fuel + 1, c :: rest, flag =>
    let p := c :: rest
    if isspace c then
      stripLeaderLoop fuel rest flag
    else
      match skipReply p with
      | some after => stripLeaderLoop fuel after true
      | none =>
        let q := skipblob p
        -- a blob is the whole base subject when alone
        if q ≠ p ∧ q ≠ [] then stripLeaderLoop fuel q flag else (p, flag)

def stripLeader (s : List Byte) (flag : Bool) : List Byte × Bool :=
  stripLeaderLoop s.length s flag

/- The text in `[fwd: ... ]`. -/
def unwrapFwd (p : List Byte) : Option (List Byte) :=
  if casePrefix (bytes "[FWD:") p ∧ p.getLast? = some (chr ']') then
    some (p.dropLast.drop 5)
  else
    none

/- The `do` loop of `stripsubj`, once for each unwrapping. -/
def stripsubjLoop : Nat → List Byte → Bool → List Byte × Bool
  | 0, s, flag => (s, flag)
  | fuel + 1, s, flag =>
    let trailed := stripTrailer s flag
    let led := stripLeader trailed.1 trailed.2
    match unwrapFwd led.1 with
    | some inner => stripsubjLoop fuel inner true
    | none => led

/- `stripsubj`: the base subject and `*hasrefwd`. -/
def stripsubj (s : List Byte) : List Byte × Bool :=
  let folded := foldSpaces s
  stripsubjLoop (folded.length + 1) folded false

/- `rfc822_coresubj`. -/
def rfc822Coresubj (s : List Byte) : List Byte × Bool :=
  stripsubj (s.map toupper)

example : rfc822Coresubj (bytes "[list] Re: [Fwd: a  b] (fwd)") = (bytes "A B", true) := by
  decide

end Wmail.Rfc822
