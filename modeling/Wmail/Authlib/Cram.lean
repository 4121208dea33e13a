import Wmail.Authlib.Hmac
import Wmail.Rfc2045.Encode
import Wmail.Core.Runs

/-
  CRAM authentication: the client's response, and what the
  server makes of it (authsaslclientcram.c, authsaslcram.c,
  cramlib.c).

  Key definitions include:
    * `authsaslTobase64`
-/

namespace Wmail.Authlib

open Rfc2045

/- `authsasl_tobase64`; the callback leaves out line ends. -/
def authsaslTobase64 (p : List Byte) : List Byte :=
  ((encoder (encodeStart (bytes "base64"))).run [p]).filter
    fun b => b ≠ cr && b ≠ nl

/- `decode64tab`, where no character has the value 100. -/
def saslDecode64tab (c : Byte) : Nat :=
  (base64Alphabet.idxOf? c).getD 100

/- One turn of the loop of `authsasl_frombase64`. -/
def frombase64Group (c d e f : Byte) : List Byte :=
  let w := saslDecode64tab c
  let x := saslDecode64tab d
  let y := saslDecode64tab e
  let z := saslDecode64tab f
  UInt8.ofNat (w <<< 2 ||| x >>> 4) :: ((if e ≠ chr '=' then
        [UInt8.ofNat (x <<< 4 ||| y >>> 2)]
      else
        []) ++
      (if f ≠ chr '=' then
        [UInt8.ofNat (y <<< 6 ||| z)]
      else
        []))

/- The loop over groups of four characters. -/
def frombase64Groups : List Byte → List Byte
  | c :: d :: e :: f :: rest => frombase64Group c d e f ++ frombase64Groups rest
  | _ => []

/-
  `authsasl_frombase64`.  The source decodes in place; it
  reads each group before it writes the bytes of it.
-/
def authsaslFrombase64 (base64buf : List Byte) : Option (List Byte) :=
  let front := base64buf.takeWhile (saslDecode64tab · < 100)
  let rest := base64buf.dropWhile (saslDecode64tab · < 100)
  let text := front ++ rest.takeWhile (· = chr '=')
  if 3 ≤ rest.length ∨ text.length % 4 ≠ 0 then none else some (frombase64Groups text)

/- `xdigit`, in lower case. -/
def xdigit (n : Byte) : Byte :=
  if n < 10 then n + chr '0' else n - 10 + chr 'a'

/- Two digits for each byte. -/
def hexOf (text : List Byte) : List Byte :=
  text.flatMap fun c : Byte => [xdigit (c >>> 4 &&& 0x0F), xdigit (c &&& 0x0F)]

/- `struct authsaslclientinfo`, where `none` is null. -/
structure Authsaslclientinfo where
  userid : Option (List Byte)
  password : Option (List Byte)

/-
  `authsaslclient_cram`: what goes to `final_conv_func`, or
  nothing if the challenge cannot be read.
-/
def authsaslclientCram (info : Authsaslclientinfo) (challenge : List Byte)
    (hashinfo : HashInfo) : Option (List Byte) :=
  let userid := info.userid.getD []
  let password := info.password.getD []
  (authsaslFrombase64 challenge).map fun text =>
    let key := hashinfo.hashkey password
    authsaslTobase64 (userid ++ [chr ' '] ++ hexOf (hashinfo.hashtext text key.1 key.2))

/- The data that `authsasl_cram` passes on. -/
def authdataOf (challenge response : List Byte) : List Byte :=
  challenge ++ [nl] ++ response ++ [nl]

/- `nybble`. -/
def nybble (c : Byte) : Int :=
  if chr '0' ≤ c && c ≤ chr '9' then
    c.toNat - 48
  else if chr 'a' ≤ c && c ≤ chr 'f' then
    c.toNat - 97 + 10
  else if chr 'A' ≤ c && c ≤ chr 'F' then
    c.toNat - 65 + 10
  else
    -1

/- The first loop of `auth_verify_cram`. -/
def contextOf : List Byte → Option (List Byte)
  | a :: b :: rest =>
    if nybble a < 0 ∨ nybble b < 0 then
      none
    else
      (contextOf rest).map
        (UInt8.ofInt (nybble a * 16 + nybble b) :: ·)
  | _ => some []

/- The second loop of `auth_verify_cram`. -/
def sameDigest : List Byte → List Byte → Bool
  | a :: b :: rest, c :: context =>
    UInt8.ofInt (nybble a * 16 + nybble b) = c && sameDigest rest context
  | _, _ => true

/- `auth_verify_cram`: the response is accepted. -/
def authVerifyCram (hash : HashInfo) (challenge response hashsecret : List Byte) : Bool :=
  if hashsecret.length ≠ hash.L * 4 ∨ response.length ≠ hash.L * 2 then
    false
  else
    match contextOf hashsecret with
    | none => false
    | some context =>
      sameDigest response (hash.hashtext challenge (context.take hash.L)
          ((context.drop hash.L).take hash.L))

/- `strtok` with a newline: a word, and what is left. -/
def strtokLine (text : List Byte) : Option (List Byte × List Byte) :=
  let line := text.dropWhile (· = nl)
  if line = [] then none else some (line.takeWhile (· ≠ nl), (line.dropWhile (· ≠ nl)).drop 1)

/- What `auth_get_cram` finds. -/
structure CramRequest where
  hmac : HashInfo
  user : List Byte
  challenge : List Byte
  response : List Byte

/- A C string ends at the first zero byte. -/
def cString (text : List Byte) : List Byte :=
  text.takeWhile (· ≠ 0)

theorem cString_eq_self {text : List Byte} (hText : 0 ∉ text) : cString text = text :=
  takeWhile_unclosed hText

/- `auth_get_cram`. -/
def authGetCram (list : List HashInfo) (authtype authdata : List Byte) : Option CramRequest :=
  if ¬ (bytes "cram-").isPrefixOf authtype then
    none
  else
    match strtokLine authdata with
    | none => none
    | some (challenge64, rest) =>
      match strtokLine rest with
      | none => none
      | some (response64, _) =>
        match list.find? (·.name = authtype.drop 5), authsaslFrombase64 challenge64,
            authsaslFrombase64 response64 with
        | some hmac, some challenge, some response =>
          if chr ' ' ∈ response then
            some
              { hmac
                user := cString (response.takeWhile (· ≠ chr ' '))
                challenge := cString challenge
                response := cString
                  ((response.dropWhile (· ≠ chr ' ')).drop 1) }
          else
            none
        | _, _, _ => none

end Wmail.Authlib
