import Wmail.Core.Bytes

/-
  Relative links and their base (rfc2045appendurl.c).

  Key definitions include:
    * `getMethodPath`
-/

namespace Wmail

/- `isalpha`. -/
def isalpha (b : Byte) : Bool :=
  (65 ≤ b && b ≤ 90) || (97 ≤ b && b ≤ 122)

namespace Rfc2045

/-
  `get_method_path`: the method with its colon, and the path.
  There is no method if something else than a letter comes
  before the first colon.
-/
def getMethodPath (p : List Byte) : List Byte × List Byte :=
  match p.dropWhile isalpha with
  | [] => ([], p)
  | b :: path =>
    if b = chr ':' then (p.takeWhile isalpha ++ [b], path) else ([], p)

/- The base that is left in front of a relative path. -/
def basePath (base loc : List Byte) : List Byte :=
  match loc with
  | [] => base
  | b :: rest =>
    if b ≠ chr '/' then
      base
    else if rest.head? = some (chr '/') then
      []
    else if (bytes "//").isPrefixOf base && (base.drop 2).contains (chr '/') then
      base.take 2 ++ (base.drop 2).takeWhile (· ≠ chr '/')
    else
      []

/- `rfc2045_append_url`. -/
def appendUrl (base : Option (List Byte)) (loc : List Byte) : List Byte :=
  let baseParts := getMethodPath (base.getD [])
  let locParts := getMethodPath loc
  if locParts.1 ≠ [] then
    loc
  else
    baseParts.1 ++ basePath (baseParts.2 ++ [chr '/']) locParts.2 ++ locParts.2

end Rfc2045

end Wmail
