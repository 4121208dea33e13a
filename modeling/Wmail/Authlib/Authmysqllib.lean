import Wmail.Core.Escapes
import Wmail.Core.Bytes
import Mathlib.Tactic.Common

/-
  The queries of the MySQL module (authmysqllib.c).

  Their settings are the entries of the configuration file as
  `read_env` finds them; the hash of a new password comes from
  the library's `crypt`.

  Key theorems include:
    * `length_beforeMark`
-/

namespace Wmail.Authlib

/- The entries of the configuration file. -/
structure Mysqlrc where
  selectClause : Option (List Byte)
  chpassClause : Option (List Byte)
  defaultDomain : Option (List Byte)
  userTable : Option (List Byte)
  cryptPwfield : Option (List Byte)
  clearPwfield : Option (List Byte)
  nameField : Option (List Byte)
  uidField : Option (List Byte)
  gidField : Option (List Byte)
  loginField : Option (List Byte)
  homeField : Option (List Byte)
  maildirField : Option (List Byte)
  quotaField : Option (List Byte)
  whereClause : Option (List Byte)

/- The default of a field of the table. -/
def noField : List Byte :=
  bytes "\"\""

/- A text, and the size that is allocated for it, if any. -/
structure SqlQuery where
  size : Option Nat
  text : List Byte

/- The text and the zero byte behind it fit. -/
def SqlQuery.Fits (query : SqlQuery) : Prop :=
  ∃ size, query.size = some size ∧ query.text.length + 1 ≤ size

/- A text between double quotes. -/
def doubleQuoted (text : List Byte) : List Byte :=
  chr '"' :: (text ++ [chr '"'])

/- Quotes, backslashes and control characters. -/
def funnyCharacter (b : Byte) : Bool :=
  b = chr '\'' || b = chr '"' || b = chr '\\' || b < 32

/- The copy of the user name. -/
def usernameText (username : List Byte) : List Byte :=
  username.map fun b => if funnyCharacter b then 32 else b

/- A name without a domain gets the default one. -/
def AddsDomain (username defdomain : List Byte) : Prop :=
  chr '@' ∉ username ∧ defdomain ≠ []

instance (username defdomain : List Byte) : Decidable (AddsDomain username defdomain) :=
  inferInstanceAs (Decidable (_ ∧ _))

def domainText (username defdomain : List Byte) : List Byte :=
  if AddsDomain username defdomain then chr '@' :: defdomain else []

/- `append_username`. -/
def appendUsername (username defdomain : List Byte) : List Byte :=
  usernameText username ++ domainText username defdomain

/- `struct var_data`. -/
structure VarData where
  name : List Byte
  value : List Byte

/- What is handed to the plugin, one call after the other. -/
inductive ClausePiece where
  | text (t : List Byte)
  | value (v : VarData)

def ClausePiece.output : ClausePiece → List Byte
  | .text t => t
  | .value v => v.value

/- `strstr(q, "$(")`: the texts before and behind the mark. -/
def beforeMark : List Byte → Option (List Byte × List Byte)
  | [] => none
  | [_] => none
  | b :: c :: rest =>
    if b = chr '$' ∧ c = chr '(' then
      some ([], rest)
    else
      (beforeMark (c :: rest)).map fun found => (b :: found.1, found.2)

theorem length_beforeMark {q : List Byte} {found : List Byte × List Byte}
    (hFound : beforeMark q = some found) : found.2.length < q.length := by
  fun_induction beforeMark q generalizing found with
  | case1 => cases hFound
  | case2 => cases hFound
  | case3 b c rest hMark =>
    cases hFound
    simp only [List.length_cons]
    omega
  | case4 b c rest hMark ih =>
    rcases Option.map_eq_some_iff.mp hFound with ⟨inner, hInner, hEq⟩
    have hLess := ih hInner
    rw [← hEq]
    simp only [List.length_cons] at hLess ⊢
    omega

/- `MAX_SUBSTITUTION_LEN`. -/
def maxSubstitutionLen : Nat := 32

/- `get_variable`. -/
def getVariable (name : List Byte) (vdt : List VarData) : Option VarData :=
  if name.length < 1 then
    none
  else if maxSubstitutionLen < name.length then
    none
  else
    vdt.find? fun vdp => vdp.name = name

/- `parse_core`. -/
def parseCore (vdt : List VarData) (q : List Byte) : Option (List ClausePiece) :=
  match _hMark : beforeMark q with
  | none => if q = [] then some [] else some [.text q]
  | some (text, p) =>
    if chr ')' ∉ p then
      none
    else
      match getVariable (p.takeWhile (· ≠ chr ')')) vdt with
      | none => none
      | some v =>
        (parseCore vdt
          ((p.dropWhile (· ≠ chr ')')).tail)).map
            (.text text :: .value v :: ·)
termination_by q.length
decreasing_by
  have hLess := length_beforeMark _hMark
  have hDrop := (List.dropWhile_sublist (· ≠ chr ')') : (p.dropWhile _).Sublist p).length_le
  rw [List.length_tail]
  simp only [] at hLess
  omega

/- `ParsePlugin_counter` over all pieces. -/
def countPieces (pieces : List ClausePiece) (size : Nat) : Nat :=
  pieces.foldl (fun size piece => size + piece.output.length) size

/- `ParsePlugin_builder` over all pieces. -/
def buildPieces (pieces : List ClausePiece) : List Byte :=
  pieces.flatMap ClausePiece.output

/- `parse_string`. -/
def parseString (source : List Byte) (vdt : List VarData) : Option SqlQuery :=
  if source = [] then
    none
  else
    (parseCore vdt source).map fun pieces =>
      { size := some (countPieces pieces 2)
        text := buildPieces pieces }

/- The text without funny characters. -/
def dropFunny (text : List Byte) : List Byte :=
  text.filter fun b => !funnyCharacter b

/- `get_localpart`. -/
def getLocalpart (username : List Byte) : Option (List Byte) :=
  let part := username.takeWhile (· ≠ chr '@')
  if username = [] then
    none
  else if 128 < part.length then
    none
  else
    some (dropFunny part)

/- The name has no domain of its own. -/
def NeedsDomain (username : List Byte) : Prop :=
  (username.dropWhile (· ≠ chr '@')).tail = []

instance (username : List Byte) : Decidable (NeedsDomain username) :=
  inferInstanceAs (Decidable (_ = _))

/- `get_domain`. -/
def getDomain (username defdomain : List Byte) : Option (List Byte) :=
  let p := (username.dropWhile (· ≠ chr '@')).tail
  if username = [] then
    none
  else if NeedsDomain username then
    if defdomain ≠ [] then some defdomain else none
  else if 256 < p.length then
    none
  else
    some (dropFunny p)

/- `validateMyPassword`. -/
def validateMyPassword (password : List Byte) : Option (List Byte) :=
  if password = [] then
    none
  else if 256 < password.length then
    none
  else
    let text := escapeAll (chr '\\') (fun b => !(b = chr '"' || b = chr '\\' || b = chr '\''))
      password
    -- The buffer of 540 bytes has room for all of it.
    if 540 ≤ text.length then none else some text

/- The table of `parse_select_clause`. -/
def selectVars (username defdomain : List Byte) : Option (List VarData) :=
  (getLocalpart username).bind fun localPart =>
    (getDomain username defdomain).map fun domain =>
      [{ name := bytes "local_part", value := localPart },
        { name := bytes "domain", value := domain }]

/- `parse_select_clause`. -/
def parseSelectClause (clause username defdomain : List Byte) : Option SqlQuery :=
  if clause = [] ∨ username = [] then
    none
  else
    (selectVars username defdomain).bind (parseString clause)

/- The table of `parse_chpass_clause`. -/
def chpassVars (username defdomain newpass newpassCrypt : List Byte) : Option (List VarData) :=
  (selectVars username defdomain).bind fun vd =>
    (validateMyPassword newpass).bind fun new =>
      (validateMyPassword newpassCrypt).map fun hash =>
        vd ++ [{ name := bytes "newpass", value := new },
          { name := bytes "newpass_crypt", value := hash }]

/- `parse_chpass_clause`. -/
def parseChpassClause (clause username defdomain newpass newpassCrypt : List Byte) :
    Option SqlQuery :=
  if clause = [] ∨ username = [] ∨ newpass = [] ∨ newpassCrypt = [] then
    none
  else
    (chpassVars username defdomain newpass newpassCrypt).bind
      (parseString clause)

/- The conditions of the configuration file. -/
def whereText (whereClause : List Byte) : List Byte :=
  if whereClause ≠ [] then bytes " AND (" ++ whereClause ++ bytes ")" else []

/- `sizeof(query)`. -/
def selectSize : Nat :=
  (bytes ("SELECT %s, %s, %s, %s, %s, %s, %s, %s, %s FROM %s " ++ "WHERE %s = \"")).length + 1

/- The query up to the user name. -/
def userinfoFront (fields : List (List Byte)) (table login : List Byte) : List Byte :=
  bytes "SELECT " ++ (bytes ", ").intercalate fields ++
    bytes " FROM " ++ table ++ bytes " WHERE " ++ login ++ bytes " = "

/- The query of `auth_mysql_getuserinfo`. -/
def userinfoQuery (rc : Mysqlrc) (username : List Byte) : Option SqlQuery :=
  let defdomain := rc.defaultDomain.getD []
  match rc.selectClause with
  | some clause => parseSelectClause clause username defdomain
  | none =>
    match rc.userTable with
    | none => none
    | some table =>
      if rc.cryptPwfield = none ∧ rc.clearPwfield = none then
        none
      else
        let login := rc.loginField.getD (bytes "id")
        let cryptField := rc.cryptPwfield.getD noField
        let clearField := rc.clearPwfield.getD noField
        let uidField := rc.uidField.getD (bytes "uid")
        let gidField := rc.gidField.getD (bytes "gid")
        let homeField := rc.homeField.getD (bytes "home")
        let maildirField := rc.maildirField.getD noField
        let quotaField := rc.quotaField.getD noField
        let nameField := rc.nameField.getD noField
        let whereClause := rc.whereClause.getD []
        some
          { size := some (selectSize + 100 + table.length +
              defdomain.length + cryptField.length +
              clearField.length + maildirField.length +
              uidField.length + gidField.length +
              2 * login.length + homeField.length +
              quotaField.length + whereClause.length +
              nameField.length)
            text := userinfoFront
                [login, cryptField, clearField, uidField,
                  gidField, homeField, maildirField,
                  quotaField, nameField]
                table login ++
              doubleQuoted (appendUsername username defdomain) ++
              whereText whereClause }

/- `authcryptpasswd(password, "{crypt}")`. -/
def authcryptpasswd (crypt : List Byte → Option (List Byte)) (password : List Byte) :
    Option (List Byte) :=
  (crypt password).map (bytes "\x7bCRYPT\x7d" ++ ·)

/- What stands behind the first closing brace. -/
def behindBrace (text : List Byte) : Option (List Byte) :=
  if chr '\x7d' ∈ text then some (text.dropWhile (· ≠ chr '\x7d')).tail else none

/- The password with its quotes and backslashes escaped. -/
def escapedPassword (pass : List Byte) : List Byte :=
  escapeAll (chr '\\') (fun b => !(b = chr '"' || b = chr '\\')) pass

/- The largest value of the `int` that counts it. -/
def countMax : Nat :=
  2 ^ 31 - 1

/- The part for the clear password. -/
def clearText (clearField pass : List Byte) : List Byte :=
  if clearField ≠ [] then
    bytes " " ++ clearField ++ bytes "=" ++ doubleQuoted (escapedPassword pass)
  else
    []

/- The part for the hash, behind a comma. -/
def cryptText (clearField cryptField hash : List Byte) : List Byte :=
  if cryptField ≠ [] then
    (if clearField ≠ [] then bytes ", " else []) ++
      bytes " " ++ cryptField ++ bytes "=" ++ doubleQuoted hash
  else
    []

/-
  The query of `auth_mysql_setpass`.  Without a table it stops
  at the null pointer.
-/
def setpassQuery (rc : Mysqlrc) (crypt : List Byte → Option (List Byte))
    (user pass : List Byte) : Option SqlQuery :=
  ((authcryptpasswd crypt pass).bind behindBrace).bind fun hash =>
    if pass.any (· < 32) then
      none
    else
      let defdomain := rc.defaultDomain.getD []
      match rc.chpassClause with
      | some clause => parseChpassClause clause user defdomain pass hash
      | none =>
        rc.userTable.map fun table =>
          let login := rc.loginField.getD (bytes "id")
          let cryptField := rc.cryptPwfield.getD []
          let clearField := rc.clearPwfield.getD []
          let whereClause := rc.whereClause.getD []
          let l := (escapedPassword pass).length
          { size :=
              if l ≤ countMax then
                some (cryptField.length + clearField.length + defdomain.length + login.length + l +
                  hash.length + table.length +
                  whereClause.length + 200)
              else
                none
            text := bytes "UPDATE " ++ table ++ bytes " SET" ++ clearText clearField pass ++
              cryptText clearField cryptField hash ++
              bytes " WHERE " ++ login ++ bytes "=" ++
              doubleQuoted (appendUsername user defdomain) ++
              whereText whereClause }

end Wmail.Authlib
