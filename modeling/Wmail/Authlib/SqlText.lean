import Wmail.Authlib.Authmysqllib

/-
  Texts of users in the queries of the MySQL module.

  The room for a query is summed up without the user name, which
  a fixed reserve has to hold.

  Key theorems include:
    * `setpassSafe_iff`
    * `sqlText_iff`
-/

namespace Wmail.Authlib

/- No unescaped double quote, no unpaired backslash. -/
def CleanText (text : List Byte) : Prop :=
  unescaped (chr '\\') (fun b => b ≠ chr '"') text = true

/- The same of both quotes. -/
def CleanValue (text : List Byte) : Prop :=
  unescaped (chr '\\') (fun b => b ≠ chr '"' && b ≠ chr '\'') text = true

theorem cleanText_of_quiet {text : List Byte}
    (hQuiet : ∀ b ∈ text, b ≠ chr '"' ∧ b ≠ chr '\\') : CleanText text := by
  unfold CleanText
  rw [unescaped_of_not_mem _ fun hMem => (hQuiet _ hMem).2 rfl, List.all_eq_true]
  intro b hMem
  exact decide_eq_true (hQuiet b hMem).1

theorem cleanValue_of_quiet {text : List Byte}
    (hQuiet : ∀ b ∈ text, funnyCharacter b = false) : CleanValue text := by
  have hBackslash : chr '\\' ∉ text := by
    intro hMem
    exact absurd (hQuiet _ hMem) (by decide)
  unfold CleanValue
  rw [unescaped_of_not_mem _ hBackslash, List.all_eq_true]
  intro b hMem
  have hByte := hQuiet b hMem
  unfold funnyCharacter at hByte
  simp only [Bool.or_eq_false_iff, decide_eq_false_iff_not] at hByte
  simp [hByte.1.1.1, hByte.1.1.2]

theorem cleanText_usernameText (username : List Byte) : CleanText (usernameText username) := by
  apply cleanText_of_quiet
  intro b hMem
  rcases List.mem_map.mp hMem with ⟨c, _, hEq⟩
  split at hEq
  · rw [← hEq]
    decide
  · rename_i hPlain
    rw [← hEq]
    constructor
    · intro hQuote
      rw [hQuote] at hPlain
      exact hPlain rfl
    · intro hBackslash
      rw [hBackslash] at hPlain
      exact hPlain rfl

theorem cleanText_escapedPassword (pass : List Byte) : CleanText (escapedPassword pass) := by
  apply unescaped_escapeAll
  · decide
  · intro b hPlain
    simp only [Bool.not_eq_true', Bool.or_eq_false_iff, decide_eq_false_iff_not] at hPlain
    exact decide_eq_true hPlain.1

theorem cleanValue_dropFunny (text : List Byte) : CleanValue (dropFunny text) := by
  apply cleanValue_of_quiet
  intro b hMem
  have hKept := (List.mem_filter.mp hMem).2
  exact Bool.not_eq_true' _ ▸ hKept

theorem cleanValue_validateMyPassword {password text : List Byte}
    (hText : validateMyPassword password = some text) : CleanValue text := by
  unfold validateMyPassword at hText
  split at hText
  · cases hText
  · split at hText
    · cases hText
    · simp only [] at hText
      split at hText
      · cases hText
      · cases hText
        apply unescaped_escapeAll
        · decide
        · intro b hPlain
          simp only [Bool.not_eq_true', Bool.or_eq_false_iff, decide_eq_false_iff_not] at hPlain
          simp [hPlain.1.1, hPlain.2]

------------
-- Values of Clauses
------------

/- The variables of a clause are in the table. -/
theorem mem_of_parseCore {vdt : List VarData} {q : List Byte} {pieces : List ClausePiece}
    (hPieces : parseCore vdt q = some pieces) {v : VarData} (hMem : .value v ∈ pieces) :
    v ∈ vdt := by
  fun_induction parseCore vdt q generalizing pieces with
  | case1 =>
    cases hPieces
    cases hMem
  | case2 q hMark hSome =>
    cases hPieces
    simp at hMem
  | case3 q text p hMark hEnd => cases hPieces
  | case4 q text p hMark hEnd hVariable => cases hPieces
  | case5 q text p hMark hEnd w hVariable ih =>
    rcases Option.map_eq_some_iff.mp hPieces with ⟨more, hMore, hEq⟩
    rw [← hEq, List.mem_cons, List.mem_cons] at hMem
    rcases hMem with hText | hValue | hRest
    · cases hText
    · cases hValue
      unfold getVariable at hVariable
      split at hVariable
      · cases hVariable
      · split at hVariable
        · cases hVariable
        · exact List.mem_of_find?_eq_some hVariable
    · exact ih hMore hRest

theorem countPieces_eq (pieces : List ClausePiece) (size : Nat) :
    countPieces pieces size = size + (buildPieces pieces).length := by
  unfold countPieces
  induction pieces generalizing size with
  | nil => rfl
  | cons piece pieces ih =>
    have hBuild : buildPieces (piece :: pieces) = piece.output ++ buildPieces pieces := rfl
    rw [List.foldl_cons, ih, hBuild, List.length_append]
    omega

variable {query : SqlQuery}

/- What is counted is enough for what is built. -/
theorem parseString_fits {source : List Byte} {vdt : List VarData}
    (hQuery : parseString source vdt = some query) : query.Fits := by
  unfold parseString at hQuery
  split at hQuery
  · cases hQuery
  · rcases Option.map_eq_some_iff.mp hQuery with ⟨pieces, _, hEq⟩
    rw [← hEq]
    refine ⟨_, rfl, ?_⟩
    rw [countPieces_eq]
    simp only []
    omega

/- The values that a clause substitutes are clean. -/
def ValuesClean (clause : List Byte) (vdt : List VarData) : Prop :=
  ∀ pieces, parseCore vdt clause = some pieces → ∀ v, .value v ∈ pieces → CleanValue v.value

/- The clause asks for the domain of the user. -/
def AsksDomain (clause : List Byte) (vdt : List VarData) : Prop :=
  ∃ pieces, parseCore vdt clause = some pieces ∧ ∃ v, .value v ∈ pieces ∧ v.name = bytes "domain"

theorem selectVars_eq {username defdomain : List Byte} {vd : List VarData}
    (hVars : selectVars username defdomain = some vd) :
    ∃ localPart domain, getLocalpart username = some localPart ∧
        getDomain username defdomain = some domain ∧
        vd = [{ name := bytes "local_part", value := localPart },
          { name := bytes "domain", value := domain }] := by
  unfold selectVars at hVars
  rcases Option.bind_eq_some_iff.mp hVars with ⟨localPart, hLocal, hRest⟩
  rcases Option.map_eq_some_iff.mp hRest with ⟨domain, hDomain, hEq⟩
  exact ⟨localPart, domain, hLocal, hDomain, hEq.symm⟩

theorem cleanValue_getLocalpart {username localPart : List Byte}
    (hLocal : getLocalpart username = some localPart) : CleanValue localPart := by
  unfold getLocalpart at hLocal
  simp only [] at hLocal
  split at hLocal
  · cases hLocal
  · split at hLocal
    · cases hLocal
    · cases hLocal
      exact cleanValue_dropFunny _

/- A domain is clean, or the default one. -/
theorem getDomain_cases {username defdomain domain : List Byte}
    (hDomain : getDomain username defdomain = some domain) :
    (NeedsDomain username ∧ domain = defdomain) ∨ (¬ NeedsDomain username ∧ CleanValue domain) := by
  unfold getDomain at hDomain
  simp only [] at hDomain
  split at hDomain
  · cases hDomain
  · split at hDomain
    · rename_i hNeeds
      split at hDomain
      · cases hDomain
        exact Or.inl ⟨hNeeds, rfl⟩
      · cases hDomain
    · rename_i hOwn
      split at hDomain
      · cases hDomain
      · cases hDomain
        exact Or.inr ⟨hOwn, cleanValue_dropFunny _⟩

/- Only a default domain can be unclean. -/
theorem valuesClean_iff {clause username defdomain : List Byte} {vd more : List VarData}
    (hVars : selectVars username defdomain = some vd)
    (hNames : ∀ v ∈ more, v.name ≠ bytes "domain") (hClean : ∀ v ∈ more, CleanValue v.value) :
    ValuesClean clause (vd ++ more) ↔ (NeedsDomain username →
        AsksDomain clause (vd ++ more) → CleanValue defdomain) := by
  rcases selectVars_eq hVars with ⟨localPart, domain, hLocal, hDomain, hTable⟩
  have hMember : ∀ v ∈ vd ++ more, v.value = domain ∧ v.name = bytes "domain" ∨
        v.name ≠ bytes "domain" ∧ CleanValue v.value := by
    intro v hMem
    rcases List.mem_append.mp hMem with hVar | hMore
    · rw [hTable, List.mem_cons, List.mem_singleton] at hVar
      rcases hVar with hFirst | hSecond
      · rw [hFirst]
        exact Or.inr ⟨(by decide : bytes "local_part" ≠ bytes "domain"),
            cleanValue_getLocalpart hLocal⟩
      · rw [hSecond]
        exact Or.inl ⟨rfl, rfl⟩
    · exact Or.inr ⟨hNames v hMore, hClean v hMore⟩
  constructor
  · rintro hValues hNeeds ⟨pieces, hPieces, v, hMem, hName⟩
    have hValue := hValues pieces hPieces v hMem
    rcases hMember v (mem_of_parseCore hPieces hMem) with hIs | hOther
    · rw [hIs.1] at hValue
      rcases getDomain_cases hDomain with hDefault | hOwn
      · rw [← hDefault.2]
        exact hValue
      · exact absurd hNeeds hOwn.1
    · exact absurd hName hOther.1
  · intro hDefault pieces hPieces v hMem
    rcases hMember v (mem_of_parseCore hPieces hMem) with hIs | hOther
    · rw [hIs.1]
      rcases getDomain_cases hDomain with hNeeds | hOwn
      · rw [hNeeds.2]
        exact hDefault hNeeds.1 ⟨pieces, hPieces, v, hMem, hIs.2⟩
      · exact hOwn.2
    · exact hOther.2

/-
  A part of a query: a text of the settings, or a literal with
  the user name, the password or its hash.
-/
inductive SqlPart where
  | settings (text : List Byte)
  | username
  | password
  | hash

def SqlPart.text (defdomain username password hash : List Byte) : SqlPart → List Byte
  | .settings text => text
  | .username => doubleQuoted (usernameText username ++ domainText username defdomain)
  | .password => doubleQuoted (escapedPassword password)
  | .hash => doubleQuoted hash

/- The query for a user, without the user. -/
def userinfoParts (rc : Mysqlrc) : List SqlPart :=
  [.settings (userinfoFront
      [rc.loginField.getD (bytes "id"),
        rc.cryptPwfield.getD noField,
        rc.clearPwfield.getD noField,
        rc.uidField.getD (bytes "uid"),
        rc.gidField.getD (bytes "gid"),
        rc.homeField.getD (bytes "home"),
        rc.maildirField.getD noField,
        rc.quotaField.getD noField,
        rc.nameField.getD noField]
      (rc.userTable.getD []) (rc.loginField.getD (bytes "id"))),
    .username,
    .settings (whereText (rc.whereClause.getD []))]

/- The query for a password, without user and password. -/
def setpassParts (rc : Mysqlrc) : List SqlPart :=
  let clearField := rc.clearPwfield.getD []
  let cryptField := rc.cryptPwfield.getD []
  [.settings (bytes "UPDATE " ++ rc.userTable.getD [] ++ bytes " SET")] ++
    (if clearField ≠ [] then
      [.settings (bytes " " ++ clearField ++ bytes "="), .password]
    else
      []) ++
    (if cryptField ≠ [] then
      [.settings ((if clearField ≠ [] then bytes ", " else []) ++
          bytes " " ++ cryptField ++ bytes "="),
        .hash]
    else
      []) ++
    [.settings (bytes " WHERE " ++ rc.loginField.getD (bytes "id") ++ bytes "="),
      .username,
      .settings (whereText (rc.whereClause.getD []))]

/- A query that is built from its parts. -/
def BuiltFrom (parts : List SqlPart) (defdomain username password hash : List Byte)
    (query : SqlQuery) : Prop :=
  query.text = parts.flatMap (SqlPart.text defdomain username password hash)

/-
  Without a clause the query fits its buffer, and the user name
  is clean in its literal; in a clause all values are clean.
-/
def UserinfoSafe (rc : Mysqlrc) (username : List Byte) : Prop :=
  ∀ query, userinfoQuery rc username = some query →
    match rc.selectClause with
    | none =>
      query.Fits ∧ BuiltFrom (userinfoParts rc) (rc.defaultDomain.getD []) username [] [] query ∧
        CleanText (usernameText username)
    | some clause =>
      query.Fits ∧ ∀ vd, selectVars username (rc.defaultDomain.getD []) =
            some vd → ValuesClean clause vd

/- The reserve is enough for the user name. -/
def UserinfoRoom (rc : Mysqlrc) (username : List Byte) : Prop :=
  let defdomain := rc.defaultDomain.getD []
  username.length + (if AddsDomain username defdomain then 1 else 0) +
      (if rc.whereClause.getD [] ≠ [] then 7 else 0) ≤
    121 + (if AddsDomain username defdomain then
        0
      else
        defdomain.length)

/-
  The reserve is enough; a default domain that a clause asks
  for is clean.
-/
def UserinfoFine (rc : Mysqlrc) (username : List Byte) : Prop :=
  ∀ query, userinfoQuery rc username = some query →
    match rc.selectClause with
    | none => UserinfoRoom rc username
    | some clause =>
      NeedsDomain username → ∀ vd, selectVars username (rc.defaultDomain.getD []) = some vd →
            AsksDomain clause vd → CleanValue (rc.defaultDomain.getD [])

theorem length_domainText (username defdomain : List Byte) :
    (domainText username defdomain).length =
      if AddsDomain username defdomain then 1 + defdomain.length else 0 := by
  unfold domainText
  split
  · rw [List.length_cons, Nat.add_comm]
  · rfl

theorem length_usernameText (username : List Byte) :
    (usernameText username).length = username.length :=
  List.length_map _

theorem length_whereText (whereClause : List Byte) : (whereText whereClause).length =
      whereClause.length + (if whereClause ≠ [] then 7 else 0) := by
  have hAnd : (bytes " AND (").length = 6 := by decide
  have hEnd : (bytes ")").length = 1 := by decide
  unfold whereText
  split
  · rw [List.length_append, List.length_append, hAnd, hEnd]
    omega
  · rename_i hNone
    rw [not_not.mp hNone]
    rfl

theorem length_doubleQuoted (text : List Byte) : (doubleQuoted text).length = text.length + 2 := by
  unfold doubleQuoted
  rw [List.length_cons, List.length_append]
  rfl

theorem length_userinfoFront (a b c d e f g h i table login : List Byte) :
    (userinfoFront [a, b, c, d, e, f, g, h, i] table login).length =
      39 + a.length + b.length + c.length + d.length +
        e.length + f.length + g.length + h.length + i.length +
        table.length + login.length := by
  have hSelect : (bytes "SELECT ").length = 7 := by decide
  have hComma : (bytes ", ").length = 2 := by decide
  have hFrom : (bytes " FROM ").length = 6 := by decide
  have hWhere : (bytes " WHERE ").length = 7 := by decide
  have hEqual : (bytes " = ").length = 3 := by decide
  unfold userinfoFront List.intercalate
  simp only [List.intersperse, List.flatten_cons, List.flatten_nil, List.length_append,
    List.length_nil, hSelect, hComma, hFrom, hWhere, hEqual]
  omega

/- The room without a clause. -/
theorem userinfoSafe_plain {rc : Mysqlrc} {username : List Byte}
    (hClause : rc.selectClause = none) (hQuery : userinfoQuery rc username = some query) :
    (query.Fits ↔ UserinfoRoom rc username) ∧
      BuiltFrom (userinfoParts rc) (rc.defaultDomain.getD []) username [] [] query := by
  have hSize : selectSize = 63 := by decide
  unfold userinfoQuery at hQuery
  simp only [hClause] at hQuery
  cases hTable : rc.userTable with
  | none =>
    rw [hTable] at hQuery
    cases hQuery
  | some table =>
    simp only [hTable] at hQuery
    split at hQuery
    · cases hQuery
    · cases hQuery
      constructor
      · unfold SqlQuery.Fits UserinfoRoom
        simp only [Option.some.injEq, exists_eq_left', List.length_append, length_userinfoFront,
          length_doubleQuoted, appendUsername, length_usernameText, length_domainText,
          length_whereText, hSize]
        split
        · omega
        · omega
      · unfold BuiltFrom userinfoParts SqlPart.text
        simp only [hTable, Option.getD_some, List.flatMap_cons, List.flatMap_nil,
          appendUsername, List.append_nil, List.append_assoc]

theorem parseSelectClause_fits {clause username defdomain : List Byte}
    (hQuery : parseSelectClause clause username defdomain = some query) : query.Fits := by
  unfold parseSelectClause at hQuery
  split at hQuery
  · cases hQuery
  · rcases Option.bind_eq_some_iff.mp hQuery with ⟨vd, _, hString⟩
    exact parseString_fits hString

theorem userinfoSafe_iff (rc : Mysqlrc) (username : List Byte) :
    UserinfoSafe rc username ↔ UserinfoFine rc username := by
  apply forall_congr'
  intro query
  apply forall_congr'
  intro hQuery
  cases hClause : rc.selectClause with
  | none =>
    rcases userinfoSafe_plain hClause hQuery with ⟨hFits, hBuilt⟩
    exact ⟨fun hSafe => hFits.mp hSafe.1, fun hRoom =>
      ⟨hFits.mpr hRoom, hBuilt, cleanText_usernameText username⟩⟩
  | some clause =>
    unfold userinfoQuery at hQuery
    simp only [hClause] at hQuery
    have hEach : ∀ vd, selectVars username (rc.defaultDomain.getD []) = some vd →
          (ValuesClean clause vd ↔
            (NeedsDomain username → AsksDomain clause vd →
              CleanValue (rc.defaultDomain.getD []))) := by
      intro vd hVars
      have hIff := @valuesClean_iff clause username (rc.defaultDomain.getD []) vd [] hVars
        (fun v hMem => nomatch hMem) fun v hMem => nomatch hMem
      rwa [List.append_nil] at hIff
    constructor
    · rintro ⟨_, hValues⟩ hNeeds vd hVars
      exact (hEach vd hVars).mp (hValues vd hVars) hNeeds
    · intro hDefault
      refine ⟨parseSelectClause_fits hQuery, ?_⟩
      intro vd hVars
      apply (hEach vd hVars).mpr
      intro hNeeds
      exact hDefault hNeeds vd hVars

------------
-- The Query for a New Password
------------

/- A hash has none of the characters that end a literal. -/
def PlainHash (crypt : List Byte → Option (List Byte)) : Prop :=
  ∀ password hash, crypt password = some hash → ∀ b ∈ hash, b ≠ chr '"' ∧ b ≠ chr '\\'

/-
  Without a clause the query fits its buffer, and the user name,
  the password and its hash are clean in their literals; in a
  clause all values are clean.
-/
def SetpassSafe (rc : Mysqlrc) (crypt : List Byte → Option (List Byte))
    (user pass : List Byte) : Prop :=
  let defdomain := rc.defaultDomain.getD []
  ∀ query, setpassQuery rc crypt user pass = some query → ∀ hash, crypt pass = some hash →
      match rc.chpassClause with
      | none =>
        query.Fits ∧ BuiltFrom (setpassParts rc) defdomain user pass hash query ∧
          CleanText (usernameText user) ∧
          CleanText (escapedPassword pass) ∧
          CleanText hash
      | some clause =>
        query.Fits ∧ ∀ vd, chpassVars user defdomain pass hash = some vd → ValuesClean clause vd

/-
  The password is counted, and the reserve is enough for the
  user name and the punctuation.
-/
def SetpassRoom (rc : Mysqlrc) (user pass hash : List Byte) : Prop :=
  let defdomain := rc.defaultDomain.getD []
  let clearField := rc.clearPwfield.getD []
  let cryptField := rc.cryptPwfield.getD []
  let l := (escapedPassword pass).length
  l ≤ countMax ∧ user.length + 22 + (if clearField ≠ [] then 4 else 0) +
        (if cryptField ≠ [] then 4 else 0) +
        (if clearField ≠ [] ∧ cryptField ≠ [] then 2 else 0) +
        (if AddsDomain user defdomain then 1 else 0) +
        (if rc.whereClause.getD [] ≠ [] then 7 else 0) ≤
      200 + (if clearField = [] then l else 0) + (if cryptField = [] then hash.length else 0) +
        (if AddsDomain user defdomain then
          0
        else
          defdomain.length)

/-
  There is room; a default domain that a clause asks for is
  clean.
-/
def SetpassFine (rc : Mysqlrc) (crypt : List Byte → Option (List Byte))
    (user pass : List Byte) : Prop :=
  let defdomain := rc.defaultDomain.getD []
  ∀ query, setpassQuery rc crypt user pass = some query → ∀ hash, crypt pass = some hash →
      match rc.chpassClause with
      | none => SetpassRoom rc user pass hash
      | some clause =>
        NeedsDomain user → ∀ vd, chpassVars user defdomain pass hash = some vd →
              AsksDomain clause vd → CleanValue defdomain

/- The hash is what stands behind its method. -/
theorem behindBrace_crypt (hash : List Byte) :
    behindBrace (bytes "\x7bCRYPT\x7d" ++ hash) = some hash := by
  unfold behindBrace
  rw [if_pos (List.mem_append_left _ (by decide))]
  have hMethod : bytes "\x7bCRYPT\x7d" = bytes "\x7bCRYPT" ++ [chr '\x7d'] := by decide
  have hBefore : ∀ b ∈ bytes "\x7bCRYPT", decide (b ≠ chr '\x7d') = true :=
    List.all_eq_true.mp (by decide)
  rw [hMethod, List.append_assoc, List.dropWhile_append_of_pos hBefore]
  rfl

theorem length_clearText (clearField pass : List Byte) : (clearText clearField pass).length =
      if clearField ≠ [] then 4 + clearField.length + (escapedPassword pass).length else 0 := by
  have hBlank : (bytes " ").length = 1 := by decide
  have hEqual : (bytes "=").length = 1 := by decide
  unfold clearText
  split
  · simp only [List.length_append, length_doubleQuoted, hBlank, hEqual]
    omega
  · rfl

theorem length_cryptText (clearField cryptField hash : List Byte) :
    (cryptText clearField cryptField hash).length =
      if cryptField ≠ [] then
        4 + cryptField.length + hash.length + (if clearField ≠ [] then 2 else 0)
      else
        0 := by
  have hBlank : (bytes " ").length = 1 := by decide
  have hEqual : (bytes "=").length = 1 := by decide
  have hComma : (if clearField ≠ [] then bytes ", "
      else []).length = if clearField ≠ [] then 2 else 0 := by
    split
    · decide
    · rfl
  unfold cryptText
  split
  · simp only [List.length_append, length_doubleQuoted, hBlank, hEqual, hComma]
    omega
  · rfl

variable {crypt : List Byte → Option (List Byte)}

/- The room without a clause. -/
theorem setpassSafe_plain {rc : Mysqlrc} {user pass hash : List Byte}
    (hClause : rc.chpassClause = none) (hHash : crypt pass = some hash)
    (hQuery : setpassQuery rc crypt user pass = some query) :
    (query.Fits ↔ SetpassRoom rc user pass hash) ∧
      BuiltFrom (setpassParts rc) (rc.defaultDomain.getD []) user
        pass hash query := by
  have hUpdate : (bytes "UPDATE ").length = 7 := by decide
  have hSet : (bytes " SET").length = 4 := by decide
  have hWhere : (bytes " WHERE ").length = 7 := by decide
  have hEqual : (bytes "=").length = 1 := by decide
  unfold setpassQuery authcryptpasswd at hQuery
  rw [hHash, Option.map_some, Option.bind_some, behindBrace_crypt, Option.bind_some] at hQuery
  split at hQuery
  · cases hQuery
  · simp only [hClause] at hQuery
    rcases Option.map_eq_some_iff.mp hQuery with ⟨table, hTable, hEq⟩
    rw [← hEq]
    constructor
    · unfold SqlQuery.Fits SetpassRoom
      simp only [List.length_append, length_clearText, length_cryptText, length_doubleQuoted,
        appendUsername, length_usernameText, length_domainText, length_whereText, hUpdate, hSet,
        hWhere, hEqual]
      split
      · rename_i hCount
        simp only [Option.some.injEq, exists_eq_left', hCount, true_and]
        by_cases hClear : rc.clearPwfield.getD [] = []
        · by_cases hCrypt : rc.cryptPwfield.getD [] = []
          · simp only [hClear, hCrypt, ne_eq, not_true, if_false,
              if_true, and_self, List.length_nil]
            split <;> omega
          · simp only [hClear, hCrypt, ne_eq, not_true, not_false_eq_true, if_false, if_true,
              and_true, List.length_nil]
            split <;> omega
        · by_cases hCrypt : rc.cryptPwfield.getD [] = []
          · simp only [hClear, hCrypt, ne_eq, not_true, not_false_eq_true, if_false, if_true,
              and_false, List.length_nil]
            split <;> omega
          · simp only [hClear, hCrypt, ne_eq, not_false_eq_true, if_false, if_true, and_self]
            split <;> omega
      · rename_i hCount
        apply iff_of_false
        · rintro ⟨size, hSize, _⟩
          cases hSize
        · exact fun hRoom => hCount hRoom.1
    · unfold BuiltFrom setpassParts clearText cryptText
      simp only [hTable, Option.getD_some, appendUsername]
      split
      · split
        · simp [SqlPart.text]
        · simp [SqlPart.text]
      · split
        · simp [SqlPart.text]
        · simp [SqlPart.text]

/- The table of the clause for a password. -/
theorem chpassVars_eq {user defdomain pass hash : List Byte} {vd : List VarData}
    (hVars : chpassVars user defdomain pass hash = some vd) :
    ∃ select more, selectVars user defdomain = some select ∧ vd = select ++ more ∧
        (∀ v ∈ more, v.name ≠ bytes "domain") ∧
        ∀ v ∈ more, CleanValue v.value := by
  unfold chpassVars at hVars
  rcases Option.bind_eq_some_iff.mp hVars with ⟨select, hSelect, hRest⟩
  rcases Option.bind_eq_some_iff.mp hRest with ⟨new, hNew, hLast⟩
  rcases Option.map_eq_some_iff.mp hLast with ⟨crypted, hCrypted, hEq⟩
  refine ⟨select, _, hSelect, hEq.symm, ?_, ?_⟩
  · rw [List.forall_mem_cons, List.forall_mem_singleton]
    exact ⟨(by decide : bytes "newpass" ≠ bytes "domain"),
      (by decide : bytes "newpass_crypt" ≠ bytes "domain")⟩
  · rw [List.forall_mem_cons, List.forall_mem_singleton]
    exact ⟨cleanValue_validateMyPassword hNew, cleanValue_validateMyPassword hCrypted⟩

/- A clause for a password fits what was counted for it. -/
theorem setpassQuery_clause_fits {rc : Mysqlrc} {user pass clause : List Byte}
    (hClause : rc.chpassClause = some clause)
    (hQuery : setpassQuery rc crypt user pass = some query) : query.Fits := by
  unfold setpassQuery at hQuery
  rcases Option.bind_eq_some_iff.mp hQuery with ⟨hash, _, hBody⟩
  split at hBody
  · cases hBody
  · simp only [hClause] at hBody
    unfold parseChpassClause at hBody
    split at hBody
    · cases hBody
    · rcases Option.bind_eq_some_iff.mp hBody with ⟨vd, _, hString⟩
      exact parseString_fits hString

theorem setpassSafe_iff (rc : Mysqlrc) (hCrypt : PlainHash crypt) (user pass : List Byte) :
    SetpassSafe rc crypt user pass ↔ SetpassFine rc crypt user pass := by
  apply forall_congr'
  intro query
  apply forall_congr'
  intro hQuery
  apply forall_congr'
  intro hash
  apply forall_congr'
  intro hHash
  cases hClause : rc.chpassClause with
  | none =>
    rcases setpassSafe_plain hClause hHash hQuery with ⟨hFits, hBuilt⟩
    exact ⟨fun hSafe => hFits.mp hSafe.1, fun hRoom =>
      ⟨hFits.mpr hRoom, hBuilt, cleanText_usernameText user, cleanText_escapedPassword pass,
        cleanText_of_quiet (hCrypt pass hash hHash)⟩⟩
  | some clause =>
    have hEach : ∀ vd, chpassVars user (rc.defaultDomain.getD []) pass hash = some vd →
          (ValuesClean clause vd ↔
            (NeedsDomain user → AsksDomain clause vd →
              CleanValue (rc.defaultDomain.getD []))) := by
      intro vd hVars
      rcases chpassVars_eq hVars with ⟨select, more, hSelect, hTable, hNames, hClean⟩
      rw [hTable]
      exact valuesClean_iff hSelect hNames hClean
    constructor
    · rintro ⟨_, hValues⟩ hNeeds vd hVars
      exact (hEach vd hVars).mp (hValues vd hVars) hNeeds
    · intro hDefault
      refine ⟨setpassQuery_clause_fits hClause hQuery, ?_⟩
      intro vd hVars
      apply (hEach vd hVars).mpr
      intro hNeeds
      exact hDefault hNeeds vd hVars

/-
  The texts of users are safe in the queries just if the reserve
  is enough for the user name, and a default domain that a
  clause asks for is clean.
-/
theorem sqlText_iff (rc : Mysqlrc) (crypt : List Byte → Option (List Byte))
    (hCrypt : PlainHash crypt) (user pass : List Byte) :
    UserinfoSafe rc user ∧ SetpassSafe rc crypt user pass ↔
      UserinfoFine rc user ∧ SetpassFine rc crypt user pass :=
  and_congr (userinfoSafe_iff rc user) (setpassSafe_iff rc hCrypt user pass)

/- A file that names just a table and a field. -/
def smallMysqlrc : Mysqlrc :=
  { selectClause := none
    chpassClause := none
    defaultDomain := none
    userTable := some (bytes "passwd")
    cryptPwfield := some (bytes "crypt")
    clearPwfield := none
    nameField := none
    uidField := none
    gidField := none
    loginField := none
    homeField := none
    maildirField := none
    quotaField := none
    whereClause := none }

/- Hashes of one text that is plain. -/
theorem plainHash_const : PlainHash fun _ => some (bytes "ab") := by
  intro password hash hHash b hMem
  cases hHash
  have hAll : (bytes "ab").all (fun b => b ≠ chr '"' ∧ b ≠ chr '\\') = true := by decide
  exact of_decide_eq_true (List.all_eq_true.mp hAll b hMem)

/- With the small file. -/
theorem sqlText_small : PlainHash (fun _ => some (bytes "ab")) ∧
      (UserinfoSafe smallMysqlrc (bytes "user") ∧
          SetpassSafe smallMysqlrc (fun _ => some (bytes "ab")) (bytes "user") (bytes "pw") ↔
        UserinfoFine smallMysqlrc (bytes "user") ∧
          SetpassFine smallMysqlrc (fun _ => some (bytes "ab")) (bytes "user") (bytes "pw")) :=
  ⟨plainHash_const, sqlText_iff smallMysqlrc _ plainHash_const _ _⟩

/- A name of 122 characters is one too long. -/
theorem not_sqlText : ¬ ∀ rc crypt, PlainHash crypt → ∀ user pass,
      UserinfoSafe rc user ∧ SetpassSafe rc crypt user pass := by
  intro hAll
  have hSafe := (hAll smallMysqlrc _ plainHash_const (List.replicate 122 (chr 'a')) (bytes "pw")).1
  have hRoom : UserinfoRoom smallMysqlrc (List.replicate 122 (chr 'a')) :=
    (userinfoSafe_iff _ _).mp hSafe _ rfl
  simp [UserinfoRoom, AddsDomain, smallMysqlrc] at hRoom

end Wmail.Authlib
