import Wmail.Maildir.Maildirquota

/-
  Mail filters: rules are validated, written as a maildrop
  script, and read back from the comments of that script.

  A C string is the list of its bytes.  What is written is a
  list of pieces, so that the text that comes from a user can
  be told from the script around it.

  Key definitions include:
    * `ruleupdate`
-/

namespace Wmail.Maildir

/- `enum maildirfiltertype`. -/
inductive FilterType where
  | startswith
  | endswith
  | contains
  | hasrecipient
  | mimemultipart
  | textplain
  | islargerthan
deriving DecidableEq

/- `typelist`. -/
def typelist : List (FilterType × List Byte) :=
  [(.startswith, bytes "startswith"),
    (.endswith, bytes "endswith"),
    (.contains, bytes "contains"),
    (.hasrecipient, bytes "hasrecipient"),
    (.mimemultipart, bytes "mimemultipart"),
    (.textplain, bytes "textplain"),
    (.islargerthan, bytes "islargerthan")]

/- The constructor's number is the place in `typelist`. -/
def FilterType.name (type : FilterType) : List Byte :=
  (typelist[type.ctorIdx]?.map Prod.snd).getD []

/- `MFR_DOESNOT`. -/
def MFR_DOESNOT : UInt32 := 1

/- `MFR_BODY`. -/
def MFR_BODY : UInt32 := 2

/- `MFR_CONTINUE`. -/
def MFR_CONTINUE : UInt32 := 4

/- `MFR_PLAINSTRING`. -/
def MFR_PLAINSTRING : UInt32 := 8

/- `flags & flag`. -/
def hasFlag (flags flag : UInt32) : Bool :=
  flags &&& flag ≠ 0

/- `struct maildirfilterrule`. -/
structure Rule where
  rulename : List Byte
  type : FilterType
  flags : UInt32
  fieldname : List Byte
  fieldvalue : List Byte
  tofolder : List Byte
  fromhdr : List Byte
deriving DecidableEq

/- The codes that `maildir_filter_ruleupdate` fails with. -/
inductive FilterError where
  | badRuleName
  | badRuleHeader
  | badRuleValue
  | badFromHdr
  | badRuleFolder
deriving DecidableEq

/- `struct maildir_filter_autoresp_info`. -/
structure AutorespInfo where
  name : List Byte
  dsnflag : Bool
  days : UInt32
deriving DecidableEq

/- `atoi`. -/
def atoi (text : List Byte) : Int32 :=
  match scanInt text with
  | none => 0
  | some (n, _) => (longOf n).toInt32

/- A number that fits into an `int` is read as it stands. -/
theorem atoi_of_scanInt {text rest : List Byte} {n : Int}
    (hScan : scanInt text = some (n, rest)) (hLow : -2 ^ 31 ≤ n) (hHigh : n < 2 ^ 31) :
    (atoi text).toInt = n := by
  have hLong : longOf n = Int64.ofInt n := longOf_eq_ofInt (by omega) (by omega)
  have hSize : (Int32.size : Int) = 2 ^ 32 := rfl
  unfold atoi
  rw [hScan]
  simp only [hLong, Int64.toInt32_ofInt, Int32.toInt_ofInt]
  exact Int.bmod_eq_of_le (by omega) (by omega)

/- The bytes ` \t\r\n` between two words of `strtok`. -/
def strtokSep (b : Byte) : Bool :=
  b = 32 || b = 9 || b = cr || b = nl

/- One word after the name. -/
def AutorespInfo.argument (ai : AutorespInfo) (p : List Byte) : AutorespInfo :=
  if (bytes "dsn=").isPrefixOf p then
    { ai with dsnflag := atoi (p.drop 4) ≠ 0 }
  else if (bytes "days=").isPrefixOf p then
    { ai with days := (atoi (p.drop 5)).toUInt32 }
  else
    ai

/-
  `maildir_filter_autoresp_info_init_str`.  The name ends
  where `strtok` ends the first word, but it begins where the
  string does.
-/
def autorespInfoInitStr (c : List Byte) : Option AutorespInfo :=
  match (c.splitOnP strtokSep).filter (!·.isEmpty) with
  | [] => none
  | _ :: arguments =>
    some (arguments.foldl AutorespInfo.argument
      { name := c.takeWhile strtokSep ++ (c.dropWhile strtokSep).takeWhile (!strtokSep ·)
        dsnflag := false
        days := 0 })

/- The byte of a backquote. -/
def backquote : Byte :=
  96

/- A quote of any kind. -/
def isquote (b : Byte) : Bool :=
  b = chr '\'' || b = chr '"' || b = backquote

/- `maildir_filter_ruleupdate` on the name of the rule. -/
def checkRulename (name : List Byte) : Bool :=
  name ≠ [] && name.length ≤ 200 && name.all fun b => !(b < 32 || isquote b)

/- `MDIRSEP[0]`. -/
def mdirsep : Byte :=
  chr ':'

/- Whether a header's name can be left out. -/
def headerOptional (type : FilterType) (flags : UInt32) : Bool :=
  match type with
  | .hasrecipient | .islargerthan | .mimemultipart
  | .textplain => true
  | .contains | .startswith | .endswith => hasFlag flags MFR_BODY

/- `maildir_filter_ruleupdate` on a header's name. -/
def checkHeader (type : FilterType) (flags : UInt32) (header : List Byte) : Bool :=
  header.length ≤ 200 &&
    if header = [] then
      headerOptional type flags
    else
      header.all fun b =>
        !(b ≤ 32 || b = mdirsep || 127 ≤ b || isquote b || b = chr '\\' || b = chr '/')

/- Where the loop over a pattern is in a `[...]` set. -/
inductive SetPlace where
  -- before an element that may be a `]`
  | element
  -- after an element
  | next
  -- after the `-` of a range
  | range
deriving DecidableEq

/-
  The loop over a pattern, inside a set or outside of all
  sets, with the number of open parentheses.
-/
def checkPattern (type : FilterType) : Option SetPlace → Nat → List Byte → Bool
  | none, lparencount, [] => lparencount = 0
  | none, lparencount, b :: rest =>
    if b = chr '/' || b = chr '$' || b = chr '!' || b < 32 || isquote b then
      -- must be escaped
      false
    else if type = .islargerthan && !isdigit b then
      false
    else if b = chr '(' then
      type ≠ .hasrecipient && rest.head? ≠ some (chr ')') &&
        checkPattern type none (lparencount + 1) rest
    else if b = chr ')' then
      type ≠ .hasrecipient && lparencount ≠ 0 && checkPattern type none (lparencount - 1) rest
    else if b = chr '[' then
      type ≠ .hasrecipient && checkPattern type (some .element) lparencount rest
    else if b = chr '\\' then
      match rest with
      | [] => false
      | _ :: rest => type ≠ .hasrecipient && checkPattern type none lparencount rest
    else
      checkPattern type none lparencount rest
  | some _, _, [] => false
  | some place, lparencount, b :: rest =>
    if place = .next && b = chr ']' then
      checkPattern type none lparencount rest
    else if place = .next && b = chr '-' then
      checkPattern type (some .range) lparencount rest
    else
      let after : SetPlace :=
        if place = .range then .element else .next
      if isquote b then
        false
      else if b = chr '\\' then
        match rest with
        | [] => false
        | b :: rest => 32 ≤ b && checkPattern type (some after) lparencount rest
      else
        32 ≤ b && checkPattern type (some after) lparencount rest

/- Whether the value can be left out. -/
def valueOptional : FilterType → Bool
  | .mimemultipart | .textplain => true
  | _ => false

/- `maildir_filter_ruleupdate` on the value. -/
def checkValue (type : FilterType) (flags : UInt32) (value : List Byte) : Bool :=
  value.length ≤ 200 &&
    if value = [] then
      valueOptional type
    else
      hasFlag flags MFR_PLAINSTRING || checkPattern type none 0 value

/- The loop over the address for automatic replies. -/
def checkFromhdr (fromhdr : List Byte) : Bool :=
  fromhdr.all fun b => !(b = chr '\'' || b = chr '\\' || b < 32)

/- The loop over the address or the text of a `!` or `*`. -/
def checkForward (text : List Byte) : Bool :=
  text.all fun b => !((bytes "'\"$\\`;()\x7b\x7d#&<>~").contains b || b < 32)

/- The loop over the name of a folder. -/
def checkFolderName : List Byte → Bool
  | [] => true
  | b :: rest =>
    !(b = chr '.' && (rest.head? = some (chr '.') || rest = [])) &&
    !(b < 32 || b = chr '\\' || b = chr '|' || b = chr '!') &&
    checkFolderName rest

/- An address, a text, an automatic reply, or a folder. -/
def checkTarget (folder : List Byte) : Bool :=
  match folder with
  | [] => true
  | b :: rest =>
    if b = chr '*' || b = chr '!' then
      checkForward rest
    else if b = chr '+' then
      (autorespInfoInitStr rest).isSome
    else
      folder = bytes "." || checkFolderName folder

/- `maildir_filter_ruleupdate` on the folder. -/
def checkFolder (folder : List Byte) : Bool :=
  folder.length ≤ 200 && checkTarget folder

/- A dot comes first by default. -/
def dotFolder (folder : List Byte) : List Byte :=
  match folder with
  | [] => bytes "."
  | b :: _ =>
    if b ≠ chr '*' && b ≠ chr '!' && b ≠ chr '.' && b ≠ chr '+' then
      bytes "." ++ folder
    else
      folder

/-
  `maildir_filter_ruleupdate`: the new contents of the rule.
  A null pointer is `none`; `fromhdr` is not tested for one.
-/
def ruleupdate (name : Option (List Byte)) (type : FilterType) (flags : UInt32)
    (header value folder : Option (List Byte)) (fromhdr : List Byte) : Except FilterError Rule :=
  let fromhdr := fromhdr.dropWhile isspace
  if !checkRulename (name.getD []) then
    .error .badRuleName
  else if !checkHeader type flags (header.getD []) then
    .error .badRuleHeader
  else if !checkValue type flags (value.getD []) then
    .error .badRuleValue
  else if !checkFromhdr fromhdr then
    .error .badFromHdr
  else
    match folder with
    | none => .error .badRuleFolder
    | some folder =>
      if !checkFolder folder then
        .error .badRuleFolder
      else
        .ok
          { rulename := name.getD []
            type := type
            flags := flags
            fieldname := header.getD []
            fieldvalue := value.getD []
            tofolder := dotFolder folder
            fromhdr := fromhdr }

/-
  `maildir_filter_appendrule`: a rule that is not valid is
  taken out again.
-/
def appendrule (r : List Rule) (name : Option (List Byte)) (type : FilterType)
    (flags : UInt32) (header value folder : Option (List Byte)) (fromhdr : List Byte) :
    Except FilterError (List Rule) :=
  match ruleupdate name type flags header value folder fromhdr with
  | .error errcode => .error errcode
  | .ok p => .ok (r ++ [p])

------------
-- Saving
------------

/- What stands around a text in the script. -/
inductive Quoting where
  -- a line after `#`
  | comment
  -- `"..."`
  | double
  -- `'...'`
  | single
  -- `/.../`
  | pattern
  -- a bare number
  | number
deriving DecidableEq

/- A part of the script, or a text of a user in it. -/
inductive Piece where
  | code (text : List Byte)
  | user (quoting : Quoting) (text : List Byte)
deriving DecidableEq

def Piece.text : Piece → List Byte
  | .code text => text
  | .user _ text => text

/- What is saved besides the rules. -/
structure FilterSite where
  -- `MAILBOT`
  mailbot : List Byte
  maildirpath : List Byte
  fromaddr : List Byte

/- `print_pattern`. -/
def printPattern (flags : UInt32) (v : List Byte) : List Byte :=
  if !hasFlag flags MFR_PLAINSTRING then
    (if v.head?.any isspace then bytes "\\" else []) ++ v
  else
    v.flatMap fun b => if isalnum b then [b] else [chr '\\', b]

/- What is only printed sometimes. -/
def printIf (printed : Bool) (pieces : List Piece) : List Piece :=
  if printed then pieces else []

/- The end of a line. -/
def newline : Piece :=
  .code [nl]

/- A comment with a text of the user. -/
def commentLine (name : String) (text : List Byte) : List Piece :=
  [.code (bytes name), .user .comment text, newline]

/- The comments that a rule is read back from. -/
def commentPieces (p : Rule) : List Piece :=
  List.flatten
    [[.code (bytes "##Op:"), .code p.type.name, newline],
      commentLine "##Header:" p.fieldname,
      commentLine "##Value:" p.fieldvalue,
      commentLine "##Folder:" p.tofolder,
      commentLine "##From:" p.fromhdr,
      printIf (hasFlag p.flags MFR_PLAINSTRING)
        [.code (bytes "##PlainString"), newline],
      printIf (hasFlag p.flags MFR_DOESNOT)
        [.code (bytes "##DoesNot"), newline],
      printIf (hasFlag p.flags MFR_BODY)
        [.code (bytes "##Body"), newline],
      printIf (hasFlag p.flags MFR_CONTINUE)
        [.code (bytes "##Continue"), newline],
      commentLine "##Name:" p.rulename,
      [newline]]

/- The condition of a rule. -/
def conditionPieces (p : Rule) : List Piece :=
  let pattern : Piece :=
    .user .pattern (printPattern p.flags p.fieldvalue)
  let header : Piece :=
    .user .pattern p.fieldname
  match p.type with
  | .startswith =>
    if hasFlag p.flags MFR_BODY then
      [.code (bytes "/^"), pattern, .code (bytes "/:b")]
    else
      [.code (bytes "/^"), header, .code (bytes ": *"), pattern, .code (bytes "/")]
  | .endswith =>
    if hasFlag p.flags MFR_BODY then
      [.code (bytes "/"), pattern, .code (bytes "$/:b")]
    else
      [.code (bytes "/^"), header, .code (bytes ":.*"), pattern, .code (bytes "$/")]
  | .contains =>
    if hasFlag p.flags MFR_BODY then
      [.code (bytes "/"), pattern, .code (bytes "/:b")]
    else
      [.code (bytes "/^"), header, .code (bytes ":.*"), pattern, .code (bytes "/")]
  | .hasrecipient =>
    [.code (bytes "hasaddr(\""), .user .double p.fieldvalue, .code (bytes "\")")]
  | .mimemultipart => [.code (bytes "/^Content-Type: *multipart\\/mixed/")]
  | .textplain =>
    [.code (bytes " (! /^Content-Type:/) || "),
      .code (bytes "/^Content-Type: text\\/plain$/ || "),
      .code (bytes "/^Content-Type: text\\/plain;/")]
  | .islargerthan => [.code (bytes "$SIZE > "), .user .number p.fieldvalue]

/- The keyword that delivers a message. -/
def deliver (flags : UInt32) : Piece :=
  .code (if hasFlag flags MFR_CONTINUE then bytes "cc"
      else bytes "to")

/- An automatic reply. -/
def autoreplyPieces (site : FilterSite) (fromhdr : List Byte) (ai : AutorespInfo) : List Piece :=
  List.flatten
    [if fromhdr ≠ [] then
        [.code (bytes "    AUTOREPLYFROM='"), .user .single fromhdr, .code (bytes "'"), newline]
      else
        [.code (bytes "    AUTOREPLYFROM=$FROM"), newline],
      [.code (bytes "   `"), .code site.mailbot,
        .code (bytes " -A \"X-Sender: $FROM\""),
        .code (bytes " -A \"From: $AUTOREPLYFROM\"")],
      printIf ai.dsnflag [.code (bytes " -M \"$FROM\"")],
      [.code (bytes " -m \""), .code site.maildirpath,
        .code (bytes "/autoresponses/"), .user .double ai.name,
        .code (bytes "\"")],
      printIf (0 < ai.days)
        [.code (bytes " -d \""), .code site.maildirpath,
          .code (bytes "/autoresponses/"),
          .user .double ai.name, .code (bytes ".dat\" -D "),
          .user .number (decimalDigits 10 ai.days.toNat)],
      [.code (bytes " $SENDMAIL -t -f \"\"`"), newline]]

/- What is done with a message that the rule is for. -/
def actionPieces (site : FilterSite) (p : Rule) : List Piece :=
  match p.tofolder with
  | [] =>
    [.code (bytes "   "), deliver p.flags,
      .code (bytes " \""), .code site.maildirpath,
      .user .double [], .code (bytes "/.\""), newline]
  | b :: rest =>
    if b = chr '!' then
      [.code (bytes "    "), deliver p.flags,
        .code (bytes " \"| $SENDMAIL -f \" "),
        .code (bytes "'\"$SENDER\"' \" "),
        .user .double rest, .code (bytes "\""), newline]
    else if b = chr '*' then
      [.code (bytes "    echo \""), .user .double rest,
        .code (bytes "\""), newline,
        .code (bytes "    EXITCODE=77"), newline,
        .code (bytes "    exit"), newline]
    else if b = chr '+' then
      match autorespInfoInitStr rest with
      | none => []
      | some ai => autoreplyPieces site p.fromhdr ai
    else
      let tofolder := if b = chr '.' then rest else b :: rest
      [.code (bytes "   "), deliver p.flags,
        .code (bytes " \""), .code site.maildirpath,
        .code (if tofolder ≠ [] then bytes "/." else []),
        .user .double tofolder, .code (bytes "/.\""),
        newline]

/- One rule. -/
def rulePieces (site : FilterSite) (p : Rule) : List Piece :=
  List.flatten
    [commentPieces p,
      [newline, .code (bytes "if (")],
      printIf (hasFlag p.flags MFR_DOESNOT)
        [.code (bytes "!")],
      [.code (bytes "(")],
      conditionPieces p,
      [.code (bytes "))"), newline, .code (bytes "\x7b"), newline],
      actionPieces site p,
      [.code (bytes "\x7d"), newline, newline]]

/- What stands before the rules. -/
def headPieces (fromaddr : List Byte) : List Piece :=
  [.code (bytes "#MFMAILDROP=2"), newline,
    .code (bytes "#"), newline,
    .code (bytes "# DO NOT EDIT THIS FILE.  "),
    .code (bytes "This is an automatically generated filter."),
    newline, newline,
    .code (bytes "FROM='"),
    .code (fromaddr.filter fun b => b ≠ chr '"' && b ≠ chr '\'' && b ≠ chr '\\'),
    .code (bytes "'"), newline,
    .code (bytes "import SENDER"), newline,
    .code (bytes "if ($SENDER eq \"\")"), newline,
    .code (bytes "\x7b"), newline,
    .code (bytes " SENDER=$FROM"), newline,
    .code (bytes "\x7d"), newline, newline]

/- What stands after the rules. -/
def tailPieces (maildirpath : List Byte) : List Piece :=
  [.code (bytes "to \""), .code maildirpath, .code (bytes "/.\""), newline]

def savePieces (site : FilterSite) (r : List Rule) : List Piece :=
  headPieces site.fromaddr ++ r.flatMap (rulePieces site) ++ tailPieces site.maildirpath

/- `maildir_filter_saverules`: the contents of the file. -/
def saverules (site : FilterSite) (r : List Rule) : List Byte :=
  (savePieces site r).flatMap Piece.text

/- `BUFSIZ`. -/
def bufsiz : Nat :=
  8192

/- The codes `MF_LOADFOREIGN` and `MF_LOADERROR`. -/
inductive LoadError where
  | foreign
  | error
deriving DecidableEq

/- The rules up to here and the fields of the next one. -/
structure Loader where
  rules : List Rule
  new_type : FilterType
  new_header : List Byte
  new_value : List Byte
  new_folder : List Byte
  new_autoreplyfrom : List Byte
  flags : UInt32
deriving DecidableEq

/- No field of the next rule has been read. -/
def Loader.start (rules : List Rule) : Loader where
  rules := rules
  new_type := .contains
  new_header := []
  new_value := []
  new_folder := []
  new_autoreplyfrom := []
  flags := 0

/- `strcasecmp(a, b) == 0`. -/
def caseEqual (a b : List Byte) : Bool :=
  a.map tolower = b.map tolower

/- A comment after its `##`.  `SET` cuts a field to size. -/
def loadComment (st : Loader) (p : List Byte) : Except (LoadError × List Rule) Loader :=
  if casePrefix (bytes "From:") p then
    .ok { st with new_autoreplyfrom := (p.drop 5).take 511 }
  else if casePrefix (bytes "Op:") p then
    match typelist.find? (caseEqual ·.2 (p.drop 3)) with
    | none => .error (.foreign, st.rules)
    | some (type, _) => .ok { st with new_type := type }
  else if casePrefix (bytes "Header:") p then
    .ok { st with new_header := (p.drop 7).take 255 }
  else if casePrefix (bytes "Value:") p then
    .ok { st with new_value := (p.drop 6).take 255 }
  else if casePrefix (bytes "Folder:") p then
    .ok { st with new_folder := (p.drop 7).take 255 }
  else if caseEqual p (bytes "plainstring") then
    .ok { st with flags := st.flags ||| MFR_PLAINSTRING }
  else if caseEqual p (bytes "doesnot") then
    .ok { st with flags := st.flags ||| MFR_DOESNOT }
  else if caseEqual p (bytes "continue") then
    .ok { st with flags := st.flags ||| MFR_CONTINUE }
  else if caseEqual p (bytes "body") then
    .ok { st with flags := st.flags ||| MFR_BODY }
  else if casePrefix (bytes "Name:") p then
    match appendrule st.rules (some (p.drop 5)) st.new_type
        st.flags (some st.new_header) (some st.new_value)
        (some st.new_folder) st.new_autoreplyfrom with
    | .error _ => .error (.error, st.rules)
    | .ok rules => .ok (Loader.start rules)
  else
    .ok st

/- A line of the file. -/
def loadLine (st : Loader) (buf : List Byte) : Except (LoadError × List Rule) Loader :=
  if (bytes "##").isPrefixOf buf then loadComment st ((buf.drop 2).dropWhile isspace) else .ok st

/-
  `maildir_filter_loadrules`: the rules, or a code and the
  rules up to the error.
-/
def loadrules (r : List Rule) (file : List Byte) : Except (LoadError × List Rule) (List Rule) :=
  match fgetsLines bufsiz file with
  | [] => .error (.foreign, r)
  | buf :: lines =>
    let version := atoi (buf.drop 12)
    if (bytes "#MFMAILDROP=").isPrefixOf buf && (version = 1 || version = 2) then
      match lines.foldlM loadLine (Loader.start r) with
      | .error code => .error code
      | .ok st => .ok st.rules
    else
      .error (.foreign, r)

end Wmail.Maildir
