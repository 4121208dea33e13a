import Wmail.Maildir.Maildirfilter
import Mathlib.Data.List.DropRight
import Mathlib.Tactic.Tauto

/-
  A saved filter and what is read back from it.

  Key theorems include:
    * `reads_rule`
    * `loadrules_saverules_iff`
-/

------------
-- Accepted Rules
------------

namespace Wmail.Maildir

/- The rule was accepted by `maildir_filter_appendrule`. -/
def Accepted (p : Rule) : Prop :=
  ∃ r name header value folder fromhdr,
    appendrule r name p.type p.flags header value folder fromhdr = .ok (r ++ [p])

/-
  What validation has found out about a rule.  Its folder
  can be one byte too long with its dot.
-/
structure Rule.Valid (p : Rule) : Prop where
  rulename : checkRulename p.rulename = true
  fieldname : checkHeader p.type p.flags p.fieldname = true
  fieldvalue : checkValue p.type p.flags p.fieldvalue = true
  fromhdr : checkFromhdr p.fromhdr = true
  trimmed : p.fromhdr.dropWhile isspace = p.fromhdr
  tofolder_length : p.tofolder.length ≤ 201
  tofolder : checkTarget p.tofolder = true
  dotted : dotFolder p.tofolder = p.tofolder

/- A first byte that says what a folder's text means. -/
def isMark (b : Byte) : Bool :=
  b = chr '*' || b = chr '!' || b = chr '.' || b = chr '+'

theorem dotFolder_mark {b : Byte} (hMark : isMark b = true) (rest : List Byte) :
    dotFolder (b :: rest) = b :: rest := by
  unfold isMark at hMark
  simp only [dotFolder]
  rw [if_neg]
  simp only [Bool.or_eq_true, decide_eq_true_eq] at hMark
  simp only [Bool.and_eq_true, decide_eq_true_eq]
  tauto

theorem dotFolder_plain {b : Byte} (hPlain : isMark b = false) (rest : List Byte) :
    dotFolder (b :: rest) = chr '.' :: b :: rest := by
  unfold isMark at hPlain
  simp only [dotFolder]
  rw [if_pos]
  · rfl
  · simp only [Bool.or_eq_false_iff, decide_eq_false_iff_not] at hPlain
    simp only [Bool.and_eq_true, decide_eq_true_eq]
    tauto

theorem length_dotFolder_le (folder : List Byte) :
    (dotFolder folder).length ≤ folder.length + 1 := by
  cases folder with
  | nil => exact Nat.le_refl 1
  | cons b rest =>
    cases hMark : isMark b with
    | true =>
      rw [dotFolder_mark hMark]
      exact Nat.le_succ _
    | false =>
      rw [dotFolder_plain hMark]
      exact Nat.le_refl _

theorem not_mem_dotFolder {folder : List Byte} (hFolder : nl ∉ folder) : nl ∉ dotFolder folder := by
  cases folder with
  | nil => exact (by decide : nl ∉ bytes ".")
  | cons b rest =>
    cases hMark : isMark b with
    | true => rwa [dotFolder_mark hMark]
    | false =>
      rw [dotFolder_plain hMark, List.mem_cons, not_or]
      exact ⟨by decide, hFolder⟩

theorem dotFolder_dotFolder (folder : List Byte) :
    dotFolder (dotFolder folder) = dotFolder folder := by
  cases folder with
  | nil => rfl
  | cons b rest =>
    cases hMark : isMark b with
    | true => rw [dotFolder_mark hMark, dotFolder_mark hMark]
    | false =>
      rw [dotFolder_plain hMark]
      exact dotFolder_mark rfl _

/- A folder stays valid with its dot. -/
theorem checkTarget_dotFolder {folder : List Byte} (hFolder : checkTarget folder = true) :
    checkTarget (dotFolder folder) = true := by
  cases folder with
  | nil => rfl
  | cons b rest =>
    cases hMark : isMark b with
    | true => rwa [dotFolder_mark hMark]
    | false =>
      rw [dotFolder_plain hMark]
      simp only [isMark, Bool.or_eq_false_iff, decide_eq_false_iff_not] at hMark
      rcases hMark with ⟨⟨⟨hStar, hBang⟩, hDot⟩, hPlus⟩
      have hNot : b :: rest ≠ bytes "." := by
        intro hEq
        exact hDot (List.cons.inj hEq).1
      have hName : checkFolderName (b :: rest) = true := by
        simpa [checkTarget, hStar, hBang, hPlus, hNot] using hFolder
      have hDotted : checkFolderName (chr '.' :: b :: rest) = true := by
        rw [checkFolderName, hName]
        simp only [List.head?_cons, Option.some.injEq, hDot, List.cons_ne_nil, decide_false]
        rfl
      have hTail : checkTarget (chr '.' :: b :: rest) =
          (decide (chr '.' :: b :: rest = bytes ".") ||
            checkFolderName (chr '.' :: b :: rest)) := rfl
      rw [hTail, hDotted, Bool.or_true]

variable {p : Rule}

/- What `ruleupdate` has checked, and what it stores. -/
theorem ruleupdate_ok {name header value folder : Option (List Byte)} {type : FilterType}
    {flags : UInt32} {fromhdr : List Byte}
    (hRule : ruleupdate name type flags header value folder fromhdr = .ok p) :
    ∃ tofolder, folder = some tofolder ∧ checkRulename (name.getD []) = true ∧
      checkHeader type flags (header.getD []) = true ∧
      checkValue type flags (value.getD []) = true ∧
      checkFromhdr (fromhdr.dropWhile isspace) = true ∧
      checkFolder tofolder = true ∧
      p = ⟨name.getD [], type, flags, header.getD [], value.getD [], dotFolder tofolder,
        fromhdr.dropWhile isspace⟩ := by
  unfold ruleupdate at hRule
  simp only [Bool.not_eq_true'] at hRule
  split at hRule
  · cases hRule
  rename_i hName
  split at hRule
  · cases hRule
  rename_i hHeader
  split at hRule
  · cases hRule
  rename_i hValue
  split at hRule
  · cases hRule
  rename_i hFrom
  cases folder with
  | none => cases hRule
  | some tofolder =>
    simp only [] at hRule
    split at hRule
    · cases hRule
    rename_i hFolder
    rw [Bool.not_eq_false] at hName hHeader hValue hFrom hFolder
    exact ⟨tofolder, rfl, hName, hHeader, hValue, hFrom, hFolder, (Except.ok.inj hRule).symm⟩

theorem Accepted.valid (hAccepted : Accepted p) : p.Valid := by
  rcases hAccepted with ⟨r, name, header, value, folder, fromhdr, hRule⟩
  unfold appendrule at hRule
  split at hRule
  · cases hRule
  rename_i q hUpdate
  have hSame : q = p := by simpa using hRule
  rcases ruleupdate_ok hUpdate with ⟨tofolder, _, hName, hHeader, hValue, hFrom, hFolder, hStored⟩
  simp only [checkFolder, Bool.and_eq_true, decide_eq_true_eq] at hFolder
  rw [hSame] at hStored
  constructor
  · rw [hStored]
    exact hName
  · rw [hStored]
    exact hHeader
  · rw [hStored]
    exact hValue
  · rw [hStored]
    exact hFrom
  · rw [hStored]
    exact List.dropWhile_idempotent isspace _
  · rw [hStored]
    exact Nat.le_trans (length_dotFolder_le tofolder) (Nat.succ_le_succ hFolder.1)
  · rw [hStored]
    exact checkTarget_dotFolder hFolder.2
  · rw [hStored]
    exact dotFolder_dotFolder tofolder

section Reload

variable {p : Rule}

/- A rule is accepted again as it was stored. -/
theorem appendrule_valid (hValid : p.Valid) (hRoom : p.tofolder.length ≤ 200) (r : List Rule) :
    appendrule r (some p.rulename) p.type p.flags (some p.fieldname) (some p.fieldvalue)
      (some p.tofolder) p.fromhdr = .ok (r ++ [p]) := by
  simp [appendrule, ruleupdate, checkFolder, hValid.rulename, hValid.fieldname, hValid.fieldvalue,
    hValid.trimmed, hValid.fromhdr, hValid.tofolder, hRoom, hValid.dotted]

/- A folder that is too long is refused. -/
theorem appendrule_long (hLong : 200 < p.tofolder.length) (r : List Rule) :
    ∃ errcode, appendrule r (some p.rulename) p.type p.flags (some p.fieldname) (some p.fieldvalue)
      (some p.tofolder) p.fromhdr = .error errcode := by
  unfold appendrule
  cases hUpdate : ruleupdate (some p.rulename) p.type p.flags
      (some p.fieldname) (some p.fieldvalue) (some p.tofolder)
      p.fromhdr with
  | error errcode => exact ⟨errcode, rfl⟩
  | ok q =>
    rcases ruleupdate_ok hUpdate with ⟨tofolder, hSame, _, _, _, _, hFolder, _⟩
    cases hSame
    simp [checkFolder, Nat.not_le_of_lt hLong] at hFolder

end Reload

/- A part of a line, of no more than `n` bytes. -/
structure OneLine (n : Nat) (text : List Byte) : Prop where
  nl : nl ∉ text
  length : text.length ≤ n

theorem OneLine.mono {n m : Nat} {text : List Byte} (hText : OneLine n text)
    (hLess : n ≤ m) : OneLine m text where
  nl := hText.nl
  length := Nat.le_trans hText.length hLess

theorem OneLine.append {n m : Nat} {text more : List Byte} (hText : OneLine n text)
    (hMore : OneLine m more) : OneLine (n + m) (text ++ more) where
  nl := by
    rw [List.mem_append]
    rintro (hIn | hIn)
    · exact hText.nl hIn
    · exact hMore.nl hIn
  length := by
    rw [List.length_append]
    exact Nat.add_le_add hText.length hMore.length

/- The characters of a short part of a line. -/
def lineChars (l : List Char) : Bool :=
  l.all (fun c => c.toUInt8 != nl) && Nat.ble l.length 100

/- What the script says on its own. -/
theorem oneLine_code {l : List Char} (hChars : lineChars l = true) :
    OneLine 100 (bytes (String.ofList l)) := by
  unfold lineChars at hChars
  rw [Bool.and_eq_true, List.all_eq_true, Nat.ble_eq] at hChars
  rw [bytes_ofList]
  constructor
  · intro hIn
    rcases List.mem_map.mp hIn with ⟨c, hChar, hNl⟩
    have hOther := hChars.1 c hChar
    rw [hNl] at hOther
    cases hOther
  · rw [List.length_map]
    exact hChars.2

/- A line that begins so is no comment for the loader. -/
theorem mark_code {c : Char} {l : List Char} (hChar : (chr '#' == c.toUInt8) = false)
    (more : List Byte) :
    (bytes "##").isPrefixOf (bytes (String.ofList (c :: l)) ++ more) = false := by
  have hMark : bytes "##" = [chr '#', chr '#'] := bytes_ofList ['#', '#']
  rw [hMark, bytes_ofList, List.map_cons, List.cons_append, List.isPrefixOf, hChar, Bool.false_and]

/- The text of pieces. -/
def textOf (pieces : List Piece) : List Byte :=
  pieces.flatMap Piece.text

@[simp] theorem textOf_nil : textOf [] = [] :=
  rfl

@[simp] theorem textOf_cons (piece : Piece) (pieces : List Piece) :
    textOf (piece :: pieces) = piece.text ++ textOf pieces :=
  rfl

@[simp] theorem textOf_append (pieces more : List Piece) :
    textOf (pieces ++ more) = textOf pieces ++ textOf more := by
  simp [textOf]

theorem OneLine.nil : OneLine 0 (textOf []) where
  nl := List.not_mem_nil
  length := Nat.le_refl 0

theorem OneLine.cons {n m : Nat} {piece : Piece} {pieces : List Piece}
    (hPiece : OneLine n piece.text) (hPieces : OneLine m (textOf pieces)) :
    OneLine (n + m) (textOf (piece :: pieces)) :=
  hPiece.append hPieces

/- The loader at the end of the file. -/
def loadFrom (st : Loader) (text : List Byte) : Except (LoadError × List Rule) Loader :=
  (fgetsLines bufsiz text).foldlM loadLine st

/- A text of whole lines takes the loader from `st` to `st'`. -/
def Reads (text : List Byte) (st st' : Loader) : Prop :=
  ∀ rest, loadFrom st (text ++ rest) = loadFrom st' rest

/- A text that tells the loader nothing. -/
def Quiet (text : List Byte) : Prop :=
  ∀ st, Reads text st st

theorem Reads.append {text more : List Byte} {st st' st'' : Loader}
    (hText : Reads text st st') (hMore : Reads more st' st'') : Reads (text ++ more) st st'' := by
  intro rest
  rw [List.append_assoc, hText, hMore]

theorem reads_nil (st : Loader) : Reads (textOf (List.flatten [])) st st :=
  fun _ => rfl

theorem Reads.cons {pieces : List Piece} {more : List (List Piece)} {st st' st'' : Loader}
    (hPieces : Reads (textOf pieces) st st') (hMore : Reads (textOf more.flatten) st' st'') :
    Reads (textOf (pieces :: more).flatten) st st'' := by
  rw [List.flatten_cons, textOf_append]
  exact hPieces.append hMore

theorem Quiet.append {text more : List Byte} (hText : Quiet text) (hMore : Quiet more) :
    Quiet (text ++ more) :=
  fun st => (hText st).append (hMore st)

theorem quiet_nil : Quiet [] :=
  fun _ _ => rfl

variable {line : List Byte}

theorem loadFrom_line (hLine : OneLine 8190 line) (st : Loader) (rest : List Byte) :
    loadFrom st (line ++ nl :: rest) = loadLine st line >>= (loadFrom · rest) := by
  have hShort : line.length + 1 < bufsiz := Nat.lt_succ_of_le (Nat.succ_le_succ hLine.length)
  unfold loadFrom
  rw [fgetsLines_line hLine.nl hShort, List.foldlM_cons]

variable {st st' : Loader}

theorem reads_line (hLine : OneLine 8190 line) (hLoad : loadLine st line = .ok st') :
    Reads (line ++ [nl]) st st' := by
  intro rest
  rw [List.append_assoc, List.singleton_append, loadFrom_line hLine, hLoad]
  rfl

/- A line that is no comment for the loader is passed by. -/
theorem quiet_line (hLine : OneLine 8190 line)
    (hMark : (bytes "##").isPrefixOf line = false) : Quiet (line ++ [nl]) := by
  intro st
  have hLoad : loadLine st line = .ok st := by
    unfold loadLine
    rw [hMark]
    rfl
  exact reads_line hLine hLoad

theorem textOf_line (pieces more : List Piece) : textOf (pieces ++ newline :: more) =
      (textOf pieces ++ [nl]) ++ textOf more := by
  simp [newline, Piece.text]

variable {more : List Piece}

/- A line of pieces, and what comes after it. -/
theorem quiet_pieces (pieces : List Piece) (hLine : OneLine 8190 (textOf pieces))
    (hMark : (bytes "##").isPrefixOf (textOf pieces) = false)
    (hMore : Quiet (textOf more)) : Quiet (textOf (pieces ++ newline :: more)) := by
  rw [textOf_line]
  exact (quiet_line hLine hMark).append hMore

theorem quiet_none : Quiet (textOf []) :=
  fun _ _ => rfl

/- An empty line. -/
theorem quiet_newline (hMore : Quiet (textOf more)) : Quiet (textOf (newline :: more)) :=
  quiet_pieces [] ⟨List.not_mem_nil, Nat.zero_le 8190⟩ rfl hMore

/- A line that the script has on its own. -/
theorem quiet_code {c : Char} {l : List Char} (hMore : Quiet (textOf more))
    (hChars : lineChars (c :: l) = true) (hChar : (chr '#' == c.toUInt8) = false) :
    Quiet (textOf (.code (bytes (String.ofList (c :: l))) :: newline :: more)) :=
  quiet_pieces [.code (bytes (String.ofList (c :: l)))]
    ((OneLine.cons (oneLine_code hChars) .nil).mono (by decide))
    (mark_code hChar []) hMore

------------
-- Comments
------------

theorem reads_commentLine {name : String} {text : List Byte}
    (hLine : OneLine 8190 (bytes name ++ text))
    (hLoad : loadLine st (bytes name ++ text) = .ok st') :
    Reads (textOf (commentLine name text)) st st' := by
  have hText : textOf (commentLine name text) = bytes name ++ text ++ [nl] := by
    simp [commentLine, newline, Piece.text]
  rw [hText]
  exact reads_line hLine hLoad

theorem oneLine_label {n : Nat} {label text : List Byte} (hLabel : OneLine 100 label)
    (hText : OneLine n text) (hRoom : n ≤ 8000) : OneLine 8190 (label ++ text) :=
  (hLabel.append hText).mono (by omega)

section Labels

variable {text : List Byte}

theorem reads_op (st : Loader) (type : FilterType) :
    Reads (textOf [.code (bytes "##Op:"), .code type.name,
      newline]) st { st with new_type := type } := by
  have hName : OneLine 100 type.name := by
    cases type <;> exact oneLine_code rfl
  have hLine : OneLine 8190 (bytes "##Op:" ++ type.name) :=
    oneLine_label (oneLine_code rfl) hName (by decide)
  have hLoad : loadLine st (bytes "##Op:" ++ type.name) = .ok { st with new_type := type } := by
    cases type <;> rfl
  exact reads_line hLine hLoad

theorem reads_header (st : Loader) (hText : OneLine 200 text) :
    Reads (textOf (commentLine "##Header:" text)) st { st with new_header := text } := by
  have hLoad : loadLine st (bytes "##Header:" ++ text) =
      .ok { st with new_header := text.take 255 } := rfl
  rw [List.take_of_length_le (Nat.le_trans hText.length (by decide))] at hLoad
  exact reads_commentLine (oneLine_label (oneLine_code rfl) hText (by decide)) hLoad

theorem reads_value (st : Loader) (hText : OneLine 200 text) :
    Reads (textOf (commentLine "##Value:" text)) st { st with new_value := text } := by
  have hLoad : loadLine st (bytes "##Value:" ++ text) =
      .ok { st with new_value := text.take 255 } := rfl
  rw [List.take_of_length_le (Nat.le_trans hText.length (by decide))] at hLoad
  exact reads_commentLine (oneLine_label (oneLine_code rfl) hText (by decide)) hLoad

theorem reads_folder (st : Loader) (hText : OneLine 201 text) :
    Reads (textOf (commentLine "##Folder:" text)) st { st with new_folder := text } := by
  have hLoad : loadLine st (bytes "##Folder:" ++ text) =
      .ok { st with new_folder := text.take 255 } := rfl
  rw [List.take_of_length_le (Nat.le_trans hText.length (by decide))] at hLoad
  exact reads_commentLine (oneLine_label (oneLine_code rfl) hText (by decide)) hLoad

theorem reads_from (st : Loader) (hText : OneLine 511 text) :
    Reads (textOf (commentLine "##From:" text)) st { st with new_autoreplyfrom := text } := by
  have hLoad : loadLine st (bytes "##From:" ++ text) =
      .ok { st with new_autoreplyfrom := text.take 511 } := rfl
  rw [List.take_of_length_le hText.length] at hLoad
  exact reads_commentLine (oneLine_label (oneLine_code rfl) hText (by decide)) hLoad

end Labels

/- A flag is read back when it was set. -/
theorem reads_flag {flags flag : UInt32} {st : Loader} (hLine : OneLine 100 line)
    (hLoad : loadLine st line = .ok { st with flags := st.flags ||| flag }) :
    Reads (textOf (printIf (hasFlag flags flag)
      [.code line, newline])) st
      { st with flags := st.flags |||
          if hasFlag flags flag then flag else 0 } := by
  cases hFlag : hasFlag flags flag with
  | false =>
    simp only [printIf, Bool.false_eq_true, if_false, textOf_nil, UInt32.or_zero]
    exact fun rest => rfl
  | true => simpa [printIf, newline, Piece.text] using reads_line (hLine.mono (by decide)) hLoad

/- The flags in the order in which they are saved. -/
def savedFlags (flags : UInt32) : UInt32 :=
  [MFR_PLAINSTRING, MFR_DOESNOT, MFR_BODY,
    MFR_CONTINUE].foldl
    (fun saved flag => saved ||| if hasFlag flags flag then flag else 0) 0

theorem savedFlags_eq {flags : UInt32} (hFlags : flags < 16) : savedFlags flags = flags := by
  have hAll : ∀ n, n < 16 → savedFlags (UInt32.ofNat n) = UInt32.ofNat n := by decide
  have hSmall : flags.toNat < 16 := UInt32.lt_iff_toNat_lt.mp hFlags
  have hOut := hAll flags.toNat hSmall
  rwa [UInt32.ofNat_toNat] at hOut

/- The comments of the rule are the lines they seem to be. -/
structure Legible (p : Rule) : Prop where
  flags : p.flags < 16
  rulename : OneLine 200 p.rulename
  fieldname : OneLine 200 p.fieldname
  fieldvalue : OneLine 200 p.fieldvalue
  tofolder : OneLine 201 p.tofolder
  fromhdr : OneLine 511 p.fromhdr

/- The fields of the rule, before its name is read. -/
def Loader.filled (rules : List Rule) (p : Rule) : Loader where
  rules := rules
  new_type := p.type
  new_header := p.fieldname
  new_value := p.fieldvalue
  new_folder := p.tofolder
  new_autoreplyfrom := p.fromhdr
  flags := p.flags

/- The comments of a rule up to its name. -/
def fieldPieces (p : Rule) : List Piece :=
  List.flatten
    [[.code (bytes "##Op:"), .code p.type.name, newline],
      commentLine "##Header:" p.fieldname,
      commentLine "##Value:" p.fieldvalue,
      commentLine "##Folder:" p.tofolder,
      commentLine "##From:" p.fromhdr,
      printIf (hasFlag p.flags MFR_PLAINSTRING)
        [.code (bytes "##PlainString"), newline],
      printIf (hasFlag p.flags MFR_DOESNOT)
        [.code (bytes "##DoesNot"), newline],
      printIf (hasFlag p.flags MFR_BODY)
        [.code (bytes "##Body"), newline],
      printIf (hasFlag p.flags MFR_CONTINUE)
        [.code (bytes "##Continue"), newline]]

theorem commentPieces_eq (p : Rule) : commentPieces p = fieldPieces p ++
      commentLine "##Name:" p.rulename ++ [newline] := by
  simp [commentPieces, fieldPieces]

theorem reads_fields (hLegible : Legible p) (rules : List Rule) :
    Reads (textOf (fieldPieces p)) (Loader.start rules) (Loader.filled rules p) := by
  have hState : Loader.filled rules p =
      { Loader.filled rules p with flags := savedFlags p.flags } := by
    rw [savedFlags_eq hLegible.flags]
    rfl
  rw [hState]
  refine (reads_op _ p.type).cons ?_
  refine (reads_header _ hLegible.fieldname).cons ?_
  refine (reads_value _ hLegible.fieldvalue).cons ?_
  refine (reads_folder _ hLegible.tofolder).cons ?_
  refine (reads_from _ hLegible.fromhdr).cons ?_
  refine (reads_flag (oneLine_code rfl) rfl).cons ?_
  refine (reads_flag (oneLine_code rfl) rfl).cons ?_
  refine (reads_flag (oneLine_code rfl) rfl).cons ?_
  refine (reads_flag (oneLine_code rfl) rfl).cons ?_
  exact reads_nil _

/- The name ends a rule, which is then appended. -/
theorem loadLine_name (rules : List Rule) (p : Rule) :
    loadLine (Loader.filled rules p) (bytes "##Name:" ++ p.rulename) =
      match appendrule rules (some p.rulename) p.type p.flags
        (some p.fieldname) (some p.fieldvalue)
        (some p.tofolder) p.fromhdr with
      | .error _ => .error (.error, rules)
      | .ok rules => .ok (Loader.start rules) :=
  rfl

/- A rule that was saved is accepted once more. -/
theorem reads_name (hValid : p.Valid) (hName : OneLine 200 p.rulename)
    (hRoom : p.tofolder.length ≤ 200) (rules : List Rule) :
    Reads (textOf (commentLine "##Name:" p.rulename))
      (Loader.filled rules p) (Loader.start (rules ++ [p])) := by
  have hLoad := loadLine_name rules p
  rw [appendrule_valid hValid hRoom] at hLoad
  exact reads_commentLine (oneLine_label (oneLine_code rfl) hName (by decide)) hLoad

/- With a folder that is too long it is not. -/
theorem loadFrom_name_long (hName : OneLine 200 p.rulename)
    (hLong : 200 < p.tofolder.length) (rules : List Rule) (rest : List Byte) :
    loadFrom (Loader.filled rules p) (textOf (commentLine "##Name:" p.rulename) ++ rest) =
      .error (.error, rules) := by
  have hLoad := loadLine_name rules p
  rcases appendrule_long hLong rules with ⟨errcode, hError⟩
  rw [hError] at hLoad
  have hText : textOf (commentLine "##Name:" p.rulename) ++ rest =
      (bytes "##Name:" ++ p.rulename) ++ nl :: rest := by
    simp [commentLine, newline, Piece.text]
  rw [hText, loadFrom_line (oneLine_label (oneLine_code rfl) hName (by decide)), hLoad]
  rfl

------------
-- The Script of a Rule
------------

/- The parameters are lines that leave room in a buffer. -/
structure FilterSite.Fits (site : FilterSite) : Prop where
  mailbot : nl ∉ site.mailbot
  maildirpath : nl ∉ site.maildirpath
  fromaddr : nl ∉ site.fromaddr
  path_room : site.mailbot.length + 2 * site.maildirpath.length ≤ 6144
  addr_room : site.fromaddr.length ≤ 6144

theorem oneLine_printPattern {flags : UInt32} {v : List Byte} (hText : OneLine 200 v) :
    OneLine 401 (printPattern flags v) := by
  unfold printPattern
  split
  · split
    · exact ((oneLine_code rfl).append hText).mono (by decide)
    · exact hText.mono (by decide)
  · constructor
    · intro hMem
      rw [List.mem_flatMap] at hMem
      rcases hMem with ⟨b, hIn, hByte⟩
      have hNot : nl ≠ b := fun hEq => hText.nl (hEq ▸ hIn)
      split at hByte
      · exact hNot (List.mem_singleton.mp hByte)
      · rcases List.mem_cons.mp hByte with hSlash | hSame
        · cases hSlash
        · exact hNot (List.mem_singleton.mp hSame)
    · have hTwice : ∀ text : List Byte, (text.flatMap fun b =>
          if isalnum b then [b] else [chr '\\', b]).length ≤ 2 * text.length := by
        intro text
        induction text with
        | nil => exact Nat.le_refl 0
        | cons b rest ih =>
          rw [List.flatMap_cons, List.length_append, List.length_cons]
          have hOne : (if isalnum b then [b]
              else [chr '\\', b]).length ≤ 2 := by
            split <;> simp
          omega
      have hLength := hText.length
      have hBound := hTwice v
      omega

/- The condition stays in its line. -/
theorem oneLine_condition (hHeader : OneLine 200 p.fieldname)
    (hValue : OneLine 200 p.fieldvalue) : OneLine 1000 (textOf (conditionPieces p)) := by
  have hPattern : OneLine 401 (printPattern p.flags p.fieldvalue) := oneLine_printPattern hValue
  have hBody : ∀ before after : String, OneLine 100 (bytes before) → OneLine 100 (bytes after) →
        OneLine 1000 (textOf [.code (bytes before),
          .user .pattern (printPattern p.flags p.fieldvalue),
          .code (bytes after)]) :=
    fun before after hBefore hAfter =>
      (OneLine.cons hBefore (.cons hPattern (.cons hAfter .nil))).mono (by decide)
  have hField : ∀ before middle after : String,
      OneLine 100 (bytes before) → OneLine 100 (bytes middle) → OneLine 100 (bytes after) →
        OneLine 1000 (textOf [.code (bytes before),
          .user .pattern p.fieldname, .code (bytes middle),
          .user .pattern (printPattern p.flags p.fieldvalue),
          .code (bytes after)]) :=
    fun before middle after hBefore hMiddle hAfter =>
      (OneLine.cons hBefore (.cons hHeader (.cons hMiddle
        (.cons hPattern (.cons hAfter .nil))))).mono (by decide)
  unfold conditionPieces
  cases p.type with
  | startswith =>
    simp only []
    split
    · exact hBody _ _ (oneLine_code rfl) (oneLine_code rfl)
    · exact hField _ _ _ (oneLine_code rfl) (oneLine_code rfl) (oneLine_code rfl)
  | endswith =>
    simp only []
    split
    · exact hBody _ _ (oneLine_code rfl) (oneLine_code rfl)
    · exact hField _ _ _ (oneLine_code rfl) (oneLine_code rfl) (oneLine_code rfl)
  | contains =>
    simp only []
    split
    · exact hBody _ _ (oneLine_code rfl) (oneLine_code rfl)
    · exact hField _ _ _ (oneLine_code rfl) (oneLine_code rfl) (oneLine_code rfl)
  | hasrecipient =>
    exact (OneLine.cons (oneLine_code rfl) (.cons hValue (.cons (oneLine_code rfl) .nil))).mono
        (by decide)
  | mimemultipart => exact (OneLine.cons (oneLine_code rfl) .nil).mono (by decide)
  | textplain =>
    exact (OneLine.cons (oneLine_code rfl) (.cons (oneLine_code rfl)
        (.cons (oneLine_code rfl) .nil))).mono (by decide)
  | islargerthan => exact (OneLine.cons (oneLine_code rfl) (.cons hValue .nil)).mono (by decide)

theorem oneLine_printIf {n : Nat} {pieces : List Piece} (printed : Bool)
    (hPieces : OneLine n (textOf pieces)) : OneLine n (textOf (printIf printed pieces)) := by
  cases printed with
  | false => exact ⟨List.not_mem_nil, Nat.zero_le n⟩
  | true => exact hPieces

/- The line of the condition, and the one after it. -/
theorem quiet_condition (hHeader : OneLine 200 p.fieldname)
    (hValue : OneLine 200 p.fieldvalue) (hMore : Quiet (textOf more)) :
    Quiet (textOf (
      [newline, .code (bytes "if (")] ++
        (printIf (hasFlag p.flags MFR_DOESNOT) [.code (bytes "!")] ++
          ([.code (bytes "(")] ++ (conditionPieces p ++
            ([.code (bytes "))"), newline, .code (bytes "\x7b"), newline] ++ more)))))) := by
  have hNot : OneLine 100 (textOf (printIf (hasFlag p.flags MFR_DOESNOT) [.code (bytes "!")])) :=
    oneLine_printIf _ (OneLine.cons (oneLine_code rfl) .nil)
  have hLine : OneLine 8190 (textOf (
      [.code (bytes "if (")] ++
        (printIf (hasFlag p.flags MFR_DOESNOT) [.code (bytes "!")] ++
          ([.code (bytes "(")] ++ (conditionPieces p ++ [.code (bytes "))")]))))) := by
    simp only [textOf_append, textOf_cons, textOf_nil, List.append_nil, Piece.text]
    exact (OneLine.append (oneLine_code rfl) (hNot.append
      (OneLine.append (oneLine_code rfl) ((oneLine_condition hHeader
        hValue).append (oneLine_code rfl))))).mono (by decide)
  have hMark : (bytes "##").isPrefixOf (textOf (
      [.code (bytes "if (")] ++
        (printIf (hasFlag p.flags MFR_DOESNOT) [.code (bytes "!")] ++
          ([.code (bytes "(")] ++ (conditionPieces p ++ [.code (bytes "))")]))))) = false :=
    mark_code rfl _
  have hBrace : Quiet (textOf (.code (bytes "\x7b") :: newline :: more)) := quiet_code hMore rfl rfl
  have hQuiet := quiet_newline (quiet_pieces _ hLine hMark hBrace)
  simpa only [List.append_assoc, List.cons_append, List.nil_append] using hQuiet

theorem argument_name (ai : AutorespInfo) (p : List Byte) : (ai.argument p).name = ai.name := by
  unfold AutorespInfo.argument
  split
  · rfl
  · split <;> rfl

/- The name of an automatic reply begins the folder's text. -/
theorem name_begins {c : List Byte} {ai : AutorespInfo}
    (hInfo : autorespInfoInitStr c = some ai) : ai.name <+: c := by
  have hFold : ∀ (arguments : List (List Byte))
      (ai : AutorespInfo),
      (arguments.foldl AutorespInfo.argument ai).name = ai.name := by
    intro arguments
    induction arguments with
    | nil => exact fun ai => rfl
    | cons p rest ih =>
      intro ai
      rw [List.foldl_cons, ih, argument_name]
  unfold autorespInfoInitStr at hInfo
  split at hInfo
  · cases hInfo
  · cases hInfo
    rw [hFold]
    refine ⟨(c.dropWhile strtokSep).dropWhile (!strtokSep ·), ?_⟩
    rw [List.append_assoc, List.takeWhile_append_dropWhile, List.takeWhile_append_dropWhile]

theorem OneLine.front {n : Nat} {text front : List Byte} (hText : OneLine n text)
    (hFront : front <+: text) : OneLine n front where
  nl := fun hIn => hText.nl (hFront.subset hIn)
  length := Nat.le_trans hFront.length_le hText.length

theorem oneLine_digits (room n : Nat) : OneLine room (decimalDigits room n) where
  nl := by
    intro hIn
    cases isdigit_decimalDigits hIn
  length := length_decimalDigits_le room n

section Action

variable {site : FilterSite} {p : Rule}

theorem FilterSite.Fits.oneLine_path (hFits : site.Fits) :
    OneLine site.maildirpath.length site.maildirpath :=
  ⟨hFits.maildirpath, Nat.le_refl _⟩

theorem FilterSite.Fits.oneLine_mailbot (hFits : site.Fits) :
    OneLine site.mailbot.length site.mailbot :=
  ⟨hFits.mailbot, Nat.le_refl _⟩

/- An automatic reply is two lines of the script. -/
theorem quiet_autoreply {fromhdr : List Byte} {ai : AutorespInfo} (hFits : site.Fits)
    (hFrom : OneLine 511 fromhdr) (hName : OneLine 201 ai.name) :
    Quiet (textOf (autoreplyPieces site fromhdr ai)) := by
  have hPath := hFits.oneLine_path
  have hRoom := hFits.path_room
  have hBot : OneLine (100 + (site.mailbot.length + (100 + (100 + 0))))
      (textOf [.code (bytes "   `"), .code site.mailbot,
        .code (bytes " -A \"X-Sender: $FROM\""),
        .code (bytes " -A \"From: $AUTOREPLYFROM\"")]) :=
    .cons (oneLine_code rfl) (.cons hFits.oneLine_mailbot
      (.cons (oneLine_code rfl) (.cons (oneLine_code rfl) .nil)))
  have hDsn : OneLine (100 + 0) (textOf (printIf ai.dsnflag [.code (bytes " -M \"$FROM\"")])) :=
    oneLine_printIf _ (.cons (oneLine_code rfl) .nil)
  have hMessage : OneLine (100 + (site.maildirpath.length + (100 + (201 + (100 + 0)))))
      (textOf [.code (bytes " -m \""), .code site.maildirpath,
        .code (bytes "/autoresponses/"), .user .double ai.name,
        .code (bytes "\"")]) :=
    .cons (oneLine_code rfl) (.cons hPath (.cons (oneLine_code rfl) (.cons hName
        (.cons (oneLine_code rfl) .nil))))
  have hDays : OneLine (100 + (site.maildirpath.length + (100 + (201 + (100 + (10 + 0))))))
      (textOf (printIf (0 < ai.days)
        [.code (bytes " -d \""), .code site.maildirpath,
          .code (bytes "/autoresponses/"),
          .user .double ai.name, .code (bytes ".dat\" -D "),
          .user .number (decimalDigits 10 ai.days.toNat)])) :=
    oneLine_printIf _ (.cons (oneLine_code rfl) (.cons hPath (.cons (oneLine_code rfl) (.cons hName
          (.cons (oneLine_code rfl) (.cons (oneLine_digits 10 _) .nil))))))
  have hSend : OneLine (100 + 0) (textOf [.code (bytes " $SENDMAIL -t -f \"\"`")]) :=
    .cons (oneLine_code rfl) .nil
  have hLine := (hBot.append (hDsn.append (hMessage.append
    (hDays.append hSend)))).mono (m := 8190) (by omega)
  simp only [← textOf_append] at hLine
  have hReply := quiet_pieces _ hLine (mark_code rfl _) quiet_none
  have hFirst : Quiet (textOf (if fromhdr ≠ [] then
        [.code (bytes "    AUTOREPLYFROM='"), .user .single fromhdr, .code (bytes "'"), newline]
      else
        [.code (bytes "    AUTOREPLYFROM=$FROM"), newline])) := by
    split
    · exact quiet_pieces
        [.code (bytes "    AUTOREPLYFROM='"), .user .single fromhdr, .code (bytes "'")]
        ((OneLine.cons (oneLine_code rfl) (.cons hFrom
          (.cons (oneLine_code rfl) .nil))).mono (by decide))
        (mark_code rfl _) quiet_none
    · exact quiet_code quiet_none rfl rfl
  have hBoth := hFirst.append hReply
  rw [← textOf_append] at hBoth
  unfold autoreplyPieces
  simpa only [List.flatten_cons, List.flatten_nil,
    List.append_nil, List.append_assoc, List.cons_append,
    List.nil_append] using hBoth

/- What is done with a message is told to maildrop only. -/
theorem quiet_action (hFits : site.Fits) (hFolder : OneLine 201 p.tofolder)
    (hFrom : OneLine 511 p.fromhdr) : Quiet (textOf (actionPieces site p)) := by
  have hPath := hFits.oneLine_path
  have hRoom := hFits.path_room
  have hDeliver : OneLine 100 (deliver p.flags).text := by
    unfold deliver Piece.text
    simp only []
    split
    · exact oneLine_code rfl
    · exact oneLine_code rfl
  unfold actionPieces
  cases hTo : p.tofolder with
  | nil =>
    have hEmpty : OneLine 0 (Piece.user .double []).text := OneLine.nil
    exact quiet_pieces
      [.code (bytes "   "), deliver p.flags,
        .code (bytes " \""), .code site.maildirpath,
        .user .double [], .code (bytes "/.\"")]
      ((OneLine.cons (oneLine_code rfl) (.cons hDeliver
        (.cons (oneLine_code rfl) (.cons hPath
          (.cons hEmpty (.cons (oneLine_code rfl) .nil)))))).mono (by omega))
      (mark_code rfl _) quiet_none
  | cons b rest =>
    rw [hTo] at hFolder
    have hRest : OneLine 201 rest :=
      ⟨fun hIn => hFolder.nl (List.mem_cons_of_mem b hIn),
        Nat.le_trans (Nat.le_succ _) hFolder.length⟩
    simp only []
    split
    · exact quiet_pieces
        [.code (bytes "    "), deliver p.flags,
          .code (bytes " \"| $SENDMAIL -f \" "),
          .code (bytes "'\"$SENDER\"' \" "),
          .user .double rest, .code (bytes "\"")]
        ((OneLine.cons (oneLine_code rfl) (.cons hDeliver
          (.cons (oneLine_code rfl) (.cons (oneLine_code rfl)
            (.cons hRest (.cons (oneLine_code rfl) .nil)))))).mono (by omega))
        (mark_code rfl _) quiet_none
    split
    · exact quiet_pieces
        [.code (bytes "    echo \""), .user .double rest, .code (bytes "\"")]
        ((OneLine.cons (oneLine_code rfl) (.cons hRest
          (.cons (oneLine_code rfl) .nil))).mono (by omega))
        (mark_code rfl _) (quiet_code (quiet_code quiet_none rfl rfl) rfl rfl)
    split
    · split
      · exact quiet_nil
      · rename_i ai hInfo
        exact quiet_autoreply hFits hFrom (hRest.front (name_begins hInfo))
    · have hName : OneLine 201 (if b = chr '.' then rest else b :: rest) := by
        split
        · exact hRest
        · exact hFolder
      generalize (if b = chr '.' then rest else b :: rest) = name at hName ⊢
      have hDot : OneLine 100 (if name ≠ [] then bytes "/." else []) := by
        split
        · exact oneLine_code rfl
        · exact ⟨List.not_mem_nil, Nat.zero_le 100⟩
      exact quiet_pieces
        [.code (bytes "   "), deliver p.flags,
          .code (bytes " \""), .code site.maildirpath,
          .code (if name ≠ [] then bytes "/." else []),
          .user .double name, .code (bytes "/.\"")]
        ((OneLine.cons (oneLine_code rfl) (.cons hDeliver
          (.cons (oneLine_code rfl) (.cons hPath (.cons hDot
            (.cons hName (.cons (oneLine_code rfl) .nil))))))).mono (by omega))
        (mark_code rfl _) quiet_none

end Action

section Rules

variable {site : FilterSite}

/- The script around the comments of a rule. -/
def scriptPieces (site : FilterSite) (p : Rule) : List Piece :=
  List.flatten
    [[newline, .code (bytes "if (")],
      printIf (hasFlag p.flags MFR_DOESNOT)
        [.code (bytes "!")],
      [.code (bytes "(")],
      conditionPieces p,
      [.code (bytes "))"), newline, .code (bytes "\x7b"), newline],
      actionPieces site p,
      [.code (bytes "\x7d"), newline, newline]]

theorem rulePieces_eq (site : FilterSite) (p : Rule) :
    rulePieces site p = fieldPieces p ++ (commentLine "##Name:" p.rulename ++
        (newline :: scriptPieces site p)) := by
  unfold rulePieces scriptPieces
  rw [List.flatten_cons, commentPieces_eq]
  simp only [List.append_assoc, List.singleton_append]

theorem quiet_script {p : Rule} (hFits : site.Fits) (hLegible : Legible p) :
    Quiet (textOf (newline :: scriptPieces site p)) := by
  have hAction := quiet_action hFits hLegible.tofolder hLegible.fromhdr
  have hEnd : Quiet (textOf [.code (bytes "\x7d"), newline, newline]) :=
    quiet_code (quiet_newline quiet_none) rfl rfl
  have hMore := hAction.append hEnd
  rw [← textOf_append] at hMore
  have hAll := quiet_newline (quiet_condition hLegible.fieldname hLegible.fieldvalue hMore)
  unfold scriptPieces
  simpa only [List.flatten_cons, List.flatten_nil, List.append_nil, List.append_assoc] using hAll

/- A rule is read back behind the rules before it. -/
theorem reads_rule {p : Rule} (hFits : site.Fits) (hValid : p.Valid) (hLegible : Legible p)
    (hRoom : p.tofolder.length ≤ 200) (rules : List Rule) :
    Reads (textOf (rulePieces site p)) (Loader.start rules) (Loader.start (rules ++ [p])) := by
  rw [rulePieces_eq, textOf_append, textOf_append]
  exact (reads_fields hLegible rules).append
    ((reads_name hValid hLegible.rulename hRoom rules).append (quiet_script hFits hLegible _))

/- A rule with too long a folder ends the loading. -/
theorem loadFrom_rule_long {p : Rule} (hLegible : Legible p)
    (hLong : 200 < p.tofolder.length) (rules : List Rule) (rest : List Byte) :
    loadFrom (Loader.start rules) (textOf (rulePieces site p) ++ rest) =
      .error (.error, rules) := by
  rw [rulePieces_eq, textOf_append, textOf_append, List.append_assoc, reads_fields hLegible rules,
    List.append_assoc, loadFrom_name_long hLegible.rulename hLong]

end Rules

/- What every rule has that was read from a file. -/
structure Loaded (p : Rule) : Prop where
  flags : p.flags < 16
  fieldvalue : nl ∉ p.fieldvalue
  tofolder : nl ∉ p.tofolder
  fromhdr : p.fromhdr.length ≤ 511

/- The rule can be saved and read back. -/
structure Reloadable (p : Rule) : Prop extends Loaded p where
  room : p.tofolder.length ≤ 200

theorem nl_of_all {text : List Byte} {fine : Byte → Bool} (hAll : text.all fine = true)
    (hNl : fine nl = false) : nl ∉ text := by
  intro hIn
  have hFine := List.all_eq_true.mp hAll nl hIn
  rw [hNl] at hFine
  cases hFine

theorem Rule.Valid.legible (hValid : p.Valid) (hLoaded : Loaded p) : Legible p := by
  constructor
  · exact hLoaded.flags
  · have hName := hValid.rulename
    simp only [checkRulename, Bool.and_eq_true, decide_eq_true_eq] at hName
    exact ⟨nl_of_all hName.2 rfl, hName.1.2⟩
  · have hHeader := hValid.fieldname
    simp only [checkHeader, Bool.and_eq_true, decide_eq_true_eq] at hHeader
    refine ⟨?_, hHeader.1⟩
    by_cases hNil : p.fieldname = []
    · rw [hNil]
      exact List.not_mem_nil
    · rw [if_neg hNil] at hHeader
      exact nl_of_all hHeader.2 rfl
  · have hValue := hValid.fieldvalue
    simp only [checkValue, Bool.and_eq_true, decide_eq_true_eq] at hValue
    exact ⟨hLoaded.fieldvalue, hValue.1⟩
  · exact ⟨hLoaded.tofolder, hValid.tofolder_length⟩
  · exact ⟨nl_of_all hValid.fromhdr rfl, hLoaded.fromhdr⟩

/- What the fields have while they are read. -/
structure Loader.Sound (st : Loader) : Prop where
  rules : ∀ p, p ∈ st.rules → Loaded p
  flags : st.flags < 16
  new_value : nl ∉ st.new_value
  new_folder : nl ∉ st.new_folder
  new_autoreplyfrom : st.new_autoreplyfrom.length ≤ 511

variable {rules : List Rule}

theorem Loader.sound_start (hRules : ∀ p, p ∈ rules → Loaded p) : (Loader.start rules).Sound where
  rules := hRules
  flags := (by decide : (0 : UInt32) < 16)
  new_value := List.not_mem_nil
  new_folder := List.not_mem_nil
  new_autoreplyfrom := Nat.zero_le 511

theorem flags_or {flags flag : UInt32} (hFlags : flags < 16) (hFlag : flag < 16) :
    flags ||| flag < 16 := by
  rw [UInt32.lt_iff_toNat_lt] at hFlags hFlag ⊢
  rw [UInt32.toNat_or]
  exact Nat.or_lt_two_pow (n := 4) hFlags hFlag

/- A rule has what the fields had that it is made of. -/
theorem Loader.Sound.appendrule {st : Loader} {name : Option (List Byte)} (hSound : st.Sound)
    (hRule : Maildir.appendrule st.rules name st.new_type st.flags
      (some st.new_header) (some st.new_value)
      (some st.new_folder) st.new_autoreplyfrom = .ok rules) : ∀ p, p ∈ rules → Loaded p := by
  unfold Maildir.appendrule at hRule
  split at hRule
  · cases hRule
  rename_i q hUpdate
  cases hRule
  intro p hIn
  rcases List.mem_append.mp hIn with hOld | hNew
  · exact hSound.rules p hOld
  · rcases ruleupdate_ok hUpdate with ⟨tofolder, hFolder, _, _, _, _, _, hStored⟩
    cases hFolder
    rw [List.mem_singleton.mp hNew, hStored]
    constructor
    · exact hSound.flags
    · exact hSound.new_value
    · exact not_mem_dotFolder hSound.new_folder
    · exact Nat.le_trans (List.dropWhile_suffix _).length_le hSound.new_autoreplyfrom

theorem not_mem_field {p : List Byte} (hLine : nl ∉ p) (n m : Nat) : nl ∉ (p.drop n).take m :=
  fun hIn => hLine (List.mem_of_mem_drop (List.mem_of_mem_take hIn))

theorem Loader.Sound.loadComment {p : List Byte} (hSound : st.Sound) (hLine : nl ∉ p)
    (hLoad : Maildir.loadComment st p = .ok st') : st'.Sound := by
  unfold Maildir.loadComment at hLoad
  rcases ite_eq_iff.mp hLoad with ⟨_, hFrom⟩ | ⟨_, hLoad⟩
  · cases hFrom
    exact { hSound with
      new_autoreplyfrom := List.length_take_le 511 _ }
  rcases ite_eq_iff.mp hLoad with ⟨_, hOp⟩ | ⟨_, hLoad⟩
  · split at hOp
    · cases hOp
    · cases hOp
      exact { hSound with }
  rcases ite_eq_iff.mp hLoad with ⟨_, hHeader⟩ | ⟨_, hLoad⟩
  · cases hHeader
    exact { hSound with }
  rcases ite_eq_iff.mp hLoad with ⟨_, hValue⟩ | ⟨_, hLoad⟩
  · cases hValue
    exact { hSound with new_value := not_mem_field hLine 6 255 }
  rcases ite_eq_iff.mp hLoad with ⟨_, hFolder⟩ | ⟨_, hLoad⟩
  · cases hFolder
    exact { hSound with new_folder := not_mem_field hLine 7 255 }
  rcases ite_eq_iff.mp hLoad with ⟨_, hPlain⟩ | ⟨_, hLoad⟩
  · cases hPlain
    exact { hSound with flags := flags_or hSound.flags (by decide) }
  rcases ite_eq_iff.mp hLoad with ⟨_, hNot⟩ | ⟨_, hLoad⟩
  · cases hNot
    exact { hSound with flags := flags_or hSound.flags (by decide) }
  rcases ite_eq_iff.mp hLoad with ⟨_, hContinue⟩ | ⟨_, hLoad⟩
  · cases hContinue
    exact { hSound with flags := flags_or hSound.flags (by decide) }
  rcases ite_eq_iff.mp hLoad with ⟨_, hBody⟩ | ⟨_, hLoad⟩
  · cases hBody
    exact { hSound with flags := flags_or hSound.flags (by decide) }
  rcases ite_eq_iff.mp hLoad with ⟨_, hName⟩ | ⟨_, hLoad⟩
  · split at hName
    · cases hName
    · rename_i rules hRule
      cases hName
      exact sound_start (hSound.appendrule hRule)
  · cases hLoad
    exact hSound

theorem Loader.Sound.loadLine {buf : List Byte} (hSound : st.Sound) (hLine : nl ∉ buf)
    (hLoad : Maildir.loadLine st buf = .ok st') : st'.Sound := by
  unfold Maildir.loadLine at hLoad
  split at hLoad
  · have hComment : nl ∉ (buf.drop 2).dropWhile isspace :=
      fun hIn => hLine (List.mem_of_mem_drop ((List.dropWhile_suffix _).subset hIn))
    exact hSound.loadComment hComment hLoad
  · cases hLoad
    exact hSound

theorem Loader.Sound.foldlM {lines : List (List Byte)} (hSound : st.Sound)
    (hLines : ∀ buf, buf ∈ lines → nl ∉ buf)
    (hLoad : lines.foldlM Maildir.loadLine st = .ok st') : st'.Sound := by
  induction lines generalizing st with
  | nil =>
    cases hLoad
    exact hSound
  | cons buf more ih =>
    rw [List.foldlM_cons] at hLoad
    cases hFirst : Maildir.loadLine st buf with
    | error code =>
      rw [hFirst] at hLoad
      cases hLoad
    | ok next =>
      rw [hFirst] at hLoad
      exact ih (hSound.loadLine (hLines buf List.mem_cons_self) hFirst) (fun line hIn =>
          hLines line (List.mem_cons_of_mem buf hIn)) hLoad

/- Every rule that is read is `Loaded`. -/
theorem loaded_of_loadrules {file : List Byte} (hLoad : loadrules [] file = .ok rules) :
    ∀ p, p ∈ rules → Loaded p := by
  unfold loadrules at hLoad
  split at hLoad
  · cases hLoad
  rename_i buf lines hLines
  simp only [] at hLoad
  split at hLoad
  · split at hLoad
    · cases hLoad
    · rename_i st hFold
      cases hLoad
      have hNone : ∀ p, p ∈ ([] : List Rule) → Loaded p := fun p hIn => absurd hIn List.not_mem_nil
      have hClean : ∀ line, line ∈ lines → nl ∉ line := by
        intro line hIn
        have hAll := List.mem_cons_of_mem buf hIn
        rw [← hLines] at hAll
        exact not_mem_of_mem_fgetsLines hAll
      exact ((Loader.sound_start hNone).foldlM hClean hFold).rules
  · cases hLoad

------------
-- Saving and Loading
------------

section SaveLoad

variable {site : FilterSite} {rules : List Rule}

/- The lines before the rules, without the first. -/
def morePieces (fromaddr : List Byte) : List Piece :=
  (headPieces fromaddr).drop 2

/- What stands before the rules tells the loader nothing. -/
theorem quiet_head (hFits : site.Fits) : Quiet (textOf (morePieces site.fromaddr)) := by
  have hAddr : OneLine 6144 (site.fromaddr.filter fun b =>
      b ≠ chr '"' && b ≠ chr '\'' && b ≠ chr '\\') :=
    ⟨fun hIn => hFits.fromaddr (List.mem_of_mem_filter hIn),
      Nat.le_trans (List.length_filter_le _ _) hFits.addr_room⟩
  have hImport : Quiet (textOf
      [.code (bytes "import SENDER"), newline,
        .code (bytes "if ($SENDER eq \"\")"), newline,
        .code (bytes "\x7b"), newline,
        .code (bytes " SENDER=$FROM"), newline,
        .code (bytes "\x7d"), newline, newline]) :=
    quiet_code (quiet_code (quiet_code (quiet_code (quiet_code (quiet_newline quiet_none) rfl rfl)
      rfl rfl) rfl rfl) rfl rfl) rfl rfl
  have hFrom := quiet_pieces
    [.code (bytes "FROM='"),
      .code (site.fromaddr.filter fun b => b ≠ chr '"' && b ≠ chr '\'' && b ≠ chr '\\'),
      .code (bytes "'")]
    ((OneLine.cons (oneLine_code rfl) (.cons hAddr
      (.cons (oneLine_code rfl) .nil))).mono (by decide))
    (mark_code rfl _) hImport
  have hEdit := quiet_pieces
    [.code (bytes "# DO NOT EDIT THIS FILE.  "),
      .code (bytes "This is an automatically generated filter.")]
    ((OneLine.cons (oneLine_code rfl) (.cons (oneLine_code rfl) .nil)).mono (by decide)) rfl
    (quiet_newline hFrom)
  exact quiet_pieces [.code (bytes "#")]
    ((OneLine.cons (oneLine_code rfl) .nil).mono (by decide)) rfl hEdit

theorem quiet_tail (hFits : site.Fits) : Quiet (textOf (tailPieces site.maildirpath)) := by
  have hRoom := hFits.path_room
  exact quiet_pieces
    [.code (bytes "to \""), .code site.maildirpath, .code (bytes "/.\"")]
    ((OneLine.cons (oneLine_code rfl)
      (.cons hFits.oneLine_path (.cons (oneLine_code rfl) .nil))).mono (by omega))
    (mark_code rfl _) quiet_none

/- The loader comes to the rules of a saved file. -/
theorem loadrules_saverules (hFits : site.Fits) (r rules : List Rule) :
    loadrules r (saverules site rules) =
      match loadFrom (Loader.start r) (textOf (rules.flatMap (rulePieces site)) ++
          textOf (tailPieces site.maildirpath)) with
      | .error code => .error code
      | .ok st => .ok st.rules := by
  have hFile : saverules site rules = bytes "#MFMAILDROP=2" ++ nl ::
        (textOf (morePieces site.fromaddr) ++
          (textOf (rules.flatMap (rulePieces site)) ++
            textOf (tailPieces site.maildirpath))) := by
    have hPieces : saverules site rules = textOf (savePieces site rules) := rfl
    have hHead : headPieces site.fromaddr = .code (bytes "#MFMAILDROP=2") :: newline ::
          morePieces site.fromaddr := rfl
    rw [hPieces, savePieces, textOf_append, textOf_append, hHead]
    simp [newline, Piece.text]
  have hFirst : OneLine 100 (bytes "#MFMAILDROP=2") := oneLine_code rfl
  have hLines : fgetsLines bufsiz (saverules site rules) = _ :=
    (congrArg (fgetsLines bufsiz) hFile).trans
      (fgetsLines_line hFirst.nl
        (Nat.lt_of_le_of_lt (Nat.succ_le_succ hFirst.length) (by decide)) _)
  unfold loadrules
  rw [hLines]
  have hRest := quiet_head hFits (Loader.start r) (textOf (rules.flatMap (rulePieces site)) ++
      textOf (tailPieces site.maildirpath))
  unfold loadFrom at hRest
  simp only [hRest]
  rfl

theorem reads_rules (hFits : site.Fits) (hValid : ∀ p, p ∈ rules → p.Valid)
    (hRules : ∀ p, p ∈ rules → Reloadable p) (before : List Rule) :
    Reads (textOf (rules.flatMap (rulePieces site)))
      (Loader.start before) (Loader.start (before ++ rules)) := by
  induction rules generalizing before with
  | nil =>
    rw [List.append_nil]
    exact reads_nil _
  | cons p more ih =>
    have hFirst := hRules p List.mem_cons_self
    have hRead := reads_rule hFits (hValid p List.mem_cons_self)
      ((hValid p List.mem_cons_self).legible hFirst.toLoaded)
      hFirst.room before
    have hMore := ih (fun q hIn => hValid q (List.mem_cons_of_mem p hIn))
      (fun q hIn => hRules q (List.mem_cons_of_mem p hIn))
      (before ++ [p])
    rw [List.flatMap_cons, textOf_append]
    rw [List.append_assoc, List.singleton_append] at hMore
    exact hRead.append hMore

/- Some folder is too long: the loader stops at the first. -/
theorem loadFrom_rules_long (hFits : site.Fits) (hValid : ∀ p, p ∈ rules → p.Valid)
    (hLoaded : ∀ p, p ∈ rules → Loaded p) (hLong : ∃ p, p ∈ rules ∧ 200 < p.tofolder.length)
    (before : List Rule) (rest : List Byte) :
    ∃ code, loadFrom (Loader.start before) (textOf (rules.flatMap (rulePieces site)) ++ rest) =
        .error code := by
  induction rules generalizing before with
  | nil =>
    rcases hLong with ⟨p, hIn, _⟩
    cases hIn
  | cons p more ih =>
    have hLegible := (hValid p List.mem_cons_self).legible (hLoaded p List.mem_cons_self)
    rw [List.flatMap_cons, textOf_append, List.append_assoc]
    by_cases hHere : 200 < p.tofolder.length
    · exact ⟨_, loadFrom_rule_long hLegible hHere before _⟩
    · have hRoom := Nat.le_of_not_lt hHere
      rw [reads_rule hFits (hValid p List.mem_cons_self) hLegible hRoom before]
      apply ih
      · exact fun q hIn => hValid q (List.mem_cons_of_mem p hIn)
      · exact fun q hIn => hLoaded q (List.mem_cons_of_mem p hIn)
      · rcases hLong with ⟨q, hIn, hFar⟩
        rcases List.mem_cons.mp hIn with hSame | hMore
        · rw [hSame] at hFar
          exact absurd hFar hHere
        · exact ⟨q, hMore, hFar⟩

/-
  A saved filter is read back as it was just when each rule
  has a text for every comment that is one line, a folder
  that is not too long with its dot, an address that is not
  cut, and no other flags than the four.
-/
theorem filter_reload_iff (hFits : site.Fits) (hAccepted : ∀ p, p ∈ rules → Accepted p) :
    loadrules [] (saverules site rules) = .ok rules ↔ ∀ p, p ∈ rules → Reloadable p := by
  have hValid : ∀ p, p ∈ rules → p.Valid := fun p hIn => (hAccepted p hIn).valid
  rw [loadrules_saverules hFits]
  constructor
  · intro hReload
    have hLoaded : ∀ p, p ∈ rules → Loaded p := by
      rw [← loadrules_saverules hFits] at hReload
      exact loaded_of_loadrules hReload
    intro p hIn
    refine ⟨hLoaded p hIn, Nat.le_of_not_lt ?_⟩
    intro hLong
    rcases loadFrom_rules_long hFits hValid hLoaded ⟨p, hIn, hLong⟩ [] _ with ⟨code, hError⟩
    rw [hError] at hReload
    cases hReload
  · intro hRules
    have hTail := quiet_tail hFits (Loader.start rules) []
    rw [List.append_nil] at hTail
    rw [reads_rules hFits hValid hRules [], List.nil_append, hTail]
    rfl

end SaveLoad

/- The directory and the address of the source's own test. -/
def testSite : FilterSite where
  mailbot := bytes "mailbot"
  maildirpath := bytes "Maildir"
  fromaddr := bytes "nobody@example.com"

theorem testSite_fits : testSite.Fits where
  mailbot := by
    decide
  maildirpath := by
    decide
  fromaddr := by
    decide
  path_room := by
    decide
  addr_room := by
    decide

/- A plain text in the subject, and a folder. -/
def subjectRule (value : List Byte) : Rule where
  rulename := bytes "subject"
  type := .contains
  flags := MFR_PLAINSTRING
  fieldname := bytes "Subject"
  fieldvalue := value
  tofolder := bytes ".Work"
  fromhdr := bytes "me@example.com"

theorem subjectRule_accepted (value : List Byte)
    (hValue : checkValue .contains MFR_PLAINSTRING value =
      true) : ∀ p, p ∈ [subjectRule value] → Accepted p := by
  intro p hIn
  rw [List.mem_singleton.mp hIn]
  refine ⟨[], some (bytes "subject"), some (bytes "Subject"),
    some value, some (bytes "Work"), bytes " me@example.com", ?_⟩
  have hUpdate : ruleupdate (some (bytes "subject")) .contains
      MFR_PLAINSTRING (some (bytes "Subject")) (some value)
      (some (bytes "Work")) (bytes " me@example.com") =
        if !checkValue .contains MFR_PLAINSTRING value then
          .error .badRuleValue
        else
          .ok (subjectRule value) := rfl
  unfold appendrule subjectRule
  simp only []
  rw [hUpdate, hValue]
  rfl

theorem filter_reload_subject : loadrules [] (saverules testSite
        [subjectRule (bytes "a \"b\" $c")]) =
      .ok [subjectRule (bytes "a \"b\" $c")] ↔
    ∀ p, p ∈ [subjectRule (bytes "a \"b\" $c")] → Reloadable p :=
  filter_reload_iff testSite_fits (subjectRule_accepted _ (by decide))

/- A plain text of two lines comes back as its first. -/
theorem filter_reload_two_lines : ¬ ∀ (site : FilterSite) (rules : List Rule), site.Fits →
      (∀ p, p ∈ rules → Accepted p) → loadrules [] (saverules site rules) = .ok rules := by
  intro hAll
  have hReload := hAll testSite [subjectRule (bytes "a\nb")]
    testSite_fits (subjectRule_accepted _ (by decide))
  have hLoaded := loaded_of_loadrules hReload _ List.mem_cons_self
  exact hLoaded.fieldvalue (by decide)

end Wmail.Maildir
