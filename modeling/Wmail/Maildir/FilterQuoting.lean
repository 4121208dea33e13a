import Wmail.Core.Escapes
import Wmail.Maildir.FilterReload

/-
  The texts of a user in a saved filter, and the quotes that
  they cannot leave.

  Key theorems include:
    * `rulePieces_contained`
    * `savePieces_contained_iff`
-/

namespace Wmail.Maildir

/- The bytes that mean nothing between the quotes. -/
def Quoting.clean : Quoting → Byte → Bool
  | .comment, b => b ≠ nl
  | .double, b => !(b = chr '"' || b = backquote || b = chr '$' || b = nl)
  | .single, b => !(b = chr '\'' || b = backquote || b = chr '$' || b = nl)
  | .pattern, b => !(b = chr '/' || b = backquote || b = chr '$' || b = nl)
  | .number, b => isdigit b

/-
  The text does not end its comment, its string or its
  pattern, and starts nothing in it.  A backslash escapes in
  strings and patterns; a number has digits only.
-/
def Quoting.holds (quoting : Quoting) (text : List Byte) : Bool :=
  match quoting with
  | .comment | .number => text.all quoting.clean
  | .double | .single | .pattern => unescaped (chr '\\') quoting.clean text

/- The text of a user stays where it was put. -/
def Piece.contained : Piece → Bool
  | .code _ => true
  | .user quoting text => quoting.holds text

/- Bytes with a meaning that a set in a pattern can have. -/
def setClean (b : Byte) : Bool :=
  b ≠ chr '/' && b ≠ chr '$'

/- What the condition of a rule needs to be safe. -/
def conditionEnclosed (p : Rule) : Bool :=
  match p.type with
  | .startswith | .endswith | .contains =>
    (hasFlag p.flags MFR_BODY ||
      !p.fieldname.contains (chr '$')) &&
    (hasFlag p.flags MFR_PLAINSTRING ||
      unescaped (chr '\\') setClean p.fieldvalue)
  | .hasrecipient => !hasFlag p.flags MFR_PLAINSTRING || Quoting.double.holds p.fieldvalue
  | .islargerthan => !hasFlag p.flags MFR_PLAINSTRING || p.fieldvalue.all isdigit
  | .mimemultipart | .textplain => true

/- Bytes with a meaning that a folder's name can have. -/
def folderClean (b : Byte) : Bool :=
  !(b = chr '"' || b = backquote || b = chr '$')

/- What the action of a rule needs to be safe. -/
def actionEnclosed (p : Rule) : Bool :=
  match p.tofolder with
  | [] => true
  | b :: rest =>
    if b = chr '!' || b = chr '*' then
      true
    else if b = chr '+' then
      match autorespInfoInitStr rest with
      | none => true
      | some ai =>
        Quoting.double.holds ai.name && p.fromhdr.all fun b => !(b = backquote || b = chr '$')
    else
      p.tofolder.all folderClean

/- What a rule needs to be safe. -/
def enclosed (p : Rule) : Bool :=
  !p.fieldvalue.contains nl && !p.tofolder.contains nl && conditionEnclosed p && actionEnclosed p

------------
-- What Validation Leaves Out
------------

/- A check of every byte is as good as a stronger one. -/
theorem all_eq_of_all {text : List Byte} {fine clean other : Byte → Bool}
    (hFine : text.all fine = true) (hSame : ∀ b, fine b = true → clean b = other b) :
    text.all clean = text.all other := by
  induction text with
  | nil => rfl
  | cons b rest ih =>
    rw [List.all_cons, Bool.and_eq_true] at hFine
    rw [List.all_cons, List.all_cons, hSame b hFine.1, ih hFine.2]

/- The bytes that a header's name can have. -/
def headerClean (b : Byte) : Bool :=
  !(b ≤ 32 || b = mdirsep || 127 ≤ b || isquote b || b = chr '\\' || b = chr '/')

theorem Rule.Valid.fieldname_fine {p : Rule} (hValid : p.Valid) :
    p.fieldname.all headerClean = true := by
  have hHeader := hValid.fieldname
  unfold checkHeader at hHeader
  by_cases hNil : p.fieldname = []
  · rw [hNil]
    rfl
  · rw [if_neg hNil, Bool.and_eq_true] at hHeader
    exact hHeader.2

theorem not_mem_of_all {text : List Byte} {fine : Byte → Bool} {b : Byte}
    (hFine : text.all fine = true) (hByte : fine b = false) : b ∉ text := by
  intro hIn
  rw [List.all_eq_true] at hFine
  rw [hFine b hIn] at hByte
  cases hByte

/- What passes a check is no byte that does not pass it. -/
theorem ne_of_fine {fine : Byte → Bool} {b mark : Byte} (hFine : fine b = true)
    (hMark : fine mark = false) : b ≠ mark := by
  intro hEq
  rw [hEq, hMark] at hFine
  cases hFine

/- A header's name can only hold a dollar sign. -/
theorem Rule.Valid.fieldname_holds {p : Rule} (hValid : p.Valid) :
    Quoting.pattern.holds p.fieldname = !p.fieldname.contains (chr '$') := by
  have hFine := hValid.fieldname_fine
  have hEsc : chr '\\' ∉ p.fieldname := not_mem_of_all hFine rfl
  have hSame : p.fieldname.all Quoting.pattern.clean = p.fieldname.all (· != chr '$') := by
    apply all_eq_of_all hFine
    intro b hByte
    have hSlash : b ≠ chr '/' := ne_of_fine hByte rfl
    have hBack : b ≠ backquote := ne_of_fine hByte rfl
    have hNl : b ≠ nl := ne_of_fine hByte rfl
    simp [Quoting.clean, hSlash, hBack, hNl, bne, BEq.beq]
  have hHolds : Quoting.pattern.holds p.fieldname = p.fieldname.all Quoting.pattern.clean :=
    unescaped_of_not_mem _ hEsc
  rw [hHolds, hSame, List.all_bne']

/- Neither a backquote nor a control character. -/
def patternClean (b : Byte) : Bool :=
  b ≠ backquote && 32 ≤ b

/- What is let pass outside of sets, if it is no bracket. -/
def textClean (b : Byte) : Bool :=
  !(b = chr '/' || b = chr '$' || b = chr '!' || b < 32 || isquote b)

theorem patternClean_text {b : Byte} (hByte : textClean b = true) : patternClean b = true := by
  simp only [textClean, isquote, Bool.not_eq_true',
    Bool.or_eq_false_iff, decide_eq_false_iff_not] at hByte
  rcases hByte with ⟨⟨_, hLow⟩, _, hBack⟩
  unfold patternClean
  rw [decide_eq_true hBack, decide_eq_true (UInt8.not_lt.mp hLow)]
  rfl

theorem patternClean_set {b : Byte} (hQuote : ¬isquote b = true) (hLow : 32 ≤ b) :
    patternClean b = true := by
  simp only [isquote, Bool.or_eq_true, decide_eq_true_eq, not_or] at hQuote
  unfold patternClean
  rw [decide_eq_true hQuote.2, decide_eq_true hLow]
  rfl

variable {v : List Byte}

/- A pattern has no bare backquote and no bare newline. -/
theorem checkPattern_unescaped {type : FilterType} {place : Option SetPlace} {n : Nat}
    (hPattern : checkPattern type place n v = true) :
    unescaped (chr '\\') patternClean v = true := by
  fun_induction checkPattern type place n v with
  | case1 => rfl
  | case2 => cases hPattern
  | case3 => cases hPattern
  | case4 n rest hByte hDigit ih =>
    rw [Bool.and_eq_true] at hPattern
    rw [unescaped_cons _ (by decide)]
    exact ih hPattern.2
  | case5 n rest hByte hDigit hOpen ih =>
    rw [Bool.and_eq_true] at hPattern
    rw [unescaped_cons _ (by decide)]
    exact ih hPattern.2
  | case6 n rest hByte hDigit hOpen hClose ih =>
    rw [Bool.and_eq_true] at hPattern
    rw [unescaped_cons _ (by decide)]
    exact ih hPattern.2
  | case7 => cases hPattern
  | case8 n b rest hByte hDigit hOpen hClose hSet ih =>
    rw [Bool.and_eq_true] at hPattern
    rw [unescaped_esc]
    exact ih hPattern.2
  | case9 n b rest hByte hDigit hOpen hClose hSet hEsc ih =>
    rw [unescaped_cons _ hEsc, patternClean_text (by simpa [textClean] using hByte)]
    exact ih hPattern
  | case10 => cases hPattern
  | case11 place n b rest hEnd ih =>
    have hByte : b = chr ']' := by simpa using (Bool.and_eq_true_iff.mp hEnd).2
    rw [hByte, unescaped_cons _ (by decide)]
    exact ih hPattern
  | case12 place n b rest hEnd hRange ih =>
    have hByte : b = chr '-' := by simpa using (Bool.and_eq_true_iff.mp hRange).2
    rw [hByte, unescaped_cons _ (by decide)]
    exact ih hPattern
  | case13 => cases hPattern
  | case14 => cases hPattern
  | case15 place n after b rest hEnd hRange hQuote ih =>
    rw [Bool.and_eq_true] at hPattern
    rw [unescaped_esc]
    exact ih hPattern.2
  | case16 place n b rest hEnd hRange after hQuote hEsc ih =>
    rw [Bool.and_eq_true, decide_eq_true_eq] at hPattern
    rw [unescaped_cons _ hEsc, patternClean_set hQuote hPattern.1]
    exact ih hPattern.2

/- Outside of sets a plain byte is passed by. -/
theorem checkPattern_plain {type : FilterType} {n : Nat} {b : Byte} {rest : List Byte}
    (hType : type = .hasrecipient ∨ type = .islargerthan)
    (hPattern : checkPattern type none n (b :: rest) = true) :
    textClean b = true ∧ (type = .islargerthan → isdigit b = true) ∧
      b ≠ chr '\\' ∧ checkPattern type none n rest = true := by
  rw [checkPattern.eq_def] at hPattern
  simp only [] at hPattern
  split at hPattern
  · cases hPattern
  rename_i hByte
  split at hPattern
  · cases hPattern
  rename_i hDigit
  -- no parenthesis, set or escape is left for the two types
  have hNone : ∀ (mark : Byte) (more : Bool), isdigit mark = false → b = mark →
        (decide (type ≠ .hasrecipient) && more) = true → False := by
    intro mark more hMark hSame hMore
    rcases hType with hList | hSize
    · rw [hList] at hMore
      cases hMore
    · rw [hSize, hSame, hMark] at hDigit
      exact hDigit rfl
  split at hPattern
  · rename_i hOpen
    rw [Bool.and_assoc] at hPattern
    exact (hNone _ _ rfl hOpen hPattern).elim
  split at hPattern
  · rename_i hClose
    rw [Bool.and_assoc] at hPattern
    exact (hNone _ _ rfl hClose hPattern).elim
  split at hPattern
  · rename_i hSet
    exact (hNone _ _ rfl hSet hPattern).elim
  split at hPattern
  · rename_i hEsc
    split at hPattern
    · cases hPattern
    · exact (hNone _ _ rfl hEsc hPattern).elim
  rename_i hEsc
  refine ⟨by simpa [textClean] using hByte, ?_, hEsc, hPattern⟩
  intro hSize
  rw [hSize] at hDigit
  simpa using hDigit

/- An address list has no byte with a meaning at all. -/
theorem checkPattern_hasrecipient {n : Nat}
    (hPattern : checkPattern .hasrecipient none n v = true) : Quoting.double.holds v = true := by
  unfold Quoting.holds
  induction v with
  | nil => rfl
  | cons b rest ih =>
    rcases checkPattern_plain (Or.inl rfl) hPattern with ⟨hByte, _, hEsc, hRest⟩
    have hQuote : b ≠ chr '"' := ne_of_fine hByte rfl
    have hBack : b ≠ backquote := ne_of_fine hByte rfl
    have hDollar : b ≠ chr '$' := ne_of_fine hByte rfl
    have hNl : b ≠ nl := ne_of_fine hByte rfl
    have hClean : Quoting.double.clean b = true := by
      simp [Quoting.clean, hQuote, hBack, hDollar, hNl]
    rw [unescaped_cons _ hEsc, hClean]
    exact ih hRest

/- A size has digits only. -/
theorem checkPattern_islargerthan {n : Nat}
    (hPattern : checkPattern .islargerthan none n v = true) : v.all isdigit = true := by
  induction v with
  | nil => rfl
  | cons b rest ih =>
    rcases checkPattern_plain (Or.inr rfl) hPattern with ⟨_, hDigit, _, hRest⟩
    rw [List.all_cons, hDigit rfl, ih hRest]
    rfl

/- A printed pattern is as safe as its sets. -/
theorem printPattern_holds {flags : UInt32}
    (hValue : hasFlag flags MFR_PLAINSTRING = true ∨ unescaped (chr '\\') patternClean v = true) :
    Quoting.pattern.holds (printPattern flags v) = (hasFlag flags MFR_PLAINSTRING ||
        unescaped (chr '\\') setClean v) := by
  have hAlnum : ∀ b : Byte, isalnum b = true → Quoting.pattern.clean b = true := by
    intro b hByte
    have hSlash : b ≠ chr '/' := ne_of_fine hByte rfl
    have hBack : b ≠ backquote := ne_of_fine hByte rfl
    have hDollar : b ≠ chr '$' := ne_of_fine hByte rfl
    have hNl : b ≠ nl := ne_of_fine hByte rfl
    simp [Quoting.clean, hSlash, hBack, hDollar, hNl]
  have hSame : ∀ b : Byte, patternClean b = true → Quoting.pattern.clean b = setClean b := by
    intro b hByte
    have hBack : b ≠ backquote := ne_of_fine hByte rfl
    have hNl : b ≠ nl := ne_of_fine hByte rfl
    simp [Quoting.clean, setClean, hBack, hNl]
  unfold printPattern
  cases hPlain : hasFlag flags MFR_PLAINSTRING with
  | true => exact unescaped_escapeAll rfl hAlnum v
  | false =>
    have hFine : unescaped (chr '\\') patternClean v = true := by
      rcases hValue with hTrue | hFine
      · rw [hPlain] at hTrue
        cases hTrue
      · exact hFine
    cases v with
    | nil => rfl
    | cons b rest =>
      have hOut := unescaped_congr hFine hSame
      cases hSpace : isspace b with
      | false => simpa [hSpace, Quoting.holds] using hOut
      | true =>
        have hOther : b ≠ chr '\\' := ne_of_fine hSpace rfl
        have hSlash : b ≠ chr '/' := ne_of_fine hSpace rfl
        have hDollar : b ≠ chr '$' := ne_of_fine hSpace rfl
        have hSet : setClean b = true := by simp [setClean, hSlash, hDollar]
        rw [unescaped_cons _ hOther, Bool.and_eq_true] at hFine
        have hRest := unescaped_congr hFine.2 hSame
        rw [unescaped_cons _ hOther, hSet]
        simpa [hSpace, Quoting.holds, bytes] using hRest

/- The bytes that a forwarding address can have. -/
def forwardClean (b : Byte) : Bool :=
  !((bytes "'\"$\\`;()\x7b\x7d#&<>~").contains b || b < 32)

/- An address that mail is sent to, or a text, is safe. -/
theorem checkForward_holds {text : List Byte} (hForward : checkForward text = true) :
    Quoting.double.holds text = true := by
  have hFine : text.all forwardClean = true := hForward
  have hEsc : chr '\\' ∉ text := not_mem_of_all hFine rfl
  have hAll : text.all Quoting.double.clean = text.all (fun _ => true) := by
    apply all_eq_of_all hFine
    intro b hByte
    have hQuote : b ≠ chr '"' := ne_of_fine hByte rfl
    have hBack : b ≠ backquote := ne_of_fine hByte rfl
    have hDollar : b ≠ chr '$' := ne_of_fine hByte rfl
    have hNl : b ≠ nl := ne_of_fine hByte rfl
    simp [Quoting.clean, hQuote, hBack, hDollar, hNl]
  unfold Quoting.holds
  rw [unescaped_of_not_mem _ hEsc, hAll]
  exact List.all_eq_true.mpr fun _ _ => rfl

theorem checkFolderName_fine {name : List Byte} (hName : checkFolderName name = true) :
    name.all (fun b => 32 ≤ b && b ≠ chr '\\') = true := by
  induction name with
  | nil => rfl
  | cons b rest ih =>
    simp only [checkFolderName, Bool.and_eq_true, Bool.not_eq_true', Bool.or_eq_false_iff,
      decide_eq_false_iff_not] at hName
    rcases hName with ⟨⟨_, ⟨⟨hLow, hEsc⟩, _⟩, _⟩, hRest⟩
    rw [List.all_cons, ih hRest, Bool.and_true,
      decide_eq_true (UInt8.not_lt.mp hLow), decide_eq_true hEsc]
    rfl

/- The name of a folder is as safe as its three bytes. -/
theorem checkFolderName_holds {name : List Byte} (hName : checkFolderName name = true) :
    Quoting.double.holds name = name.all folderClean := by
  have hSame : ∀ b : Byte, (decide (32 ≤ b) && decide (b ≠ chr '\\')) = true →
        Quoting.double.clean b = folderClean b := by
    intro b hByte
    have hNl : b ≠ nl := by
      intro hEq
      rw [hEq] at hByte
      cases hByte
    simp [Quoting.clean, folderClean, hNl]
  have hFine := checkFolderName_fine hName
  have hEsc : chr '\\' ∉ name := not_mem_of_all hFine rfl
  unfold Quoting.holds
  rw [unescaped_of_not_mem _ hEsc, all_eq_of_all hFine hSame]

/- The address of an automatic reply, in single quotes. -/
theorem checkFromhdr_holds {fromhdr : List Byte} (hFrom : checkFromhdr fromhdr = true) :
    Quoting.single.holds fromhdr = fromhdr.all fun b => !(b = backquote || b = chr '$') := by
  have hSame : ∀ b : Byte, (!(decide (b = chr '\'') || decide (b = chr '\\') ||
        decide (b < 32))) = true →
        Quoting.single.clean b = !(decide (b = backquote) || decide (b = chr '$')) := by
    intro b hByte
    have hQuote : b ≠ chr '\'' := by
      intro hEq
      rw [hEq] at hByte
      cases hByte
    have hNl : b ≠ nl := by
      intro hEq
      rw [hEq] at hByte
      cases hByte
    simp [Quoting.clean, hQuote, hNl]
  have hEsc : chr '\\' ∉ fromhdr := not_mem_of_all hFrom rfl
  unfold Quoting.holds
  rw [unescaped_of_not_mem _ hEsc, all_eq_of_all hFrom hSame]

------------
-- The Pieces of a Rule
------------

section Pieces

variable {site : FilterSite} {p : Rule}

/- Whether every text of a user stays where it was put. -/
def allContained (pieces : List Piece) : Bool :=
  pieces.all Piece.contained

@[simp] theorem allContained_nil : allContained [] = true :=
  rfl

@[simp] theorem allContained_code (text : List Byte) (pieces : List Piece) :
    allContained (.code text :: pieces) = allContained pieces :=
  rfl

@[simp] theorem allContained_newline (pieces : List Piece) :
    allContained (newline :: pieces) = allContained pieces :=
  rfl

@[simp] theorem allContained_user (quoting : Quoting) (text : List Byte) (pieces : List Piece) :
    allContained (.user quoting text :: pieces) = (quoting.holds text && allContained pieces) :=
  rfl

@[simp] theorem allContained_append (pieces more : List Piece) :
    allContained (pieces ++ more) = (allContained pieces && allContained more) :=
  List.all_append

theorem allContained_printIf (printed : Bool) {pieces : List Piece}
    (hPieces : allContained pieces = true) : allContained (printIf printed pieces) = true := by
  cases printed with
  | false => rfl
  | true => exact hPieces

theorem holds_comment (text : List Byte) : Quoting.comment.holds text = !text.contains nl := by
  have hClean : Quoting.comment.clean = (· != nl) := by
    funext b
    simp [Quoting.clean, bne, BEq.beq]
  unfold Quoting.holds
  simp only [hClean]
  exact List.all_bne'

theorem commentLine_contained (name : String) (text : List Byte) :
    allContained (commentLine name text) = !text.contains nl := by
  unfold commentLine
  rw [allContained_code, allContained_user, allContained_newline, allContained_nil, Bool.and_true,
    holds_comment]

@[simp] theorem allContained_flatten_cons (pieces : List Piece) (more : List (List Piece)) :
    allContained (pieces :: more).flatten = (allContained pieces && allContained more.flatten) := by
  rw [List.flatten_cons, allContained_append]

/- A comment ends early only in the value or the folder. -/
theorem commentPieces_contained (hValid : p.Valid) : allContained (commentPieces p) =
      (!p.fieldvalue.contains nl && !p.tofolder.contains nl) := by
  have hHeader : nl ∉ p.fieldname := not_mem_of_all hValid.fieldname_fine rfl
  have hFrom : nl ∉ p.fromhdr := not_mem_of_all hValid.fromhdr rfl
  have hName : nl ∉ p.rulename := by
    have hCheck := hValid.rulename
    unfold checkRulename at hCheck
    rw [Bool.and_eq_true] at hCheck
    exact not_mem_of_all hCheck.2 rfl
  have hFlag : ∀ (flag : UInt32) (text : List Byte), allContained (printIf (hasFlag p.flags flag)
        [.code text, newline]) = true :=
    fun flag text => allContained_printIf _ rfl
  unfold commentPieces
  simp [commentLine_contained, hHeader, hFrom, hName, hFlag]

/- A condition is as safe as its value and its header. -/
theorem conditionPieces_contained (hValid : p.Valid) :
    allContained (conditionPieces p) = conditionEnclosed p := by
  have hCheck := hValid.fieldvalue
  unfold checkValue at hCheck
  rw [Bool.and_eq_true] at hCheck
  have hValue : hasFlag p.flags MFR_PLAINSTRING = true ∨ p.fieldvalue = [] ∨
      checkPattern p.type none 0 p.fieldvalue = true := by
    by_cases hNil : p.fieldvalue = []
    · exact Or.inr (Or.inl hNil)
    · rw [if_neg hNil, Bool.or_eq_true] at hCheck
      rcases hCheck.2 with hPlain | hPattern
      · exact Or.inl hPlain
      · exact Or.inr (Or.inr hPattern)
  have hPrinted : Quoting.pattern.holds (printPattern p.flags p.fieldvalue) =
        (hasFlag p.flags MFR_PLAINSTRING ||
          unescaped (chr '\\') setClean p.fieldvalue) := by
    apply printPattern_holds
    rcases hValue with hPlain | hNil | hPattern
    · exact Or.inl hPlain
    · rw [hNil]
      exact Or.inr rfl
    · exact Or.inr (checkPattern_unescaped hPattern)
  have hHeader := hValid.fieldname_holds
  unfold conditionPieces conditionEnclosed
  cases hType : p.type with
  | startswith => cases hasFlag p.flags MFR_BODY <;> simp [hPrinted, hHeader]
  | endswith => cases hasFlag p.flags MFR_BODY <;> simp [hPrinted, hHeader]
  | contains => cases hasFlag p.flags MFR_BODY <;> simp [hPrinted, hHeader]
  | hasrecipient =>
    have hHolds : hasFlag p.flags MFR_PLAINSTRING = false →
        Quoting.double.holds p.fieldvalue = true := by
      intro hPlain
      rw [hPlain, hType] at hValue
      rcases hValue with hTrue | hNil | hPattern
      · cases hTrue
      · rw [hNil]
        rfl
      · exact checkPattern_hasrecipient hPattern
    cases hPlain : hasFlag p.flags MFR_PLAINSTRING with
    | false => simp [hHolds hPlain]
    | true => simp
  | mimemultipart => rfl
  | textplain => rfl
  | islargerthan =>
    have hDigits : hasFlag p.flags MFR_PLAINSTRING = false → p.fieldvalue.all isdigit = true := by
      intro hPlain
      rw [hPlain, hType] at hValue
      rcases hValue with hTrue | hNil | hPattern
      · cases hTrue
      · rw [hNil]
        rfl
      · exact checkPattern_islargerthan hPattern
    have hNumber : Quoting.number.holds p.fieldvalue = p.fieldvalue.all isdigit := rfl
    cases hPlain : hasFlag p.flags MFR_PLAINSTRING with
    | false =>
      rw [allContained_code, allContained_user, hNumber, hDigits hPlain]
      rfl
    | true => simp [hNumber]

theorem digits_holds (room n : Nat) : Quoting.number.holds (decimalDigits room n) = true :=
  List.all_eq_true.mpr fun _ hIn => isdigit_decimalDigits hIn

/- An automatic reply is as safe as its name and address. -/
theorem autoreplyPieces_contained (ai : AutorespInfo) {fromhdr : List Byte}
    (hFrom : checkFromhdr fromhdr = true) :
    allContained (autoreplyPieces site fromhdr ai) = (Quoting.double.holds ai.name &&
        fromhdr.all fun b => !(b = backquote || b = chr '$')) := by
  have hAddress : allContained (if fromhdr ≠ [] then
        [.code (bytes "    AUTOREPLYFROM='"), .user .single fromhdr, .code (bytes "'"), newline]
      else
        [.code (bytes "    AUTOREPLYFROM=$FROM"), newline]) =
      fromhdr.all fun b => !(b = backquote || b = chr '$') := by
    split
    · rw [allContained_code, allContained_user, allContained_code, allContained_newline,
        allContained_nil, Bool.and_true, checkFromhdr_holds hFrom]
    · rename_i hNil
      rw [not_not] at hNil
      rw [hNil]
      rfl
  have hDsn : allContained (printIf ai.dsnflag [.code (bytes " -M \"$FROM\"")]) = true :=
    allContained_printIf _ rfl
  unfold autoreplyPieces
  simp only [allContained_flatten_cons, hAddress, hDsn]
  cases hDays : decide (0 < ai.days) with
  | false => simp [printIf, Bool.and_comm]
  | true =>
    cases hName : Quoting.double.holds ai.name <;>
      simp [printIf, hName, digits_holds]

/- An action is as safe as the texts in it. -/
theorem actionPieces_contained (hValid : p.Valid) :
    allContained (actionPieces site p) = actionEnclosed p := by
  have hTarget := hValid.tofolder
  have hDeliver : ∀ pieces, allContained (deliver p.flags :: pieces) =
        allContained pieces := fun _ => rfl
  unfold actionPieces actionEnclosed
  unfold checkTarget at hTarget
  cases hTo : p.tofolder with
  | nil => rfl
  | cons b rest =>
    rw [hTo] at hTarget
    simp only [Bool.or_eq_true, decide_eq_true_eq] at hTarget ⊢
    by_cases hBang : b = chr '!'
    · rw [if_pos (Or.inr hBang)] at hTarget
      rw [if_pos hBang, if_pos (Or.inl hBang), allContained_code, hDeliver]
      simp [checkForward_holds hTarget]
    by_cases hStar : b = chr '*'
    · rw [if_pos (Or.inl hStar)] at hTarget
      rw [if_neg hBang, if_pos hStar, if_pos (Or.inr hStar)]
      simp [checkForward_holds hTarget]
    have hNone : ¬(b = chr '!' ∨ b = chr '*') := by
      rintro (hEq | hEq)
      · exact hBang hEq
      · exact hStar hEq
    rw [if_neg (fun hEq => hNone hEq.symm)] at hTarget
    rw [if_neg hBang, if_neg hStar, if_neg hNone]
    by_cases hPlus : b = chr '+'
    · rw [if_pos hPlus, if_pos hPlus]
      cases autorespInfoInitStr rest with
      | none => rfl
      | some ai => exact autoreplyPieces_contained ai hValid.fromhdr
    rw [if_neg hPlus] at hTarget
    rw [if_neg hPlus, if_neg hPlus]
    have hName : ∀ name, allContained
        [.code (bytes "   "), deliver p.flags,
          .code (bytes " \""), .code site.maildirpath,
          .code (if name ≠ [] then bytes "/." else []),
          .user .double name, .code (bytes "/.\""),
          newline] =
        Quoting.double.holds name := by
      intro name
      rw [allContained_code, hDeliver]
      simp
    refine (hName _).trans ?_
    rw [Bool.or_eq_true, decide_eq_true_eq] at hTarget
    rcases hTarget with hInbox | hFolder
    · rcases List.cons.inj hInbox with ⟨hDot, hNil⟩
      rw [hDot, hNil]
      rfl
    · split
      · rename_i hDot
        have hRest : checkFolderName rest = true := by
          rw [checkFolderName, Bool.and_eq_true] at hFolder
          exact hFolder.2
        rw [checkFolderName_holds hRest, List.all_cons, hDot]
        rfl
      · exact checkFolderName_holds hFolder

/- A rule is safe just when it is enclosed. -/
theorem rulePieces_contained (hValid : p.Valid) :
    allContained (rulePieces site p) = enclosed p := by
  have hNot : allContained (printIf (hasFlag p.flags MFR_DOESNOT) [.code (bytes "!")]) = true :=
    allContained_printIf _ rfl
  unfold rulePieces enclosed
  simp [commentPieces_contained hValid, hNot, conditionPieces_contained hValid,
    actionPieces_contained hValid, Bool.and_assoc]

end Pieces

/-
  Every text of a user in a saved filter stays in the
  comment, the string, the pattern or the number that it was
  put in, just when every rule is enclosed.
-/
theorem savePieces_contained_iff {site : FilterSite} {rules : List Rule}
    (hAccepted : ∀ p, p ∈ rules → Accepted p) :
    (∀ piece, piece ∈ savePieces site rules → piece.contained = true) ↔
      ∀ p, p ∈ rules → enclosed p = true := by
  have hRules : allContained (rules.flatMap (rulePieces site)) = rules.all enclosed := by
    induction rules with
    | nil => rfl
    | cons p more ih =>
      have hFirst := hAccepted p List.mem_cons_self
      rw [List.flatMap_cons, allContained_append,
        rulePieces_contained hFirst.valid, List.all_cons, ih]
      exact fun q hIn => hAccepted q (List.mem_cons_of_mem p hIn)
  have hFile : allContained (savePieces site rules) = rules.all enclosed := by
    have hHead : allContained (headPieces site.fromaddr) = true := rfl
    have hTail : allContained (tailPieces site.maildirpath) = true := rfl
    unfold savePieces
    rw [allContained_append, allContained_append, hHead, hTail,
      hRules, Bool.true_and, Bool.and_true]
  have hPieces : allContained (savePieces site rules) = true ↔
      ∀ piece, piece ∈ savePieces site rules → piece.contained = true := List.all_eq_true
  rw [← hPieces, hFile, List.all_eq_true]

theorem savePieces_contained_subject : (∀ piece, piece ∈ savePieces testSite
          [subjectRule (bytes "a \"b\" $c")] →
        piece.contained = true) ↔
      ∀ p, p ∈ [subjectRule (bytes "a \"b\" $c")] → enclosed p = true :=
  savePieces_contained_iff (subjectRule_accepted _ (by decide))

/- A plain address with a quote and a command behind it. -/
def recipientRule : Rule where
  rulename := bytes "list"
  type := .hasrecipient
  flags := MFR_PLAINSTRING
  fieldname := []
  fieldvalue := bytes "\")||`id`||(\""
  tofolder := bytes ".Lists"
  fromhdr := []

/- The quote ends the string, and the command is run. -/
theorem savePieces_contained_command : ¬ ∀ (site : FilterSite) (rules : List Rule),
      (∀ p, p ∈ rules → Accepted p) →
        ∀ piece, piece ∈ savePieces site rules → piece.contained = true := by
  intro hAll
  have hPieces := hAll testSite [recipientRule] (by
    intro p hIn
    rw [List.mem_singleton.mp hIn]
    exact ⟨[], some (bytes "list"), none, some (bytes "\")||`id`||(\""), some (bytes "Lists"), [],
      rfl⟩)
  have hTrue : allContained (savePieces testSite [recipientRule]) =
      true := List.all_eq_true.mpr hPieces
  have hFalse : allContained (savePieces testSite [recipientRule]) = false := by decide +kernel
  rw [hFalse] at hTrue
  cases hTrue

end Wmail.Maildir
