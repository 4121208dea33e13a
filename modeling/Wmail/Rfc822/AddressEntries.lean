import Wmail.Rfc822.AddressPieces

/-
  Entries of an address list.

  An entry is an address of pieces, in brackets with or
  without a quoted name in front, or bare.  A list of such
  entries with commas between them is parsed into its entries.

  Key theorems include:
    * `parseaddr_entry`
    * `printAddr_entry`
-/

namespace Wmail.Rfc822

/- The rounds that are left do not matter when they suffice. -/
theorem parseaddrLoop_fuel (n : Nat) :
    ∀ (tokens : List Token) (f g : Nat), tokens.length ≤ n → tokens.length ≤ f → tokens.length ≤ g →
      parseaddrLoop f tokens = parseaddrLoop g tokens := by
  induction n with
  | zero =>
    intro tokens f g hLength _ _
    have hNil : tokens = [] := List.eq_nil_of_length_eq_zero (Nat.le_zero.mp hLength)
    subst hNil
    cases f <;> cases g <;> rfl
  | succ n ih =>
    intro tokens f g hLength hF hG
    cases tokens with
    | nil => cases f <;> cases g <;> rfl
    | cons first others =>
      rw [List.length_cons] at hLength hF hG
      obtain ⟨f, rfl⟩ : ∃ k, f = k + 1 := ⟨f - 1, by omega⟩
      obtain ⟨g, rfl⟩ : ∃ k, g = k + 1 := ⟨g - 1, by omega⟩
      have hSame : ∀ later : List Token, later.length ≤ others.length →
          parseaddrLoop f later = parseaddrLoop g later := by
        intro later hLater
        exact ih later f g (by omega) (by omega) (by omega)
      have hDrop : ∀ len, 0 < len → ((first :: others).drop len).length ≤ others.length := by
        intro len hPos
        rw [List.length_drop, List.length_cons]
        omega
      have hAfter : ∀ i len, ((((first :: others).drop i).drop
            (1 + len + 1)).length ≤ others.length) := by
        intro i len
        rw [List.drop_drop]
        exact hDrop _ (by omega)
      unfold parseaddrLoop
      dsimp only
      split
      · rw [hSame _ (hDrop _ (Nat.succ_pos _))]
      split
      · exact hSame others (Nat.le_refl _)
      split
      · rw [hSame others (Nat.le_refl _)]
      split
      · rw [hSame _ (hAfter _ _)]
      split
      · exact hSame others (Nat.le_refl _)
      · rename_i hSome
        rw [hSame _ (hDrop _ (Nat.pos_of_ne_zero hSome))]

theorem parseaddrLoop_enough {tokens : List Token} {fuel : Nat}
    (hFuel : tokens.length ≤ fuel) : parseaddrLoop fuel tokens = parseaddr tokens := by
  exact parseaddrLoop_fuel tokens.length tokens fuel
    tokens.length (Nat.le_refl _) hFuel (Nat.le_refl _)

/- A token of an address in brackets, or of a display name. -/
def isWordToken (t : Token) : Bool :=
  t.token = 0 || t.token = chr '"'

@[simp] theorem parseaddr_nil : parseaddr [] = [] := by
  rfl

/- A comma is skipped. -/
theorem parseaddr_comma {comma : Token} (hComma : comma.token = chr ',')
    (more : List Token) : parseaddr (comma :: more) = parseaddr more := by
  have hNone : (comma :: more).takeWhile (fun t => t.token = 0 || t.token = chr '"') = [] := by
    rw [List.takeWhile_cons_of_neg]
    rw [hComma]
    decide
  have hGroup : ¬ ((comma :: more).drop 0).head?.map (·.token) = some (chr ':') := by
    rw [List.drop_zero, List.head?_cons, Option.map_some, hComma]
    decide
  unfold parseaddr
  rw [List.length_cons, parseaddrLoop]
  dsimp only
  rw [hNone, List.length_nil, if_neg hGroup, if_pos hComma]

/- A word is none of the characters that end an address. -/
theorem token_of_word {t : Token} (hWord : isWordToken t = true) :
    t.token ≠ chr ',' ∧ t.token ≠ chr ';' ∧ t.token ≠ chr '<' := by
  unfold isWordToken at hWord
  rw [Bool.or_eq_true, decide_eq_true_eq, decide_eq_true_eq] at hWord
  rcases hWord with hZero | hQuote
  · rw [hZero]
    decide
  · rw [hQuote]
    decide

/- The display name is in front of the bracket. -/
theorem beforeBracket_of_word {t : Token} (hWord : isWordToken t = true) :
    (t.token != chr ';' && t.token != chr ',' &&
      t.token != chr '<') = true := by
  rcases token_of_word hWord with ⟨hComma, hSemi, hLt⟩
  simp [hComma, hSemi, hLt]

/- A name of words, and an address in brackets. -/
theorem parseaddr_bracket {name inside : List Token} (left right : Token)
    (more : List Token) (hName : ∀ t, t ∈ name → isWordToken t = true)
    (hLeft : left.token = chr '<') (hInside : ∀ t, t ∈ inside → (t.token != chr '>') = true)
    (hRight : right.token = chr '>') :
    parseaddr (name ++ left :: (inside ++ right :: more)) =
      ⟨inside, routeName name⟩ :: parseaddr more := by
  have hWords : (name ++ left :: (inside ++ right :: more)
      ).takeWhile (fun t => t.token = 0 || t.token = chr '"') = name := by
    apply takeWhile_run hName
    intro t hHead
    cases hHead
    unfold isWordToken
    rw [hLeft]
    decide
  have hBefore : (name ++ left :: (inside ++ right :: more)
      ).takeWhile (fun t => t.token != chr ';' &&
        t.token != chr ',' && t.token != chr '<') = name := by
    apply takeWhile_run
    · intro t hMem
      exact beforeBracket_of_word (hName t hMem)
    · intro t hHead
      cases hHead
      rw [hLeft]
      decide
  have hIn : (inside ++ right :: more).takeWhile (fun t => t.token != chr '>') = inside := by
    apply takeWhile_run hInside
    intro t hHead
    cases hHead
    rw [hRight]
    decide
  have hNoGroup : ¬ (left :: (inside ++ right :: more) ).head?.map (·.token) = some (chr ':') := by
    rw [List.head?_cons, Option.map_some, hLeft]
    decide
  have hRoute : (left :: (inside ++ right :: more) ).head?.map (·.token) = some (chr '<') := by
    rw [List.head?_cons, Option.map_some, hLeft]
  have hAfter : (left :: (inside ++ right :: more)).drop (1 + inside.length + 1) = more := by
    rw [show 1 + inside.length + 1 = (inside.length + 1) + 1 by omega, List.drop_succ_cons,
      ← List.drop_drop, List.drop_left]
    rfl
  cases hAll : name ++ left :: (inside ++ right :: more) with
  | nil => simp at hAll
  | cons first others =>
    have hFirst : first.token ≠ chr ',' ∧ first.token ≠ chr ';' := by
      cases name with
      | nil =>
        cases hAll
        rw [hLeft]
        decide
      | cons t name =>
        cases hAll
        have hWord := token_of_word (hName first List.mem_cons_self)
        exact ⟨hWord.1, hWord.2.1⟩
    have hMore : more.length ≤ others.length := by
      have hLength := congrArg List.length hAll
      simp only [List.length_append, List.length_cons] at hLength
      omega
    unfold parseaddr
    rw [List.length_cons, parseaddrLoop]
    dsimp only
    rw [← hAll, hWords, hBefore, List.drop_left, if_neg hNoGroup, if_neg hFirst.1, if_neg hFirst.2,
      if_pos hRoute, List.drop_succ_cons, List.drop_zero, hIn, hAfter, parseaddrLoop_enough hMore]
    rfl

------------
-- Addresses Without Brackets
------------

/- No piece ends the address. -/
def Plain (ps : List AddrPiece) : Prop :=
  ∀ p, p ∈ ps → p ≠ .special (chr ',') ∧ p ≠ .special (chr ';')

/- The words in front do not name a group. -/
def GroupFree : List AddrPiece → Prop
  | [] => True
  | p :: ps =>
    if p.isWord then GroupFree ps else p ≠ .special (chr ':')

/- The end of the list, or the comma of the next entry. -/
def EndsEntry (more : List Token) : Prop :=
  ∀ t, more.head? = some t → t.token = chr ','

/- The token of a piece is a word, or a character of its own. -/
theorem token_tokenAt {p : AddrPiece} (hOk : p.Ok) (after : List Byte) :
    (p.tokenAt after).token ≠ chr '(' ∧
      (p.tokenAt after).token ≠ chr '<' ∧ (p.tokenAt after).token ≠ chr '>' := by
  cases p with
  | atom t =>
    simp only [AddrPiece.tokenAt]
    decide
  | quoted t =>
    simp only [AddrPiece.tokenAt]
    decide
  | special c =>
    rcases inPiece_classes c hOk with ⟨_, hOpen, _, _, _, hLt, hGt, _⟩
    exact ⟨hOpen, hLt, hGt⟩

theorem isWordToken_tokenAt {p : AddrPiece} (hOk : p.Ok) (after : List Byte) :
    isWordToken (p.tokenAt after) = p.isWord := by
  cases p with
  | atom t => rfl
  | quoted t => rfl
  | special c =>
    rcases inPiece_classes c hOk with ⟨_, _, hQuote, _, _, _, _, _, hZero⟩
    simp [AddrPiece.tokenAt, AddrPiece.isWord, isWordToken, hQuote, hZero]

theorem plain_tokenAt {p : AddrPiece}
    (hPlain : p ≠ .special (chr ',') ∧ p ≠ .special (chr ';')) (after : List Byte) :
    (p.tokenAt after).token ≠ chr ',' ∧ (p.tokenAt after).token ≠ chr ';' := by
  cases p with
  | atom t =>
    simp only [AddrPiece.tokenAt]
    decide
  | quoted t =>
    simp only [AddrPiece.tokenAt]
    decide
  | special c =>
    constructor
    · intro hSame
      exact hPlain.1 (congrArg AddrPiece.special hSame)
    · intro hSame
      exact hPlain.2 (congrArg AddrPiece.special hSame)

variable {ps : List AddrPiece}

/- What holds of each token holds of all of them. -/
theorem forall_pieceTokens {P : Token → Prop}
    (hEach : ∀ p, p ∈ ps → ∀ after, P (p.tokenAt after)) (rest : List Byte) :
    ∀ t, t ∈ pieceTokens ps rest → P t := by
  induction ps with
  | nil =>
    intro t hMem
    cases hMem
  | cons p ps ih =>
    intro t hMem
    rw [pieceTokens, List.mem_cons] at hMem
    rcases hMem with hHere | hThere
    · rw [hHere]
      exact hEach p List.mem_cons_self _
    · exact ih (fun q hQ => hEach q (List.mem_cons_of_mem p hQ)) t hThere

variable {more : List Token}

/- The words in front are not followed by a colon. -/
theorem groupFree_tokens (hOk : ∀ p, p ∈ ps → p.Ok) (hFree : GroupFree ps)
    (rest : List Byte) (hMore : EndsEntry more) :
    ((pieceTokens ps rest ++ more).dropWhile isWordToken).head?.map (·.token) ≠ some (chr ':') := by
  induction ps with
  | nil =>
    cases more with
    | nil =>
      intro hColon
      cases hColon
    | cons comma more =>
      have hComma := hMore comma rfl
      have hStop : ¬ isWordToken comma = true := by
        unfold isWordToken
        rw [hComma]
        decide
      rw [pieceTokens, List.nil_append, List.dropWhile_cons_of_neg hStop, List.head?_cons,
        Option.map_some, hComma]
      decide
  | cons p ps ih =>
    have hP := hOk p List.mem_cons_self
    have hWord := isWordToken_tokenAt hP (piecesText ps ++ rest)
    rw [GroupFree] at hFree
    rw [pieceTokens, List.cons_append]
    by_cases hIs : p.isWord = true
    · rw [if_pos hIs] at hFree
      rw [List.dropWhile_cons_of_pos (by rw [hWord, hIs])]
      exact ih (fun q hQ => hOk q (List.mem_cons_of_mem p hQ)) hFree
    · rw [if_neg hIs] at hFree
      rw [List.dropWhile_cons_of_neg (by rw [hWord]; exact hIs), List.head?_cons, Option.map_some]
      intro hColon
      cases p with
      | atom t => exact hIs rfl
      | quoted t => exact hIs rfl
      | special c =>
        apply hFree
        exact congrArg AddrPiece.special (Option.some.inj hColon)

/- An old-style address ends with its pieces. -/
theorem oldStyleLength_pieces {after : Bool} (hOk : ∀ p, p ∈ ps → p.Ok) (hPlain : Plain ps)
    (hApart : WordsApart after ps) (rest : List Byte) (hMore : EndsEntry more) :
    oldStyleLength after (pieceTokens ps rest ++ more) = (pieceTokens ps rest).length := by
  induction ps generalizing after with
  | nil =>
    cases more with
    | nil => rfl
    | cons comma more =>
      have hComma := hMore comma rfl
      rw [pieceTokens, List.nil_append, oldStyleLength, if_pos (Or.inl hComma)]
      rfl
  | cons p ps ih =>
    have hP := hOk p List.mem_cons_self
    have hTail := ih (fun q hQ => hOk q (List.mem_cons_of_mem p hQ))
      (fun q hQ => hPlain q (List.mem_cons_of_mem p hQ))
      hApart.2
    have hEnds := plain_tokenAt (hPlain p List.mem_cons_self) (piecesText ps ++ rest)
    have hOpen := (token_tokenAt hP (piecesText ps ++ rest)).1
    have hWord := isWordToken_tokenAt hP (piecesText ps ++ rest)
    unfold isWordToken at hWord
    rw [pieceTokens, List.cons_append, oldStyleLength,
      if_neg (fun hEither => hEither.elim hEnds.1 hEnds.2),
      if_neg hOpen, List.length_cons]
    by_cases hIs : p.isWord = true
    · have hAfter : after = false := by
        have hHere := hApart.1
        rw [hIs, Bool.and_true] at hHere
        exact hHere
      rw [hIs] at hWord hTail
      rw [Bool.or_eq_true, decide_eq_true_eq, decide_eq_true_eq] at hWord
      rw [if_pos hWord, hAfter, if_neg Bool.false_ne_true, hTail]
    · rw [Bool.not_eq_true] at hIs
      rw [hIs] at hWord hTail
      rw [Bool.or_eq_false_iff, decide_eq_false_iff_not, decide_eq_false_iff_not] at hWord
      rw [if_neg (fun hEither => hEither.elim hWord.1 hWord.2), hTail]

/- An address without brackets, up to the next comma. -/
theorem parseaddr_bare (hSome : ps ≠ []) (hOk : ∀ p, p ∈ ps → p.Ok) (hPlain : Plain ps)
    (hFree : GroupFree ps) (hApart : WordsApart false ps) (rest : List Byte)
    (hMore : EndsEntry more) :
    parseaddr (pieceTokens ps rest ++ more) = ⟨pieceTokens ps rest, []⟩ :: parseaddr more := by
  have hGroup : ¬ ((pieceTokens ps rest ++ more).dropWhile
      (fun t => t.token = 0 || t.token = chr '"')).head?.map (·.token) = some (chr ':') :=
    groupFree_tokens hOk hFree rest hMore
  have hLength := oldStyleLength_pieces hOk hPlain hApart rest hMore
  have hEnds : ∀ t, t ∈ pieceTokens ps rest → t.token ≠ chr ',' ∧ t.token ≠ chr ';' :=
    forall_pieceTokens (fun p hMem after => plain_tokenAt (hPlain p hMem) after) rest
  have hOther : ∀ t, t ∈ pieceTokens ps rest →
      t.token ≠ chr '(' ∧ t.token ≠ chr '<' ∧ t.token ≠ chr '>' :=
    forall_pieceTokens (fun p hMem after => token_tokenAt (hOk p hMem) after) rest
  have hBefore : (pieceTokens ps rest ++ more).takeWhile
      (fun t => t.token != chr ';' && t.token != chr ',' &&
        t.token != chr '<') = pieceTokens ps rest := by
    apply takeWhile_run
    · intro t hMem
      simp [hEnds t hMem, hOther t hMem]
    · intro t hHead
      rw [hMore t hHead]
      decide
  have hNoRoute : ¬ more.head?.map (·.token) = some (chr '<') := by
    cases more with
    | nil =>
      intro hRoute
      cases hRoute
    | cons comma more =>
      rw [List.head?_cons, Option.map_some, hMore comma rfl]
      decide
  have hKept : (pieceTokens ps rest).filter
      (fun t => t.token != chr '(') = pieceTokens ps rest := by
    rw [List.filter_eq_self]
    intro t hMem
    simp [(hOther t hMem).1]
  have hNoComment : (pieceTokens ps rest).filter (fun t => t.token = chr '(') = [] := by
    rw [List.filter_eq_nil_iff]
    intro t hMem
    simp [(hOther t hMem).1]
  cases hAll : pieceTokens ps rest with
  | nil =>
    cases ps with
    | nil => exact absurd rfl hSome
    | cons p ps => cases hAll
  | cons first others =>
    have hFirst := hEnds first (by
      rw [hAll]
      exact List.mem_cons_self)
    rw [hAll] at hGroup hLength hBefore hKept hNoComment
    rw [List.cons_append] at hGroup hLength hBefore ⊢
    unfold parseaddr
    rw [List.length_cons, parseaddrLoop]
    dsimp only
    rw [drop_takeWhile_length, if_neg hGroup, if_neg hFirst.1, if_neg hFirst.2, hBefore, hLength,
      ← List.cons_append, List.drop_left, if_neg hNoRoute,
      if_neg (by simp), List.take_left, hKept, hNoComment,
      parseaddrLoop_enough (by
        rw [List.length_append]
        exact Nat.le_add_left _ _)]
    rfl

/- How an address is written in a list. -/
inductive ListEntry where
  | named (name : List Byte) (ps : List AddrPiece)
  | bracket (ps : List AddrPiece)
  | bare (ps : List AddrPiece)

namespace ListEntry

def pieces : ListEntry → List AddrPiece
  | .named _ ps => ps
  | .bracket ps => ps
  | .bare ps => ps

/- The address in brackets, with what follows it. -/
def routeText (ps : List AddrPiece) (rest : List Byte) : List Byte :=
  chr '<' :: (piecesText ps ++ chr '>' :: rest)

/- The text of an entry with `rest` behind it. -/
def textThen (rest : List Byte) : ListEntry → List Byte
  | .named name ps => chr '"' :: (name ++ chr '"' :: (chr ' ' :: routeText ps rest))
  | .bracket ps => routeText ps rest
  | .bare ps => piecesText ps ++ rest

def text (e : ListEntry) : List Byte :=
  e.textThen []

theorem textThen_eq (e : ListEntry) (rest : List Byte) : e.textThen rest = e.text ++ rest := by
  cases e <;> simp [textThen, text, routeText]

/- An entry that is read back as it was written. -/
structure Ok (e : ListEntry) : Prop where
  pieces_ok : ∀ p, p ∈ e.pieces → p.Ok
  apart : WordsApart false e.pieces
  name_ok : ∀ name ps, e = .named name ps → chr '"' ∉ name ∧ chr '\\' ∉ name
  bare_ok : ∀ ps, e = .bare ps → ps ≠ [] ∧ Plain ps ∧ GroupFree ps

/- The tokens between the brackets; a null address has one. -/
def inside (ps : List AddrPiece) (rest : List Byte) : List Token :=
  if ps = [] then [⟨0, [], 0⟩] else pieceTokens ps (chr '>' :: rest)

/- The tokens of a quoted name. -/
def nameToken (name after : List Byte) : Token :=
  ⟨chr '"', name ++ chr '"' :: after, name.length⟩

/- What an entry is parsed into. -/
def addr (rest : List Byte) : ListEntry → Addr
  | .named name ps =>
    ⟨inside ps rest, [nameToken name (chr ' ' :: routeText ps rest)]⟩
  | .bracket ps => ⟨inside ps rest, []⟩
  | .bare ps => ⟨pieceTokens ps rest, []⟩

/- The tokens of an address in brackets. -/
def routeTokens (ps : List AddrPiece) (rest : List Byte) : List Token :=
  ⟨chr '<', routeText ps rest, 1⟩ :: (inside ps rest ++ [⟨chr '>', chr '>' :: rest, 1⟩])

/- The tokens of an entry. -/
def tokens (rest : List Byte) : ListEntry → List Token
  | .named name ps => nameToken name (chr ' ' :: routeText ps rest) :: routeTokens ps rest
  | .bracket ps => routeTokens ps rest
  | .bare ps => pieceTokens ps rest

end ListEntry

/- The text of a piece begins with another character. -/
theorem head_piecesText (hOk : ∀ p, p ∈ ps → p.Ok) (hSome : ps ≠ []) (rest : List Byte) :
    (piecesText ps ++ rest).head? ≠ some (chr '>') := by
  cases ps with
  | nil => exact absurd rfl hSome
  | cons p ps =>
    have hP := hOk p List.mem_cons_self
    intro hHead
    cases p with
    | atom t =>
      cases t with
      | nil => exact hP.1 rfl
      | cons c t =>
        have hAtom := hP.2 c List.mem_cons_self
        have hGt : c = chr '>' := Option.some.inj hHead
        rw [hGt] at hAtom
        exact absurd hAtom (by decide)
    | quoted t => exact absurd (Option.some.inj hHead) (by decide)
    | special c =>
      rcases inPiece_classes c hP with ⟨_, _, _, _, _, _, hGt, _⟩
      exact hGt (Option.some.inj hHead)

theorem stops_close (rest : List Byte) : Stops (chr '>' :: rest) := by
  intro b hHead
  cases hHead
  decide

/- The tokens of an address in brackets. -/
theorem scanText_route (hOk : ∀ p, p ∈ ps → p.Ok) (hApart : WordsApart false ps)
    (rest : List Byte) :
    scanText false (ListEntry.routeText ps rest) =
      ListEntry.routeTokens ps rest ++ scanText false rest := by
  unfold ListEntry.routeTokens ListEntry.routeText
  rw [scanText_open, List.cons_append, List.append_assoc]
  congr 1
  by_cases hNil : ps = []
  · subst hNil
    have hFake : (piecesText [] ++ chr '>' :: rest).head? = some (chr '>') := by rfl
    unfold ListEntry.inside
    rw [if_pos hFake, if_pos rfl]
    exact congrArg _ (scanText_close rest)
  · unfold ListEntry.inside
    rw [if_neg (head_piecesText hOk hNil _), if_neg hNil, List.nil_append,
      scanText_pieces hOk hApart true (stops_close rest), scanText_close]
    rfl

variable {e : ListEntry}

/- The tokens of an entry, whatever is behind it. -/
theorem scanText_entry (hOk : e.Ok) {rest : List Byte} (hRest : Stops rest) :
    scanText false (e.textThen rest) = e.tokens rest ++ scanText false rest := by
  cases e with
  | named name ps =>
    have hName := hOk.name_ok name ps rfl
    unfold ListEntry.textThen ListEntry.tokens
    rw [scanText_quoted hName.1 hName.2, scanText_space (by decide), scanText_route
        (show ∀ p, p ∈ ps → p.Ok from hOk.pieces_ok)
        hOk.apart]
    rfl
  | bracket ps => exact scanText_route hOk.pieces_ok hOk.apart rest
  | bare ps => exact scanText_pieces hOk.pieces_ok hOk.apart false hRest

/- No token between the brackets closes them. -/
theorem inside_open (hOk : ∀ p, p ∈ ps → p.Ok) (rest : List Byte) :
    ∀ t, t ∈ ListEntry.inside ps rest → (t.token != chr '>') = true := by
  unfold ListEntry.inside
  by_cases hNil : ps = []
  · rw [if_pos hNil]
    intro t hMem
    rw [List.mem_singleton] at hMem
    subst hMem
    decide
  · rw [if_neg hNil]
    apply forall_pieceTokens
    intro p hMem after
    have hGt := (token_tokenAt (hOk p hMem) after).2.2
    simp [hGt]

/- The address that an entry is parsed into. -/
theorem parseaddr_entry (hOk : e.Ok) (rest : List Byte) (hMore : EndsEntry more) :
    parseaddr (e.tokens rest ++ more) = e.addr rest :: parseaddr more := by
  cases e with
  | named name ps =>
    have hQuoted : ∀ t, t ∈ [ListEntry.nameToken name (chr ' ' :: ListEntry.routeText ps rest)] →
        isWordToken t = true := by
      intro t hMem
      rw [List.mem_singleton] at hMem
      subst hMem
      rfl
    have hRead := parseaddr_bracket ⟨chr '<', ListEntry.routeText ps rest, 1⟩
      ⟨chr '>', chr '>' :: rest, 1⟩ more
      hQuoted rfl (inside_open hOk.pieces_ok rest) rfl
    have hRoute : routeName [ListEntry.nameToken name (chr ' ' :: ListEntry.routeText ps rest)] =
          [ListEntry.nameToken name (chr ' ' :: ListEntry.routeText ps rest)] := by
      simp [routeName, quoteTokens, ListEntry.nameToken]
    rw [hRoute] at hRead
    unfold ListEntry.tokens ListEntry.routeTokens
    simp only [List.cons_append, List.append_assoc, List.nil_append] at hRead ⊢
    exact hRead
  | bracket ps =>
    have hNone : ∀ t : Token, t ∈ [] → isWordToken t = true := by
      intro t hMem
      cases hMem
    have hRead := parseaddr_bracket ⟨chr '<', ListEntry.routeText ps rest, 1⟩
      ⟨chr '>', chr '>' :: rest, 1⟩ more hNone rfl
      (inside_open hOk.pieces_ok rest) rfl
    unfold ListEntry.tokens ListEntry.routeTokens
    simp only [List.cons_append, List.append_assoc, List.nil_append] at hRead ⊢
    exact hRead
  | bare ps =>
    rcases hOk.bare_ok ps rfl with ⟨hSome, hPlain, hFree⟩
    exact parseaddr_bare hSome hOk.pieces_ok hPlain hFree hOk.apart rest hMore

------------
-- Printing Entries
------------

/- The address of an entry, printed. -/
theorem tokPrint_inside (hOk : ∀ p, p ∈ ps → p.Ok) (hApart : WordsApart false ps)
    (rest : List Byte) :
    rfc822tokPrint (ListEntry.inside ps rest) = piecesText ps := by
  unfold ListEntry.inside
  by_cases hNil : ps = []
  · subst hNil
    rfl
  · rw [if_neg hNil]
    exact tokPrint_pieceTokens hOk hApart _

theorem tokPrint_entry (hOk : e.Ok) (rest : List Byte) : rfc822tokPrint (e.addr rest).tokens =
      piecesText e.pieces := by
  cases e with
  | named name ps => exact tokPrint_inside hOk.pieces_ok hOk.apart rest
  | bracket ps => exact tokPrint_inside hOk.pieces_ok hOk.apart rest
  | bare ps => exact tokPrint_pieceTokens hOk.pieces_ok hOk.apart rest

theorem pieceTokens_ne_nil (hSome : ps ≠ []) (rest : List Byte) : pieceTokens ps rest ≠ [] := by
  cases ps with
  | nil => exact absurd rfl hSome
  | cons p ps => exact List.cons_ne_nil _ _

theorem inside_ne_nil (ps : List AddrPiece) (rest : List Byte) : ListEntry.inside ps rest ≠ [] := by
  unfold ListEntry.inside
  by_cases hNil : ps = []
  · rw [if_pos hNil]
    exact List.cons_ne_nil _ _
  · rw [if_neg hNil]
    exact pieceTokens_ne_nil hNil _

/- An entry has tokens. -/
theorem addr_tokens_ne_nil (hOk : e.Ok) (rest : List Byte) : (e.addr rest).tokens ≠ [] := by
  cases e with
  | named name ps => exact inside_ne_nil ps rest
  | bracket ps => exact inside_ne_nil ps rest
  | bare ps => exact pieceTokens_ne_nil (hOk.bare_ok ps rfl).1 rest

/- A quoted string without escapes. -/
theorem unquote_plain {q : List Byte} (hBack : chr '\\' ∉ q) : unquote q = q := by
  induction q with
  | nil => rfl
  | cons c q ih =>
    rw [List.mem_cons, not_or] at hBack
    rw [unquote.eq_def]
    dsimp only
    rw [if_neg (fun hEq => hBack.1 hEq.symm), ih hBack.2]

/- Words that are apart need no brackets. -/
theorem needsBraces_pieces {after : Bool} (hOk : ∀ p, p ∈ ps → p.Ok)
    (hApart : WordsApart after ps) (rest : List Byte) :
    needsBraces (pieceTokens ps rest) = false := by
  induction ps generalizing after with
  | nil => rfl
  | cons p ps ih =>
    have hTail := ih (fun q hQ => hOk q (List.mem_cons_of_mem p hQ)) hApart.2
    cases ps with
    | nil => rfl
    | cons q ps =>
      have hP := isAtom_tokenAt (hOk p List.mem_cons_self) (piecesText (q :: ps) ++ rest)
      have hQ := isAtom_tokenAt (hOk q (List.mem_cons_of_mem p List.mem_cons_self))
        (piecesText ps ++ rest)
      rw [pieceTokens] at hTail
      rw [pieceTokens, pieceTokens, needsBraces, hTail, hP, hQ, hApart.2.1]
      rfl

namespace ListEntry

/- How an entry is printed: brackets need a name. -/
def reprinted : ListEntry → ListEntry
  | .named name ps => .named name ps
  | .bracket ps => .bare ps
  | .bare ps => .bare ps

/- The name of an entry, if it has one. -/
def name? : ListEntry → Option (List Byte)
  | .named name _ => some name
  | .bracket _ => none
  | .bare _ => none

end ListEntry

/- A name in quotes and an address in brackets, printed. -/
theorem printAddr_named {a : Addr} {t : Token} (hTokens : a.tokens ≠ [])
    (hName : a.name = [t]) (hQuoted : t.token = chr '"') :
    printAddr a = printToken t ++ bytes " <" ++ rfc822tokPrint a.tokens ++ [chr '>'] := by
  have hHead : ¬ a.name.head?.map (·.token) = some (chr '(') := by
    rw [hName, List.head?_cons, Option.map_some, hQuoted]
    decide
  have hSome : a.name ≠ [] := by
    rw [hName]
    exact List.cons_ne_nil _ _
  unfold printAddr
  rw [if_neg hTokens, if_neg hHead, if_pos hSome, hName]
  simp [rfc822tokPrint, tokPrint, bytes]

/- An address without a name, printed. -/
theorem printAddr_nameless {a : Addr} (hTokens : a.tokens ≠ []) (hName : a.name = [])
    (hBraces : needsBraces a.tokens = false) : printAddr a = rfc822tokPrint a.tokens := by
  unfold printAddr
  rw [if_neg hTokens, hName]
  simp [hBraces]

/- An entry is printed as it was, or without its brackets. -/
theorem printAddr_entry (hOk : e.Ok) (hAgain : e.reprinted.Ok) (rest : List Byte) :
    printAddr (e.addr rest) = e.reprinted.text := by
  have hTokens := addr_tokens_ne_nil hOk rest
  have hPrint := tokPrint_entry hOk rest
  cases e with
  | named name ps =>
    have hName := hOk.name_ok name ps rfl
    have hQuoted : printToken (ListEntry.nameToken name (chr ' ' :: ListEntry.routeText ps rest)) =
          chr '"' :: (name ++ [chr '"']) :=
      printToken_tokenAt (p := .quoted name) hName _
    rw [printAddr_named hTokens rfl rfl, hPrint, hQuoted]
    simp [ListEntry.reprinted, ListEntry.text, ListEntry.textThen, ListEntry.routeText,
      ListEntry.pieces, bytes]
  | bracket ps =>
    have hSome := (hAgain.bare_ok ps rfl).1
    rw [printAddr_nameless hTokens rfl, hPrint]
    · simp [ListEntry.reprinted, ListEntry.text, ListEntry.textThen, ListEntry.pieces]
    · simp only [ListEntry.addr, ListEntry.inside]
      rw [if_neg hSome]
      exact needsBraces_pieces hOk.pieces_ok hOk.apart _
  | bare ps =>
    rw [printAddr_nameless hTokens rfl, hPrint]
    · simp [ListEntry.reprinted, ListEntry.text, ListEntry.textThen, ListEntry.pieces]
    · exact needsBraces_pieces hOk.pieces_ok hOk.apart _

/- The name of an entry, as it is read back. -/
theorem rfc822Getname_entry {name : List Byte} (hOk : (ListEntry.named name ps).Ok)
    (hLine : nl ∉ name) (rest : List Byte) :
    rfc822Getname ((ListEntry.named name ps).addr rest) = name := by
  have hName := hOk.name_ok name ps rfl
  have hTokens := addr_tokens_ne_nil hOk rest
  have hToks : nameToks false ((ListEntry.named name ps).addr rest).name = name := by
    simp [ListEntry.addr, nameToks, ListEntry.nameToken, Token.text, unquote_plain hName.2]
  have hKeep : name.filter (fun c => c ≠ nl ∧ c ≠ chr '"') = name := by
    rw [List.filter_eq_self]
    intro c hMem
    apply decide_eq_true
    constructor
    · intro hNl
      exact hLine (hNl ▸ hMem)
    · intro hQuote
      exact hName.1 (hQuote ▸ hMem)
  have hSome : ((ListEntry.named name ps).addr rest).name ≠ [] := List.cons_ne_nil _ _
  unfold rfc822Getname prname
  rw [if_neg hTokens]
  unfold prnameOrlist
  rw [if_pos hSome, hToks, List.filter_append, hKeep]
  simp

/- The address of an entry, as it is read back. -/
theorem rfc822Getaddr_entry (hOk : e.Ok) (hLine : nl ∉ piecesText e.pieces)
    (rest : List Byte) : rfc822Getaddr (e.addr rest) = piecesText e.pieces := by
  unfold rfc822Getaddr
  rw [tokPrint_entry hOk, List.filter_eq_self]
  exact not_separator hLine

end Wmail.Rfc822
