import Wmail.Core.Runs
import Wmail.Rfc822.Address

/-
  Addresses whose tokens print back.

  The text of an address is a list of pieces: atoms, quoted
  strings and special characters.  When no two words stand
  next to each other, its tokens print as the text that they
  were read from.

  Key theorems include:
    * `scanText_pieces`
    * `tokPrint_pieceTokens`
-/

namespace Wmail.Rfc822

/- `tokenize` on a text, inside or outside of brackets. -/
def scanText (inbracket : Bool) (s : List Byte) : List Token :=
  tokenizeLoop s.length inbracket s

/- The characters that `tokenize` tells apart. -/
theorem tokenize_classes : ∀ c : Byte, (isspace c || c = chr '(' || c = chr '"' ||
        (c = chr '\\' || c = chr ')') || specials.contains c ||
          isAtomChar c) = true := by
  have hEnds : atomEnds.all (fun c => isspace c ||
      c = chr '(' || c = chr '"' || (c = chr '\\' || c = chr ')') ||
          specials.contains c) = true := by
    decide
  intro c
  cases hEnd : atomEnds.contains c with
  | true =>
    have hThis := List.all_eq_true.mp hEnds c (List.contains_iff_mem.mp hEnd)
    beta_reduce at hThis
    rw [hThis]
    rfl
  | false =>
    unfold isAtomChar
    rw [hEnd]
    cases isspace c with
    | true => rfl
    | false => exact Bool.or_true _

/- A character that begins an atom is part of it. -/
theorem isAtomChar_of_rest {c : Byte} (hSpace : ¬ isspace c = true) (hOpen : c ≠ chr '(')
    (hQuote : c ≠ chr '"') (hSkip : ¬ (c = chr '\\' ∨ c = chr ')'))
    (hSpecial : ¬ specials.contains c = true) : isAtomChar c = true := by
  have hClasses := tokenize_classes c
  simp only [Bool.or_eq_true, decide_eq_true_eq] at hClasses
  rcases hClasses with
    ((((hC | hC) | hC) | hC) | hC) | hC
  · exact absurd hC hSpace
  · exact absurd hC hOpen
  · exact absurd hC hQuote
  · exact absurd hC hSkip
  · exact absurd hC hSpecial
  · exact hC

theorem scanComment_length (rest : List Byte) : 0 < (scanComment 0 (chr '(' :: rest)).1 := by
  rw [scanComment.eq_def]
  dsimp only
  rw [if_pos rfl]
  exact Nat.succ_pos _

/- The rounds that are left do not matter when they suffice. -/
theorem tokenizeLoop_fuel (n : Nat) : ∀ (s : List Byte) (f g : Nat) (inbracket : Bool),
      s.length ≤ n → s.length ≤ f → s.length ≤ g →
      tokenizeLoop f inbracket s = tokenizeLoop g inbracket s := by
  induction n with
  | zero =>
    intro s f g inbracket hLength _ _
    have hNil : s = [] := List.eq_nil_of_length_eq_zero (Nat.le_zero.mp hLength)
    subst hNil
    cases f <;> cases g <;> rfl
  | succ n ih =>
    intro s f g inbracket hLength hF hG
    cases s with
    | nil => cases f <;> cases g <;> rfl
    | cons c rest =>
      rw [List.length_cons] at hLength hF hG
      obtain ⟨f, rfl⟩ : ∃ k, f = k + 1 := ⟨f - 1, by omega⟩
      obtain ⟨g, rfl⟩ : ∃ k, g = k + 1 := ⟨g - 1, by omega⟩
      have hSame : ∀ (later : List Byte) (b : Bool), later.length ≤ rest.length →
          tokenizeLoop f b later = tokenizeLoop g b later := by
        intro later b hLater
        exact ih later f g b (by omega) (by omega) (by omega)
      have hDrop : ∀ len, 0 < len → ((c :: rest).drop len).length ≤ rest.length := by
        intro len hPos
        rw [List.length_drop, List.length_cons]
        omega
      rw [tokenizeLoop, tokenizeLoop]
      by_cases hSpace : isspace c = true
      · rw [if_pos hSpace, if_pos hSpace]
        exact hSame rest _ (Nat.le_refl _)
      rw [if_neg hSpace, if_neg hSpace]
      by_cases hOpen : c = chr '('
      · rw [if_pos hOpen, if_pos hOpen]
        have hPos := scanComment_length rest
        rw [← hOpen] at hPos
        dsimp only
        rw [hSame _ _ (hDrop _ hPos)]
      rw [if_neg hOpen, if_neg hOpen]
      by_cases hQuote : c = chr '"'
      · rw [if_pos hQuote, if_pos hQuote]
        dsimp only
        rw [hSame (rest.drop ((scanQuoted rest).1 + 1)) _ (by
          rw [List.length_drop]
          omega)]
      rw [if_neg hQuote, if_neg hQuote]
      by_cases hSkip : c = chr '\\' ∨ c = chr ')'
      · rw [if_pos hSkip, if_pos hSkip]
        exact hSame rest _ (Nat.le_refl _)
      rw [if_neg hSkip, if_neg hSkip]
      by_cases hSpecial : specials.contains c = true
      · rw [if_pos hSpecial, if_pos hSpecial]
        dsimp only
        rw [hSame rest _ (Nat.le_refl _), hSame rest _ (Nat.le_refl _)]
      rw [if_neg hSpecial, if_neg hSpecial]
      have hAtom := isAtomChar_of_rest hSpace hOpen hQuote hSkip hSpecial
      dsimp only
      rw [hSame _ _ (hDrop _ (by
        rw [List.takeWhile_cons_of_pos hAtom]
        exact Nat.succ_pos _))]

theorem tokenizeLoop_enough {s : List Byte} {fuel : Nat} (hFuel : s.length ≤ fuel)
    (inbracket : Bool) : tokenizeLoop fuel inbracket s = scanText inbracket s := by
  exact tokenizeLoop_fuel s.length s fuel s.length inbracket (Nat.le_refl _) hFuel (Nat.le_refl _)

/- A text without zero bytes is scanned as a whole. -/
theorem tokenize_eq {s : List Byte} (hText : 0 ∉ s) : tokenize s = scanText false s := by
  unfold tokenize
  rw [takeWhile_unclosed hText]
  rfl

@[simp] theorem scanText_nil (inbracket : Bool) : scanText inbracket [] = [] := by
  rfl

theorem scanText_space {c : Byte} (hSpace : isspace c = true) (inbracket : Bool)
    (rest : List Byte) : scanText inbracket (c :: rest) = scanText inbracket rest := by
  unfold scanText
  rw [List.length_cons, tokenizeLoop, if_pos hSpace]

theorem scanText_spaces {gap : List Byte} (hGap : ∀ b, b ∈ gap → isspace b = true)
    (inbracket : Bool) (rest : List Byte) :
    scanText inbracket (gap ++ rest) = scanText inbracket rest := by
  induction gap with
  | nil => rfl
  | cons c gap ih =>
    rw [List.cons_append, scanText_space (hGap c List.mem_cons_self)]
    exact ih (fun b hMem => hGap b (List.mem_cons_of_mem c hMem))

/- A special character other than a bracket. -/
def inPiece (c : Byte) : Bool :=
  specials.contains c && !(c = chr '<' || c = chr '>')

theorem inPiece_classes : ∀ c : Byte, inPiece c = true →
      isspace c = false ∧ c ≠ chr '(' ∧ c ≠ chr '"' ∧
        ¬ (c = chr '\\' ∨ c = chr ')') ∧ specials.contains c = true ∧ c ≠ chr '<' ∧
            c ≠ chr '>' ∧ isAtomChar c = false ∧ c ≠ 0 := by
  have hAll : specials.all (fun c => !inPiece c ||
      decide (isspace c = false ∧ c ≠ chr '(' ∧ c ≠ chr '"' ∧
        ¬ (c = chr '\\' ∨ c = chr ')') ∧ specials.contains c = true ∧ c ≠ chr '<' ∧
            c ≠ chr '>' ∧ isAtomChar c = false ∧ c ≠ 0)) = true := by
    decide
  intro c hPiece
  have hSpecial := (Bool.and_eq_true_iff.mp hPiece).1
  have hThis := List.all_eq_true.mp hAll c (List.contains_iff_mem.mp hSpecial)
  rw [hPiece] at hThis
  exact of_decide_eq_true hThis

theorem scanText_special {c : Byte} (hSpecial : inPiece c = true) (inbracket : Bool)
    (rest : List Byte) :
    scanText inbracket (c :: rest) = ⟨c, c :: rest, 1⟩ :: scanText inbracket rest := by
  rcases inPiece_classes c hSpecial with ⟨hSpace, hOpen, hQuote, hSkip, hIn, hLt, hGt, _⟩
  have hPlain : (c = chr '<' && inbracket || c = chr '>' && !inbracket) = false := by
    simp [hLt, hGt]
  unfold scanText
  rw [List.length_cons, tokenizeLoop, if_neg (Bool.eq_false_iff.mp hSpace), if_neg hOpen,
    if_neg hQuote, if_neg hSkip, if_pos hIn, if_neg (Bool.eq_false_iff.mp hPlain)]
  dsimp only
  rw [if_neg hLt, if_neg hGt, if_neg (fun hBoth => hLt hBoth.1), List.nil_append]

/- The token of an opening bracket. -/
theorem scanText_open (rest : List Byte) :
    scanText false (chr '<' :: rest) = ⟨chr '<', chr '<' :: rest, 1⟩ ::
        ((if rest.head? = some (chr '>') then
            [⟨0, [], 0⟩]
          else
            []) ++ scanText true rest) := by
  unfold scanText
  rw [List.length_cons, tokenizeLoop, if_neg (by decide), if_neg (by decide), if_neg (by decide),
    if_neg (by decide), if_pos (by decide),
    if_neg (by decide)]
  dsimp only
  rw [if_pos rfl]
  simp only [true_and]

/- The token of a closing bracket. -/
theorem scanText_close (rest : List Byte) :
    scanText true (chr '>' :: rest) = ⟨chr '>', chr '>' :: rest, 1⟩ :: scanText false rest := by
  have hOther : ¬ chr '>' = chr '<' := by decide
  have hFake : ¬ (chr '>' = chr '<' ∧ rest.head? = some (chr '>')) := by
    intro hBoth
    exact hOther hBoth.1
  unfold scanText
  rw [List.length_cons, tokenizeLoop, if_neg (by decide), if_neg (by decide), if_neg (by decide),
    if_neg (by decide), if_pos (by decide),
    if_neg (by decide)]
  dsimp only
  rw [if_neg hFake, if_neg hOther, if_pos rfl, List.nil_append]

theorem scanQuoted_closed {q : List Byte} (hQuote : chr '"' ∉ q) (hBack : chr '\\' ∉ q)
    (rest : List Byte) : scanQuoted (q ++ chr '"' :: rest) = (q.length, true) := by
  induction q with
  | nil =>
    rw [List.nil_append, scanQuoted.eq_def]
    dsimp only
    rw [if_pos rfl]
    rfl
  | cons c q ih =>
    rw [List.mem_cons, not_or] at hQuote hBack
    rw [List.cons_append, scanQuoted.eq_def]
    dsimp only
    rw [if_neg (fun hEq => hQuote.1 hEq.symm), if_neg (fun hEq => hBack.1 hEq.symm),
      ih hQuote.2 hBack.2]
    rfl

/- The token of a quoted string. -/
theorem scanText_quoted {q : List Byte} (hQuote : chr '"' ∉ q) (hBack : chr '\\' ∉ q)
    (inbracket : Bool) (rest : List Byte) :
    scanText inbracket (chr '"' :: (q ++ chr '"' :: rest)) =
      ⟨chr '"', q ++ chr '"' :: rest, q.length⟩ :: scanText inbracket rest := by
  have hAfter : (q ++ chr '"' :: rest).drop (q.length + 1) = rest := by
    rw [← List.drop_drop, List.drop_left]
    rfl
  unfold scanText
  rw [List.length_cons, tokenizeLoop, if_neg (by decide), if_neg (by decide), if_pos rfl]
  rw [scanQuoted_closed hQuote hBack]
  dsimp only
  rw [if_pos rfl, hAfter, tokenizeLoop_enough]
  · rfl
  · rw [List.length_append, List.length_cons]
    omega

theorem isAtomChar_classes : ∀ c : Byte, isAtomChar c = true →
      isspace c = false ∧ c ≠ chr '(' ∧ c ≠ chr '"' ∧
        ¬ (c = chr '\\' ∨ c = chr ')') ∧ specials.contains c = false := by
  have hEnds : ([chr '(', chr '"', chr '\\', chr ')'] ++
      specials).all atomEnds.contains = true := by
    decide
  intro c hAtom
  unfold isAtomChar at hAtom
  rw [Bool.and_eq_true, Bool.not_eq_true', Bool.not_eq_true'] at hAtom
  have hOut : ∀ q, q ∈ [chr '(', chr '"', chr '\\', chr ')'] ++ specials → c ≠ q := by
    intro q hMem hEq
    rw [hEq, List.all_eq_true.mp hEnds q hMem] at hAtom
    cases hAtom.2
  refine ⟨hAtom.1, hOut _ (by decide), hOut _ (by decide), ?_, ?_⟩
  · rintro (hSlash | hClose)
    · exact hOut _ (by decide) hSlash
    · exact hOut _ (by decide) hClose
  · rw [← Bool.not_eq_true, List.contains_iff_mem]
    intro hMem
    exact hOut c (List.mem_append_right _ hMem) rfl

/- The token of an atom. -/
theorem scanText_atom {atom rest : List Byte} (hAtom : ∀ b, b ∈ atom → isAtomChar b = true)
    (hSome : atom ≠ []) (hRest : ∀ b, rest.head? = some b → isAtomChar b = false)
    (inbracket : Bool) :
    scanText inbracket (atom ++ rest) = ⟨0, atom ++ rest, atom.length⟩ ::
        scanText inbracket rest := by
  cases atom with
  | nil => exact absurd rfl hSome
  | cons c more =>
    rcases isAtomChar_classes c (hAtom c List.mem_cons_self)
      with ⟨hSpace, hOpen, hQuote, hSkip, hIn⟩
    have hRun : (c :: (more ++ rest)).takeWhile isAtomChar = c :: more := by
      rw [← List.cons_append]
      exact takeWhile_run hAtom hRest
    have hAfter : (c :: (more ++ rest)).drop (c :: more).length = rest := by
      rw [← List.cons_append, List.drop_left]
    unfold scanText
    rw [List.cons_append, List.length_cons, tokenizeLoop, if_neg (Bool.eq_false_iff.mp hSpace),
      if_neg hOpen, if_neg hQuote, if_neg hSkip, if_neg (Bool.eq_false_iff.mp hIn)]
    dsimp only
    rw [hRun, hAfter, tokenizeLoop_enough]
    · rfl
    · rw [List.length_append]
      omega

------------
-- Pieces
------------

/- A part of an address that is read as one token. -/
inductive AddrPiece where
  | atom (text : List Byte)
  | quoted (text : List Byte)
  | special (c : Byte)

namespace AddrPiece

def text : AddrPiece → List Byte
  | .atom t => t
  | .quoted t => chr '"' :: (t ++ [chr '"'])
  | .special c => [c]

/- Two words in a row are printed with a blank between them. -/
def isWord : AddrPiece → Bool
  | .atom _ => true
  | .quoted _ => true
  | .special _ => false

def Ok : AddrPiece → Prop
  | .atom t => t ≠ [] ∧ ∀ b, b ∈ t → isAtomChar b = true
  | .quoted t => chr '"' ∉ t ∧ chr '\\' ∉ t
  | .special c => inPiece c = true

/- The token of a piece, with what follows it in the text. -/
def tokenAt (after : List Byte) : AddrPiece → Token
  | .atom t => ⟨0, t ++ after, t.length⟩
  | .quoted t => ⟨chr '"', t ++ chr '"' :: after, t.length⟩
  | .special c => ⟨c, c :: after, 1⟩

end AddrPiece

def piecesText (ps : List AddrPiece) : List Byte :=
  ps.flatMap AddrPiece.text

/- The tokens of pieces with `rest` behind them. -/
def pieceTokens (ps : List AddrPiece) (rest : List Byte) : List Token :=
  match ps with
  | [] => []
  | p :: ps => p.tokenAt (piecesText ps ++ rest) :: pieceTokens ps rest

/- No two words in a row, the first one after a word or not. -/
def WordsApart (after : Bool) : List AddrPiece → Prop
  | [] => True
  | p :: ps => (after && p.isWord) = false ∧ WordsApart p.isWord ps

/- What ends an atom: nothing, or a character outside of it. -/
def Stops (rest : List Byte) : Prop :=
  ∀ b, rest.head? = some b → isAtomChar b = false

variable {ps : List AddrPiece}

/- A piece that is not a word ends an atom. -/
theorem stops_pieces {rest : List Byte} (hOk : ∀ p, p ∈ ps → p.Ok)
    (hApart : WordsApart true ps) (hRest : Stops rest) : Stops (piecesText ps ++ rest) := by
  cases ps with
  | nil => exact hRest
  | cons p ps =>
    have hP := hOk p List.mem_cons_self
    cases p with
    | atom t => cases hApart.1
    | quoted t => cases hApart.1
    | special c =>
      intro b hHead
      cases hHead
      rcases inPiece_classes c hP with ⟨_, _, _, _, _, _, _, hOut, _⟩
      exact hOut

/- The tokens of an address, whatever is behind it. -/
theorem scanText_pieces {after : Bool} (hOk : ∀ p, p ∈ ps → p.Ok)
    (hApart : WordsApart after ps) (inbracket : Bool) {rest : List Byte} (hRest : Stops rest) :
    scanText inbracket (piecesText ps ++ rest) =
      pieceTokens ps rest ++ scanText inbracket rest := by
  induction ps generalizing after with
  | nil => rfl
  | cons p ps ih =>
    have hP := hOk p List.mem_cons_self
    have hOthers : ∀ p, p ∈ ps → p.Ok := by
      intro q hMem
      exact hOk q (List.mem_cons_of_mem p hMem)
    have hTail := ih hOthers hApart.2
    have hText : piecesText (p :: ps) ++ rest = p.text ++ (piecesText ps ++ rest) := by
      unfold piecesText
      rw [List.flatMap_cons, List.append_assoc]
    rw [hText, pieceTokens, List.cons_append, ← hTail]
    cases p with
    | atom t => exact scanText_atom hP.2 hP.1 (stops_pieces hOthers hApart.2 hRest) inbracket
    | quoted t =>
      have hShape : AddrPiece.text (.quoted t) ++ (piecesText ps ++ rest) =
            chr '"' :: (t ++ chr '"' :: (piecesText ps ++ rest)) := by
        simp [AddrPiece.text]
      rw [hShape]
      exact scanText_quoted hP.1 hP.2 inbracket _
    | special c => exact scanText_special hP inbracket _

/- A quoted string without quotes prints as it is. -/
theorem printQuoted_plain {q : List Byte} (hQuote : chr '"' ∉ q) (hBack : chr '\\' ∉ q) :
    printQuoted q = q := by
  induction q with
  | nil => rfl
  | cons c q ih =>
    rw [List.mem_cons, not_or] at hQuote hBack
    rw [printQuoted.eq_def]
    dsimp only
    rw [if_neg (fun hEq => hBack.1 hEq.symm), if_neg (fun hEq => hQuote.1 hEq.symm),
      ih hQuote.2 hBack.2]

/- A quoted string without quotes, printed. -/
theorem printToken_quoted {t : Token} (hToken : t.token = chr '"')
    (hQuote : chr '"' ∉ t.text) (hBack : chr '\\' ∉ t.text) :
    printToken t = chr '"' :: (t.text ++ [chr '"']) := by
  have hWord : ¬ (t.token = 0 ∨ t.token = chr '(') := by
    rw [hToken]
    decide
  unfold printToken
  rw [if_neg hWord, if_neg (fun hOther => hOther hToken), printQuoted_plain hQuote hBack]

theorem printToken_tokenAt {p : AddrPiece} (hOk : p.Ok) (after : List Byte) :
    printToken (p.tokenAt after) = p.text := by
  cases p with
  | atom t =>
    rw [AddrPiece.tokenAt, printToken, if_pos (Or.inl rfl)]
    exact List.take_left
  | quoted t =>
    have hText : ((AddrPiece.quoted t).tokenAt after).text = t := List.take_left
    rw [printToken_quoted rfl (hText.symm ▸ hOk.1) (hText.symm ▸ hOk.2), hText]
    rfl
  | special c =>
    rcases inPiece_classes c hOk with ⟨_, hOpen, hQuote, _, _, _, _, _, hZero⟩
    rw [AddrPiece.tokenAt, printToken, if_neg (fun hEither => hEither.elim hZero hOpen),
      if_pos hQuote]
    rfl

theorem isAtom_tokenAt {p : AddrPiece} (hOk : p.Ok) (after : List Byte) :
    isAtom (p.tokenAt after).token = p.isWord := by
  cases p with
  | atom t => rfl
  | quoted t => rfl
  | special c =>
    rcases inPiece_classes c hOk with ⟨_, hOpen, hQuote, _, _, _, _, _, hZero⟩
    simp [AddrPiece.tokenAt, AddrPiece.isWord, isAtom, hOpen, hQuote, hZero]

/- The tokens of an address print as the address. -/
theorem tokPrint_pieceTokens {after : Bool} (hOk : ∀ p, p ∈ ps → p.Ok)
    (hApart : WordsApart after ps) (rest : List Byte) :
    tokPrint after (pieceTokens ps rest) = piecesText ps := by
  induction ps generalizing after with
  | nil => rfl
  | cons p ps ih =>
    have hP := hOk p List.mem_cons_self
    have hTail := ih (fun q hMem => hOk q (List.mem_cons_of_mem p hMem)) hApart.2
    have hAlone : ¬ (after && p.isWord) = true := Bool.eq_false_iff.mp hApart.1
    rw [pieceTokens, tokPrint, isAtom_tokenAt hP, if_neg hAlone, hTail, printToken_tokenAt hP]
    rfl

end Wmail.Rfc822
