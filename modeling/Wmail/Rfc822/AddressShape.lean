import Wmail.Rfc822.AddressEntries

/-
  Which addresses are read back, from their characters alone.

  Key theorems include:
    * `exists_pieces`
    * `bare_of_standsBare`
-/

namespace Wmail.Rfc822

/- Where in an address the next character stands. -/
inductive Spot where
  | between
  | word
  | quoted
  | closed
deriving DecidableEq

/-
  Quoted strings are closed, and a quoted string has a special
  character or nothing on both sides.
-/
def apartFrom : Spot → List Byte → Bool
  | .quoted, [] => false
  | _, [] => true
  | .between, c :: rest =>
    if c = chr '"' then
      apartFrom .quoted rest
    else if inPiece c then
      apartFrom .between rest
    else
      apartFrom .word rest
  | .word, c :: rest =>
    if c = chr '"' then
      false
    else if inPiece c then
      apartFrom .between rest
    else
      apartFrom .word rest
  | .quoted, c :: rest =>
    if c = chr '"' then apartFrom .closed rest else apartFrom .quoted rest
  | .closed, c :: rest => inPiece c && apartFrom .between rest

/- The quoted strings of an address stand apart. -/
def wordsStandApart (address : List Byte) : Bool :=
  apartFrom .between address

/- A character of an address without comments and brackets. -/
def inAddress (c : Byte) : Bool :=
  c = chr '"' || inPiece c || isAtomChar c

/- Pieces, after a word or not. -/
def IsPieces (after : Bool) (text : List Byte) : Prop :=
  ∃ ps, (∀ p, p ∈ ps → AddrPiece.Ok p) ∧ WordsApart after ps ∧ text = piecesText ps

/- What is left of an address at a spot. -/
def Continues : Spot → List Byte → Prop
  | .between, text => IsPieces false text
  | .closed, text => IsPieces true text
  | .word, text =>
    ∃ atom rest, (∀ b, b ∈ atom → isAtomChar b = true) ∧ IsPieces true rest ∧ text = atom ++ rest
  | .quoted, text =>
    ∃ q rest, chr '"' ∉ q ∧ chr '\\' ∉ q ∧ IsPieces true rest ∧ text = q ++ chr '"' :: rest

theorem IsPieces.nil (after : Bool) : IsPieces after [] := by
  refine ⟨[], ?_, trivial, rfl⟩
  intro p hMem
  cases hMem

/- One more piece in front. -/
theorem IsPieces.cons {p : AddrPiece} {after : Bool} {rest : List Byte} (hOk : p.Ok)
    (hFirst : (after && p.isWord) = false) (hRest : IsPieces p.isWord rest) :
    IsPieces after (p.text ++ rest) := by
  rcases hRest with ⟨ps, hOthers, hApart, rfl⟩
  refine ⟨p :: ps, ?_, ⟨hFirst, hApart⟩, ?_⟩
  · intro q hMem
    rcases List.mem_cons.mp hMem with hHere | hThere
    · exact hHere ▸ hOk
    · exact hOthers q hThere
  · unfold piecesText
    rw [List.flatMap_cons]

theorem IsPieces.special {c : Byte} {rest : List Byte} (hPiece : inPiece c = true)
    (hRest : IsPieces false rest) (after : Bool) : IsPieces after (c :: rest) :=
  IsPieces.cons (p := .special c) hPiece (Bool.and_false after) hRest

/- A word that begins with this character. -/
theorem Continues.atom {c : Byte} {rest : List Byte} (hAtom : isAtomChar c = true)
    (hRest : Continues .word rest) : Continues .word (c :: rest) := by
  rcases hRest with ⟨atom, more, hAll, hMore, rfl⟩
  refine ⟨c :: atom, more, ?_, hMore, rfl⟩
  intro b hMem
  rcases List.mem_cons.mp hMem with hHere | hThere
  · exact hHere ▸ hAtom
  · exact hAll b hThere

/- A word that begins here is a piece. -/
theorem IsPieces.of_word {c : Byte} {rest : List Byte} (hAtom : isAtomChar c = true)
    (hRest : Continues .word rest) : IsPieces false (c :: rest) := by
  rcases hRest with ⟨atom, more, hAll, hMore, rfl⟩
  have hOk : (AddrPiece.atom (c :: atom)).Ok := by
    refine ⟨List.cons_ne_nil _ _, ?_⟩
    intro b hMem
    rcases List.mem_cons.mp hMem with hHere | hThere
    · exact hHere ▸ hAtom
    · exact hAll b hThere
  exact IsPieces.cons hOk rfl hMore

/- What the characters say about the pieces. -/
theorem continues_of_apart {text : List Byte}
    (hText : ∀ c, c ∈ text → inAddress c = true ∧ c ≠ chr '\\') {spot : Spot}
    (hApart : apartFrom spot text = true) : Continues spot text := by
  induction text generalizing spot with
  | nil =>
    cases spot with
    | between => exact IsPieces.nil false
    | word => exact ⟨[], [], fun b hMem => absurd hMem List.not_mem_nil, IsPieces.nil true, rfl⟩
    | quoted => cases hApart
    | closed => exact IsPieces.nil true
  | cons c rest ih =>
    have hC := hText c List.mem_cons_self
    have hRest : ∀ spot, apartFrom spot rest = true → Continues spot rest := by
      intro spot hSpot
      exact ih (fun b hMem => hText b (List.mem_cons_of_mem c hMem)) hSpot
    have hAtom : c ≠ chr '"' → ¬ inPiece c = true → isAtomChar c = true := by
      intro hQuote hPiece
      have hIn := hC.1
      unfold inAddress at hIn
      rw [Bool.or_eq_true, Bool.or_eq_true, decide_eq_true_eq] at hIn
      rcases hIn with (hIs | hIs) | hIs
      · exact absurd hIs hQuote
      · exact absurd hIs hPiece
      · exact hIs
    cases spot with
    | between =>
      rw [apartFrom] at hApart
      by_cases hQuote : c = chr '"'
      · rw [if_pos hQuote] at hApart
        rcases hRest _ hApart with ⟨q, more, hNoQuote, hNoBack, hMore, rfl⟩
        have hPiece := IsPieces.cons (p := .quoted q) ⟨hNoQuote, hNoBack⟩ (Bool.false_and _) hMore
        subst hQuote
        unfold Continues
        simpa [AddrPiece.text] using hPiece
      rw [if_neg hQuote] at hApart
      by_cases hPiece : inPiece c = true
      · rw [if_pos hPiece] at hApart
        exact IsPieces.special hPiece (hRest _ hApart) false
      · rw [if_neg hPiece] at hApart
        exact IsPieces.of_word (hAtom hQuote hPiece) (hRest _ hApart)
    | word =>
      rw [apartFrom] at hApart
      by_cases hQuote : c = chr '"'
      · rw [if_pos hQuote] at hApart
        cases hApart
      rw [if_neg hQuote] at hApart
      by_cases hPiece : inPiece c = true
      · rw [if_pos hPiece] at hApart
        exact ⟨[], c :: rest, fun b hMem => absurd hMem
          List.not_mem_nil, IsPieces.special hPiece (hRest _ hApart) true, rfl⟩
      · rw [if_neg hPiece] at hApart
        exact Continues.atom (hAtom hQuote hPiece) (hRest _ hApart)
    | quoted =>
      rw [apartFrom] at hApart
      by_cases hQuote : c = chr '"'
      · rw [if_pos hQuote] at hApart
        exact ⟨[], rest, List.not_mem_nil, List.not_mem_nil, hRest _ hApart, by
            rw [hQuote]
            rfl⟩
      · rw [if_neg hQuote] at hApart
        rcases hRest _ hApart with ⟨q, more, hNoQuote, hNoBack, hMore, rfl⟩
        refine ⟨c :: q, more, ?_, ?_, hMore, rfl⟩
        · rw [List.mem_cons, not_or]
          exact ⟨fun hEq => hQuote hEq.symm, hNoQuote⟩
        · rw [List.mem_cons, not_or]
          exact ⟨fun hEq => hC.2 hEq.symm, hNoBack⟩
    | closed =>
      rw [apartFrom, Bool.and_eq_true] at hApart
      exact IsPieces.special hApart.1 (hRest _ hApart.2) true

/- An address whose words stand apart is a list of pieces. -/
theorem exists_pieces {address : List Byte}
    (hAddress : ∀ c, c ∈ address →
      inAddress c = true ∧ c ≠ chr '\\') (hApart : wordsStandApart address = true) :
    ∃ ps, (∀ p, p ∈ ps → AddrPiece.Ok p) ∧ WordsApart false ps ∧ address = piecesText ps :=
  continues_of_apart hAddress hApart

/-
  No comma and no semicolon outside of quoted strings, and no
  colon behind words alone, which would name a group.
-/
def bareFrom (words quoted : Bool) : List Byte → Bool
  | [] => true
  | c :: rest =>
    if c = chr '"' then
      bareFrom words (!quoted) rest
    else if quoted then
      bareFrom words quoted rest
    else if c = chr ',' ∨ c = chr ';' then
      false
    else if c = chr ':' ∧ words = true then
      false
    else
      bareFrom (words && isAtomChar c) quoted rest

/- An address that is one address without brackets, too. -/
def standsBare (address : List Byte) : Bool :=
  bareFrom true false address

/- The characters of an atom. -/
theorem bareFrom_atom {atom : List Byte} (hAtom : ∀ b, b ∈ atom → isAtomChar b = true)
    (words : Bool) (rest : List Byte) :
    bareFrom words false (atom ++ rest) = bareFrom words false rest := by
  induction atom with
  | nil => rfl
  | cons c atom ih =>
    have hC := hAtom c List.mem_cons_self
    rcases isAtomChar_classes c hC with ⟨_, _, hQuote, _, hSpecial⟩
    have hNot : ∀ d, specials.contains d = true → c ≠ d := by
      intro d hIn hEq
      rw [hEq, hIn] at hSpecial
      cases hSpecial
    rw [List.cons_append, bareFrom, if_neg hQuote, if_neg Bool.false_ne_true,
      if_neg (fun hEither => hEither.elim (hNot _ (by decide)) (hNot _ (by decide))),
      if_neg (fun hBoth => hNot _ (by decide) hBoth.1),
      hC, Bool.and_true]
    exact ih (fun b hMem => hAtom b (List.mem_cons_of_mem c hMem))

/- The characters of a quoted string. -/
theorem bareFrom_quoted {q : List Byte} (hQuote : chr '"' ∉ q) (words : Bool) (rest : List Byte) :
    bareFrom words true (q ++ chr '"' :: rest) = bareFrom words false rest := by
  induction q with
  | nil =>
    rw [List.nil_append, bareFrom, if_pos rfl]
    rfl
  | cons c q ih =>
    rw [List.mem_cons, not_or] at hQuote
    rw [List.cons_append, bareFrom, if_neg (fun hEq => hQuote.1 hEq.symm), if_pos rfl]
    exact ih hQuote.2

/- What the characters say about the pieces. -/
theorem bare_pieces {ps : List AddrPiece} (hOk : ∀ p, p ∈ ps → p.Ok) {words : Bool}
    (hBare : bareFrom words false (piecesText ps) = true) :
    Plain ps ∧ (words = true → GroupFree ps) := by
  induction ps generalizing words with
  | nil => exact ⟨fun p hMem => absurd hMem List.not_mem_nil, fun _ => trivial⟩
  | cons p ps ih =>
    have hP := hOk p List.mem_cons_self
    have hOthers : ∀ q, q ∈ ps → q.Ok := by
      intro q hMem
      exact hOk q (List.mem_cons_of_mem p hMem)
    have hText : piecesText (p :: ps) = p.text ++ piecesText ps := by
      unfold piecesText
      rw [List.flatMap_cons]
    have hPlain : (p ≠ .special (chr ',') ∧
        p ≠ .special (chr ';')) → Plain ps → Plain (p :: ps) := by
      intro hHere hThere q hMem
      rcases List.mem_cons.mp hMem with hIs | hIn
      · exact hIs ▸ hHere
      · exact hThere q hIn
    rw [hText] at hBare
    cases p with
    | atom t =>
      have hTail : bareFrom words false (piecesText ps) = true := by
        rw [← hBare]
        exact (bareFrom_atom hP.2 words _).symm
      have hRest := ih hOthers hTail
      have hOther : ∀ c, AddrPiece.atom t ≠ .special c := by
        intro c hIs
        cases hIs
      exact ⟨hPlain ⟨hOther _, hOther _⟩ hRest.1, hRest.2⟩
    | quoted t =>
      have hTail : bareFrom words false (piecesText ps) = true := by
        rw [← hBare, AddrPiece.text, List.cons_append, bareFrom, if_pos rfl, List.append_assoc]
        exact (bareFrom_quoted hP.1 words _).symm
      have hRest := ih hOthers hTail
      have hOther : ∀ c, AddrPiece.quoted t ≠ .special c := by
        intro c hIs
        cases hIs
      exact ⟨hPlain ⟨hOther _, hOther _⟩ hRest.1, hRest.2⟩
    | special c =>
      rcases inPiece_classes c hP with ⟨_, _, hQuote, _, _, _, _, hAtom, _⟩
      rw [AddrPiece.text, List.singleton_append, bareFrom,
        if_neg hQuote, if_neg Bool.false_ne_true] at hBare
      by_cases hEnds : c = chr ',' ∨ c = chr ';'
      · rw [if_pos hEnds] at hBare
        cases hBare
      rw [if_neg hEnds] at hBare
      by_cases hColon : c = chr ':' ∧ words = true
      · rw [if_pos hColon] at hBare
        cases hBare
      rw [if_neg hColon, hAtom, Bool.and_false] at hBare
      have hRest := ih hOthers hBare
      constructor
      · apply hPlain _ hRest.1
        constructor
        · intro hEq
          exact hEnds (Or.inl (AddrPiece.special.inj hEq))
        · intro hEq
          exact hEnds (Or.inr (AddrPiece.special.inj hEq))
      · intro hWords hEq
        exact hColon ⟨AddrPiece.special.inj hEq, hWords⟩

/- An address that stands bare is read without brackets. -/
theorem bare_of_standsBare {ps : List AddrPiece} (hOk : ∀ p, p ∈ ps → p.Ok)
    (hBare : standsBare (piecesText ps) = true) : Plain ps ∧ GroupFree ps := by
  have hBoth := bare_pieces hOk hBare
  exact ⟨hBoth.1, hBoth.2 rfl⟩

end Wmail.Rfc822
