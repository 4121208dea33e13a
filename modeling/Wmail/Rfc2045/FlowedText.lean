import Wmail.Rfc2045.FlowedPieces
import Mathlib.Data.List.Forall2

/-
  Flowed text from the creator through the parser.

  Key theorems include:
    * `createLoop_reads`
    * `rfc2646_roundTrip_iff`
-/

------------
-- Reading a Line
------------

namespace Wmail.Rfc2646

/- Text on one line, without a carriage return. -/
structure OneLine (text : List Byte) : Prop where
  nl : nl ∉ text
  cr : cr ∉ text

instance (text : List Byte) : Decidable (OneLine text) :=
  decidable_of_iff (nl ∉ text ∧ cr ∉ text) ⟨fun ⟨hNl, hCr⟩ => ⟨hNl, hCr⟩,
      fun hText => ⟨hText.nl, hText.cr⟩⟩

theorem OneLine.of_subset {text part : List Byte} (hText : OneLine text)
    (hPart : ∀ b, b ∈ part → b ∈ text) : OneLine part where
  nl := fun hMem => hText.nl (hPart _ hMem)
  cr := fun hMem => hText.cr (hPart _ hMem)

theorem OneLine.append {text more : List Byte} (hText : OneLine text)
    (hMore : OneLine more) : OneLine (text ++ more) where
  nl := by
    rw [List.mem_append, not_or]
    exact ⟨hText.nl, hMore.nl⟩
  cr := by
    rw [List.mem_append, not_or]
    exact ⟨hText.cr, hMore.cr⟩

@[simp] theorem rfc2646Parse_nil (p : Parser) : rfc2646Parse p [] = p :=
  rfl

@[simp] theorem rfc2646Parse_cons (p : Parser) (b : Byte) (rest : List Byte) :
    rfc2646Parse p (b :: rest) = rfc2646Parse (p.step b) rest :=
  rfl

theorem rfc2646Parse_append (p : Parser) (text more : List Byte) :
    rfc2646Parse p (text ++ more) = rfc2646Parse (rfc2646Parse p text) more := by
  unfold rfc2646Parse
  rw [List.foldl_append]

variable {p : Parser} {text : List Byte}

/- The rest of a line is kept as it is. -/
theorem parse_in_line (hMode : p.parseMode = .line) (hText : OneLine text)
    (hRoom : p.line.length + text.length ≤ 4095) :
    rfc2646Parse p text = { p with line := p.line ++ text } := by
  induction text generalizing p with
  | nil => rw [rfc2646Parse_nil, List.append_nil]
  | cons b rest ih =>
    have hRest : OneLine rest := hText.of_subset fun d => List.mem_cons_of_mem b
    have hCr : b ≠ cr := by
      rintro rfl
      exact hText.cr List.mem_cons_self
    have hNl : b ≠ nl := by
      rintro rfl
      exact hText.nl List.mem_cons_self
    rw [List.length_cons] at hRoom
    have hStep : p.step b = { p with line := p.line ++ [b] } := by
      have hLess : p.line.length < 4095 := by omega
      unfold Parser.step
      rw [if_neg hCr]
      simp [hMode, hNl, hLess]
    rw [rfc2646Parse_cons, hStep]
    have hOut := @ih { p with line := p.line ++ [b] } hMode hRest (by
        simp only [List.length_append, List.length_singleton]
        omega)
    rw [hOut]
    simp only [List.append_assoc, List.singleton_append]

/- The beginning of a line that is not quoted. -/
theorem parse_line_start (hStart : p.parseMode = .start) (hText : OneLine text)
    (hSome : text ≠ []) (hPlain : text.head? ≠ some (chr '>')) (hRoom : text.length ≤ 4095) :
    rfc2646Parse p text =
      { p with
        quoteDepth := 0
        parseMode := .line
        line := dropBlank text } := by
  cases text with
  | nil => exact absurd rfl hSome
  | cons b rest =>
    have hRest : OneLine rest := hText.of_subset fun d => List.mem_cons_of_mem b
    have hCr : b ≠ cr := by
      rintro rfl
      exact hText.cr List.mem_cons_self
    have hNl : b ≠ nl := by
      rintro rfl
      exact hText.nl List.mem_cons_self
    have hQuote : b ≠ chr '>' := by
      rintro rfl
      exact hPlain rfl
    rw [List.length_cons] at hRoom
    have hStep : p.step b =
        { p with
          quoteDepth := 0
          parseMode := .line
          line := dropBlank [b] } := by
      unfold Parser.step dropBlank
      rw [if_neg hCr, if_pos hStart]
      by_cases hBlank : b = chr ' '
      · subst hBlank
        rfl
      · simp [hNl, hQuote, hBlank]
    have hSmall : (dropBlank [b]).length ≤ 1 := by
      unfold dropBlank
      split <;> simp
    rw [rfc2646Parse_cons, hStep, parse_in_line rfl hRest (by simp only []; omega)]
    have hJoin : dropBlank [b] ++ rest = dropBlank (b :: rest) := by
      unfold dropBlank
      split <;> simp_all
    simp only [hJoin]

/- A line that begins with a quote mark stays quoted. -/
theorem parse_quoted (hMode : p.parseMode ≠ .start) (hDepth : 0 < p.quoteDepth)
    (hText : nl ∉ text) :
    (rfc2646Parse p text).parseMode ≠ .start ∧
      0 < (rfc2646Parse p text).quoteDepth ∧
      (rfc2646Parse p text).handled = p.handled := by
  induction text generalizing p with
  | nil => exact ⟨hMode, hDepth, rfl⟩
  | cons b rest ih =>
    rw [List.mem_cons, not_or] at hText
    have hNl : b ≠ nl := fun hEq => hText.1 hEq.symm
    have hStep : (p.step b).parseMode ≠ .start ∧ 0 < (p.step b).quoteDepth ∧
        (p.step b).handled = p.handled := by
      unfold Parser.step
      rw [if_neg hMode]
      simp only [if_neg hNl]
      split
      · exact ⟨hMode, hDepth, rfl⟩
      · split
        · exact ⟨hMode, Nat.succ_pos _, rfl⟩
        · split
          · exact ⟨(fun hNo => nomatch hNo), hDepth, rfl⟩
          · exact ⟨(fun hNo => nomatch hNo), hDepth, rfl⟩
    have hOut := ih hStep.1 hStep.2.1 hText.2
    rw [rfc2646Parse_cons]
    exact ⟨hOut.1, hOut.2.1, hOut.2.2.trans hStep.2.2⟩

/- What a line is, told by its text. -/
structure ReadAs (text : List Byte) (read : FlowedLine) : Prop where
  quoted : text.head? = some (chr '>') → 0 < read.quoteDepth
  plain : text.head? ≠ some (chr '>') → read.quoteDepth = 0 ∧ words read.line = words text

theorem words_dropBlank (text : List Byte) : words (dropBlank text) = words text := by
  unfold dropBlank
  split
  · rename_i hHead
    rcases List.head?_eq_some_iff.mp hHead with ⟨rest, rfl⟩
    unfold words
    rw [wordsOf_cons_sep, List.drop_succ_cons, List.drop_zero]
  · rfl

/- The end of a line leaves its words. -/
theorem endLine_words (p : Parser) : ∃ read, p.endLine.parseMode = .start ∧
        p.endLine.handled = p.handled ++ [read] ∧
        read.quoteDepth = p.quoteDepth ∧
        words read.line = words p.line := by
  refine ⟨_, rfl, rfl, rfl, ?_⟩
  simp only []
  split
  · rename_i hFlowed
    rw [decide_eq_true_iff] at hFlowed
    rcases List.getLast?_eq_some_iff.mp hFlowed.1 with ⟨front, hLine⟩
    rw [hLine, List.dropLast_concat]
    unfold words
    rw [wordsOf_append_sep, wordsOf_nil, List.append_nil]
  · rfl

theorem step_nl_of_line (hMode : p.parseMode ≠ .start) : p.step nl = p.endLine := by
  unfold Parser.step
  rw [if_neg hMode, if_neg (by decide)]
  simp

/- A whole line, up to its newline. -/
theorem parse_whole_line (hStart : p.parseMode = .start) (hText : OneLine text)
    (hRoom : text.length ≤ 4095) :
    ∃ read, (rfc2646Parse p (text ++ [nl])).parseMode = .start ∧
        (rfc2646Parse p (text ++ [nl])).handled = p.handled ++ [read] ∧
        ReadAs text read := by
  rw [rfc2646Parse_append, rfc2646Parse_cons, rfc2646Parse_nil]
  by_cases hQuote : text.head? = some (chr '>')
  · rcases List.head?_eq_some_iff.mp hQuote with ⟨rest, rfl⟩
    have hStep : p.step (chr '>') =
        { p with
          quoteDepth := 1
          parseMode := .quotecnt
          line := [] } := by
      unfold Parser.step
      rw [if_pos hStart]
      rfl
    have hRest : nl ∉ rest := fun hMem => hText.nl (List.mem_cons_of_mem _ hMem)
    have hMode : (p.step (chr '>')).parseMode ≠ .start := by
      rw [hStep]
      exact fun hNo => nomatch hNo
    have hDepth : 0 < (p.step (chr '>')).quoteDepth := by
      rw [hStep]
      exact Nat.one_pos
    have hSame : (p.step (chr '>')).handled = p.handled := by rw [hStep]
    rw [rfc2646Parse_cons]
    rcases parse_quoted hMode hDepth hRest with ⟨hIn, hDeep, hHandled⟩
    rcases endLine_words (rfc2646Parse (p.step (chr '>')) rest)
      with ⟨read, hEnd, hOut, hSameDepth, _⟩
    rw [step_nl_of_line hIn]
    refine ⟨read, hEnd, ?_, ?_, ?_⟩
    · rw [hOut, hHandled, hSame]
    · intro _
      rw [hSameDepth]
      exact hDeep
    · intro hPlain
      exact absurd rfl hPlain
  · have hEnd : ∃ q : Parser, (rfc2646Parse p text).step nl = q.endLine ∧
          q.quoteDepth = 0 ∧ q.handled = p.handled ∧
          q.line = dropBlank text := by
      by_cases hNil : text = []
      · subst hNil
        refine ⟨{ p with
          parseMode := .quotecnt
          quoteDepth := 0
          line := [] }, ?_, rfl, rfl, rfl⟩
        rw [rfc2646Parse_nil]
        unfold Parser.step
        rw [if_pos hStart]
        rfl
      · have hLine := parse_line_start hStart hText hNil hQuote hRoom
        refine ⟨rfc2646Parse p text, ?_, ?_, ?_, ?_⟩
        · apply step_nl_of_line
          rw [hLine]
          exact fun hNo => nomatch hNo
        · rw [hLine]
        · rw [hLine]
        · rw [hLine]
    rcases hEnd with ⟨q, hStep, hDepth, hHandled, hLine⟩
    rcases endLine_words q with ⟨read, hMode, hOut, hSameDepth, hWords⟩
    rw [hStep]
    refine ⟨read, hMode, ?_, ?_, ?_⟩
    · rw [hOut, hHandled]
    · intro hYes
      exact absurd hYes hQuote
    · intro _
      rw [hSameDepth, hDepth, hWords, hLine, words_dropBlank]
      exact ⟨rfl, rfl⟩

/- The parser reads a text as these pieces. -/
def Reads (segments : List (List Byte)) (text : List Byte) : Prop :=
  ∀ p : Parser, p.parseMode = .start → ∃ reads, (rfc2646Parse p text).parseMode = .start ∧
          (rfc2646Parse p text).handled = p.handled ++ reads ∧
          List.Forall₂ ReadAs segments reads

theorem Reads.nil : Reads [] [] := by
  intro p hStart
  refine ⟨[], hStart, ?_, List.Forall₂.nil⟩
  rw [rfc2646Parse_nil, List.append_nil]

theorem Reads.append {segments more : List (List Byte)} {text rest : List Byte}
    (hText : Reads segments text) (hRest : Reads more rest) :
    Reads (segments ++ more) (text ++ rest) := by
  intro p hStart
  rcases hText p hStart with ⟨first, hMode, hFirst, hAll⟩
  rcases hRest _ hMode with ⟨second, hEnd, hSecond, hOthers⟩
  rw [rfc2646Parse_append]
  refine ⟨first ++ second, hEnd, ?_, List.rel_append hAll hOthers⟩
  rw [hSecond, hFirst, List.append_assoc]

/- What may stand between two pieces. -/
def Break (text : List Byte) : Prop :=
  text = bytes "\n" ∨ text = bytes " \n"

/- A piece may get a blank in front, if it is not quoted. -/
theorem stuffed_piece (piece : List Byte) : ∃ stuff,
      wordwrapLine piece = stuff ++ piece ∧ (∀ b, b ∈ stuff → b = chr ' ') ∧ stuff.length ≤ 1 ∧
        (stuff ≠ [] → piece.head? ≠ some (chr '>')) := by
  unfold wordwrapLine
  split
  · rename_i hStuff
    refine ⟨[chr ' '], rfl, by simp, by simp, ?_⟩
    intro _ hQuote
    rcases List.head?_eq_some_iff.mp hQuote with ⟨rest, rfl⟩
    rcases hStuff with hFrom | ⟨hDash, _⟩
    · have hNot : (bytes "From ").isPrefixOf (chr '>' :: rest) = false := rfl
      rw [hNot] at hFrom
      cases hFrom
    · cases hDash
  · exact ⟨[], rfl, by simp, by simp, fun hNo => absurd rfl hNo⟩

theorem break_split {ending : List Byte} (hEnding : Break ending) :
    ∃ gap, ending = gap ++ [nl] ∧ (∀ b, b ∈ gap → b = chr ' ') ∧ gap.length ≤ 1 := by
  rcases hEnding with rfl | rfl
  · exact ⟨[], rfl, by simp, by simp⟩
  · exact ⟨[chr ' '], rfl, by simp, by simp⟩

/- A piece that may be stuffed, and its end. -/
theorem reads_piece {piece ending : List Byte} (hPiece : OneLine piece)
    (hRoom : piece.length ≤ 4000) (hEnding : Break ending) :
    Reads [piece] (wordwrapLine piece ++ ending) := by
  have hLine : ∃ text, wordwrapLine piece ++ ending = text ++ [nl] ∧ OneLine text ∧
        text.length ≤ 4095 ∧
        (∀ read, ReadAs text read → ReadAs piece read) := by
    rcases break_split hEnding with ⟨gap, rfl, hGap, hSmall⟩
    have hGapLine : OneLine gap := by
      constructor
      · intro hMem
        exact absurd (hGap _ hMem) (by decide)
      · intro hMem
        exact absurd (hGap _ hMem) (by decide)
    rcases stuffed_piece piece with ⟨stuff, hStuffed, hBlank, hOne, hHead⟩
    have hStuffLine : OneLine stuff := by
      constructor
      · intro hMem
        exact absurd (hBlank _ hMem) (by decide)
      · intro hMem
        exact absurd (hBlank _ hMem) (by decide)
    refine ⟨stuff ++ piece ++ gap, ?_, (hStuffLine.append hPiece).append hGapLine, ?_, ?_⟩
    · rw [hStuffed, List.append_assoc _ gap]
    · rw [List.length_append, List.length_append]
      omega
    · have hSame : (stuff ++ piece ++ gap).head? =
          some (chr '>') ↔ piece.head? = some (chr '>') := by
        cases stuff with
        | cons b more =>
          have hFirst := hBlank b List.mem_cons_self
          have hPlain := hHead (List.cons_ne_nil b more)
          subst hFirst
          constructor
          · intro hQuote
            cases hQuote
          · intro hQuote
            exact absurd hQuote hPlain
        | nil =>
          cases piece with
          | cons b more => exact Iff.rfl
          | nil =>
            constructor
            · intro hQuote
              have hIn := hGap _ (List.mem_of_head? hQuote)
              cases hIn
            · intro hQuote
              cases hQuote
      have hWords : words (stuff ++ piece ++ gap) = words piece := by
        unfold words
        rw [wordsOf_append_seps hGap, wordsOf_seps_append hBlank]
      intro read hRead
      constructor
      · intro hQuote
        exact hRead.quoted (hSame.mpr hQuote)
      · intro hPlain
        rw [← hWords]
        exact hRead.plain (fun hYes => hPlain (hSame.mp hYes))
  rcases hLine with ⟨text, hOut, hText, hSize, hRead⟩
  intro p hStart
  rcases parse_whole_line hStart hText hSize with ⟨read, hMode, hHandled, hAs⟩
  rw [hOut]
  exact ⟨[read], hMode, hHandled, List.Forall₂.cons (hRead read hAs) List.Forall₂.nil⟩

variable {segments : List (List Byte)}

/- The pieces of one line. -/
theorem reads_joinFlowed (hSome : segments ≠ [])
    (hPieces : ∀ piece, piece ∈ segments →
      OneLine piece ∧ piece.length ≤ 4000) {ending : List Byte} (hEnding : Break ending) :
    Reads segments (joinFlowed segments ++ ending) := by
  induction segments with
  | nil => exact absurd rfl hSome
  | cons piece more ih =>
    have hHere := hPieces piece List.mem_cons_self
    cases more with
    | nil => exact reads_piece hHere.1 hHere.2 hEnding
    | cons next others =>
      have hRest := ih (List.cons_ne_nil next others) fun other hMem =>
          hPieces other (List.mem_cons_of_mem piece hMem)
      have hFirst := reads_piece hHere.1 hHere.2 (Or.inr rfl)
      have hBoth := hFirst.append hRest
      rw [joinFlowed, List.append_assoc, List.append_assoc]
      rw [List.append_assoc] at hBoth
      exact hBoth

/- The part of a line that is wrapped. -/
def lineText (line : List Byte) : List Byte :=
  trimEnd (dropBlank line)

/- The pieces of a line that is not quoted. -/
def linePieces (line : List Byte) : List (List Byte) :=
  pieces 76 (lineText line).length (lineText line)

/- A line that comes through wrapping. -/
def safeLine (line : List Byte) : Bool :=
  wrapSafe 76 (lineText line).length (lineText line)

/- The lines that are sent have these pieces so far. -/
structure Sent (rfc : Create) (segments : List (List Byte)) : Prop where
  linesize : rfc.linesize = 76
  first : rfc.sentFirsttime = true → rfc.sent = [] ∧ segments = [] ∧ rfc.hasSentParagraph = false
  later : rfc.sentFirsttime = false → ∀ ending, Break ending → Reads segments (rfc.sent ++ ending)

theorem trimReversed_split (text : List Byte) : ∃ blanks,
      text = blanks ++ trimReversed text ∧ ∀ b, b ∈ blanks → b = chr ' ' := by
  induction text with
  | nil => exact ⟨[], rfl, by simp⟩
  | cons b rest ih =>
    rw [trimReversed]
    split
    · rename_i hTrim
      rcases ih with ⟨blanks, hSplit, hBlanks⟩
      refine ⟨b :: blanks, ?_, ?_⟩
      · rw [List.cons_append, ← hSplit]
      · intro d hMem
        rcases List.mem_cons.mp hMem with rfl | hIn
        · exact hTrim.1
        · exact hBlanks d hIn
    · exact ⟨[], rfl, by simp⟩

theorem trimEnd_split (text : List Byte) : ∃ blanks,
      text = trimEnd text ++ blanks ∧ ∀ b, b ∈ blanks → b = chr ' ' := by
  rcases trimReversed_split text.reverse with ⟨blanks, hSplit, hBlanks⟩
  refine ⟨blanks.reverse, ?_, ?_⟩
  · have hBack := congrArg List.reverse hSplit
    rw [List.reverse_reverse, List.reverse_append] at hBack
    exact hBack
  · intro b hMem
    exact hBlanks b (List.mem_reverse.mp hMem)

theorem words_lineText (line : List Byte) : words (lineText line) = words line := by
  rcases trimEnd_split (dropBlank line) with ⟨blanks, hSplit, hBlanks⟩
  have hTrim := wordsOf_append_seps hBlanks (trimEnd (dropBlank line))
  rw [← hSplit] at hTrim
  rw [← words_dropBlank line]
  exact hTrim.symm

theorem mem_dropBlank {b : Byte} (hMem : b ∈ dropBlank text) : b ∈ text := by
  unfold dropBlank at hMem
  split at hMem
  · exact List.mem_of_mem_drop hMem
  · exact hMem

variable {line : List Byte}

theorem mem_lineText {b : Byte} (hMem : b ∈ lineText line) : b ∈ line := by
  rcases trimEnd_split (dropBlank line) with ⟨blanks, hSplit, _⟩
  apply mem_dropBlank
  rw [hSplit]
  exact List.mem_append_left blanks hMem

/- The pieces are parts of the line, and short. -/
theorem mem_pieces {linesize fuel : Nat} {text piece : List Byte}
    (hMem : piece ∈ pieces linesize fuel text) :
    (∀ b, b ∈ piece → b ∈ text) ∧ piece.length ≤ linesize + 1 := by
  induction fuel generalizing text with
  | zero =>
    have hEmpty : piece = [] := by
      cases text <;> simpa [pieces] using hMem
    rw [hEmpty]
    simp
  | succ fuel ih =>
    by_cases hNil : text = []
    · have hEmpty : piece = [] := by simpa [hNil, pieces] using hMem
      rw [hEmpty]
      simp
    rw [pieces] at hMem
    rotate_left
    · exact hNil
    split at hMem
    · rename_i hShort
      rw [List.mem_singleton] at hMem
      subst hMem
      exact ⟨fun _ hIn => hIn, hShort.trans (Nat.le_succ _)⟩
    · simp only [] at hMem
      split at hMem
      · rcases List.mem_cons.mp hMem with rfl | hMore
        · refine ⟨fun _ hIn => List.mem_of_mem_take hIn, ?_⟩
          have hLess := lastBlank_le text linesize
          rw [List.length_take]
          omega
        · split at hMore
          · cases hMore
          · rcases ih hMore with ⟨hParts, hSize⟩
            refine ⟨fun b hIn => ?_, hSize⟩
            exact List.mem_of_mem_drop ((List.dropWhile_suffix _).subset (hParts b hIn))
      · rcases List.mem_cons.mp hMem with rfl | hMore
        · refine ⟨fun _ hIn => List.mem_of_mem_take hIn, ?_⟩
          have hLess := cutWord_cases linesize text
          rw [List.length_take]
          omega
        · rcases ih hMore with ⟨hParts, hSize⟩
          exact ⟨fun b hIn => List.mem_of_mem_drop (hParts b hIn), hSize⟩

/- What is sent for a line that is not quoted. -/
theorem wordwrapSent_plain (rfc : Create) (hPlain : line.head? ≠ some (chr '>')) :
    ∃ opening, (wordwrapSent rfc line).sent = rfc.sent ++ opening ++
          wrapLoop rfc.linesize (lineText line).length (lineText line) ∧
        (wordwrapSent rfc line).linesize = rfc.linesize ∧
        (wordwrapSent rfc line).sentFirsttime = false ∧
        (rfc.sentFirsttime = false → Break opening) ∧
        (rfc.sentFirsttime = true → rfc.hasSentParagraph = false → opening = []) := by
  have hDepth : (line.takeWhile (· = chr '>')).length = 0 := by
    cases line with
    | nil => rfl
    | cons b rest =>
      have hOther : b ≠ chr '>' := by
        rintro rfl
        exact hPlain rfl
      rw [List.takeWhile_cons_of_neg (by simpa using hOther)]
      rfl
  have hText : lineText line = trimEnd (dropBlank line) := rfl
  unfold wordwrapSent
  rw [hDepth]
  simp only [List.drop_zero, ne_eq, not_true_eq_false, if_false]
  split
  · rename_i hParagraph
    refine ⟨bytes " \n", rfl, rfl, rfl, ?_, ?_⟩
    · intro _
      exact Or.inr rfl
    · intro _ hNo
      rw [hNo] at hParagraph
      cases hParagraph.1
  · refine ⟨if rfc.sentFirsttime then [] else bytes "\n", rfl, rfl, rfl, ?_, ?_⟩
    · intro hLater
      rw [hLater]
      exact Or.inl rfl
    · intro hFirst _
      rw [hFirst]
      rfl

/- One line is sent. -/
theorem Sent.wordwrapSent {rfc : Create} (hSent : Sent rfc segments) (hLine : OneLine line)
    (hPlain : line.head? ≠ some (chr '>')) :
    Sent (wordwrapSent rfc line) (segments ++ linePieces line) := by
  rcases wordwrapSent_plain rfc hPlain with ⟨opening, hOut, hSize, hTime, hBreak, hNone⟩
  have hPieces : ∀ piece, piece ∈ linePieces line → OneLine piece ∧ piece.length ≤ 4000 := by
    intro piece hMem
    rcases mem_pieces hMem with ⟨hParts, hShort⟩
    refine ⟨hLine.of_subset fun b hIn => mem_lineText (hParts b hIn), ?_⟩
    omega
  have hSome : linePieces line ≠ [] := pieces_ne_nil _ _ _
  constructor
  · rw [hSize]
    exact hSent.linesize
  · intro hFirst
    rw [hTime] at hFirst
    cases hFirst
  · intro _ ending hEnding
    have hRest := reads_joinFlowed hSome hPieces hEnding
    rw [hOut, hSent.linesize, wrapLoop_eq, List.append_assoc (rfc.sent ++ opening)]
    apply Reads.append
    · cases hTimeBefore : rfc.sentFirsttime with
      | true =>
        rcases hSent.first hTimeBefore with ⟨hEmpty, hNoSegments, hNoParagraph⟩
        rw [hEmpty, hNoSegments, hNone hTimeBefore hNoParagraph]
        exact Reads.nil
      | false => exact hSent.later hTimeBefore opening (hBreak hTimeBefore)
    · exact hRest

------------
-- Calls
------------

/- The buffer is not looked at while lines are sent. -/
theorem wordwrapSent_buffer (rfc : Create) (buffer line : List Byte) :
    wordwrapSent { rfc with buffer := buffer } line =
      { wordwrapSent rfc line with buffer := buffer } := by
  unfold wordwrapSent Create.handler
  simp only []
  split <;> split <;> rfl

theorem createLoop_buffer (rfc : Create) (buffer line text : List Byte) :
    createLoop { rfc with buffer := buffer } line text = createLoop rfc line text := by
  induction text generalizing rfc line with
  | nil => rfl
  | cons b rest ih =>
    rw [createLoop, createLoop, wordwrapSent_buffer]
    split
    · exact ih (wordwrapSent rfc line) []
    · exact ih rfc (line ++ [b])

theorem createLoop_line (rfc : Create) (front : List Byte) (hLine : nl ∉ line)
    (text : List Byte) :
    createLoop rfc front (line ++ text) = createLoop rfc (front ++ line) text := by
  induction line generalizing front with
  | nil => rw [List.nil_append, List.append_nil]
  | cons b rest ih =>
    rw [List.mem_cons, not_or] at hLine
    rw [List.cons_append, createLoop, if_neg (fun hEq => hLine.1 hEq.symm), ih _ hLine.2,
      List.append_assoc, List.singleton_append]

/- A call goes on where the last one stopped. -/
theorem createLoop_append (rfc : Create) (hLine : nl ∉ line) (text more : List Byte) :
    rfc2646createParse (createLoop rfc line text) more = createLoop rfc line (text ++ more) := by
  induction text generalizing rfc line with
  | nil =>
    unfold rfc2646createParse
    rw [createLoop, createLoop_line _ _ hLine, createLoop_buffer]
    rfl
  | cons b rest ih =>
    rw [List.cons_append, createLoop, createLoop]
    split
    · exact ih _ (List.not_mem_nil)
    · rename_i hOther
      apply ih
      rw [List.mem_append, List.mem_singleton, not_or]
      exact ⟨hLine, fun hEq => hOther hEq.symm⟩

theorem rfc2646create_run (calls : List (List Byte)) : rfc2646create.run calls = rfc2646createFree
        (createLoop rfc2646createAlloc [] calls.flatten) := by
  have hReal : rfc2646create.Realizes (fun _ => True) (fun input state =>
        state = createLoop rfc2646createAlloc [] input)
      (fun input => rfc2646createFree (createLoop rfc2646createAlloc [] input)) := by
    refine ⟨⟨?_, ?_, ?_⟩, ?_⟩
    · intro _ _ _
      trivial
    · rfl
    · intro input state piece _ hState
      rw [hState]
      exact createLoop_append _ List.not_mem_nil input piece
    · intro input state _ hState
      rw [hState]
      rfl
  exact hReal.run_eq calls trivial

/- The lines of the text, all but the last one, are sent. -/
theorem createLoop_reads {rfc : Create} {segments : List (List Byte)}
    (hSent : Sent rfc segments) {line text : List Byte} (hLine : OneLine line) (hCr : cr ∉ text)
    (hPlain : ∀ l, l ∈ (line ++ text).splitOn nl → l.head? ≠ some (chr '>')) :
    ∃ lines last, (line ++ text).splitOn nl = lines ++ [last] ∧
        (createLoop rfc line text).buffer = last ∧
        OneLine last ∧
        Sent (createLoop rfc line text) (segments ++ lines.flatMap linePieces) := by
  induction text generalizing rfc segments line with
  | nil =>
    refine ⟨[], line, ?_, rfl, hLine, ?_⟩
    · rw [List.append_nil]
      exact List.splitOn_eq_singleton hLine.nl
    · rw [List.flatMap_nil, List.append_nil]
      exact ⟨hSent.linesize, hSent.first, hSent.later⟩
  | cons b rest ih =>
    rw [List.mem_cons, not_or] at hCr
    rw [createLoop]
    by_cases hNl : b = nl
    · subst hNl
      have hSplit := List.splitOn_append_cons_self_of_not_mem hLine.nl rest
      rw [hSplit] at hPlain ⊢
      have hNext := hSent.wordwrapSent hLine (hPlain line List.mem_cons_self)
      rcases ih hNext ⟨List.not_mem_nil, List.not_mem_nil⟩ hCr.2 (fun l hMem =>
          hPlain l (List.mem_cons_of_mem line hMem)) with
        ⟨lines, last, hLines, hBuffer, hLast, hOut⟩
      rw [List.nil_append] at hLines
      rw [if_pos rfl]
      refine ⟨line :: lines, last, ?_, hBuffer, hLast, ?_⟩
      · rw [hLines, List.cons_append]
      · rw [List.flatMap_cons, ← List.append_assoc]
        exact hOut
    · have hJoin : line ++ b :: rest = line ++ [b] ++ rest := List.append_cons line b rest
      have hMore : OneLine [b] := by
        constructor
        · rw [List.mem_singleton]
          exact fun hEq => hNl hEq.symm
        · rw [List.mem_singleton]
          exact hCr.1
      rw [if_neg hNl, hJoin]
      rw [hJoin] at hPlain
      exact ih hSent (hLine.append hMore) hCr.2 hPlain

theorem sent_alloc : Sent rfc2646createAlloc [] where
  linesize := rfl
  first := fun _ => ⟨rfl, rfl, rfl⟩
  later := by
    intro hNo
    cases hNo

/- The last line, and the newline at the end. -/
theorem reads_free {rfc : Create} (hSent : Sent rfc segments) (hLine : OneLine rfc.buffer)
    (hPlain : rfc.buffer.head? ≠ some (chr '>')) :
    ∃ all, Reads all (rfc2646createFree rfc) ∧ (segments ++ linePieces rfc.buffer = all ∨
          segments ++ linePieces rfc.buffer = all ++ [[]]) := by
  unfold rfc2646createFree
  by_cases hEmpty : rfc.buffer = []
  · have hNone : linePieces rfc.buffer = [[]] := by
      rw [hEmpty]
      rfl
    rw [if_pos hEmpty, hNone]
    cases hTime : rfc.sentFirsttime with
    | true =>
      rcases hSent.first hTime with ⟨hOut, hNil, _⟩
      refine ⟨[[]], ?_, Or.inl (by rw [hNil]; rfl)⟩
      have hRead := @reads_piece [] (bytes "\n") ⟨List.not_mem_nil, List.not_mem_nil⟩
        (Nat.zero_le _) (Or.inl rfl)
      simp only [Create.handler, hOut]
      exact hRead
    | false => exact ⟨segments, hSent.later hTime _ (Or.inl rfl), Or.inr rfl⟩
  · have hNext := hSent.wordwrapSent hLine hPlain
    rcases wordwrapSent_plain rfc hPlain with ⟨_, _, _, hTime, _⟩
    rw [if_neg hEmpty]
    exact ⟨segments ++ linePieces rfc.buffer, hNext.later hTime _ (Or.inl rfl), Or.inl rfl⟩

/- The lines that come out of the creator and the parser. -/
def flowedLines (calls : List (List Byte)) : List FlowedLine :=
  (rfc2646Parse rfc2646Alloc (rfc2646create.run calls)).handled

theorem readAs_all {reads : List FlowedLine} (hAll : List.Forall₂ ReadAs segments reads) :
    ((∀ read, read ∈ reads → read.quoteDepth = 0) ↔ Unquoted segments) ∧
      (Unquoted segments →
        reads.flatMap (fun read => words read.line) = segments.flatMap words) := by
  induction hAll with
  | nil =>
    refine ⟨?_, fun _ => rfl⟩
    unfold Unquoted
    simp
  | cons hRead hRest ih =>
    rename_i piece read more reads
    rw [List.forall_mem_cons, unquoted_cons, ih.1]
    have hHere : read.quoteDepth = 0 ↔ piece.head? ≠ some (chr '>') := by
      constructor
      · intro hZero hQuote
        have hPos := hRead.quoted hQuote
        omega
      · intro hPlain
        exact (hRead.plain hPlain).1
    rw [hHere]
    refine ⟨Iff.rfl, ?_⟩
    intro hUnquoted
    rw [List.flatMap_cons, List.flatMap_cons, (hRead.plain hUnquoted.1).2, ih.2 hUnquoted.2]

/- What becomes of all the lines of a text. -/
theorem lines_wrapped {lines : List (List Byte)}
    (hWords : ∀ line, line ∈ lines → ∀ word, word ∈ words line → word.length ≤ 76) :
    Wrapped (lines.flatMap linePieces) (lines.flatMap words) (lines.all safeLine) := by
  induction lines with
  | nil => exact Wrapped.nil
  | cons line rest ih =>
    have hLine : Wrapped (linePieces line) (words line) (safeLine line) := by
      rw [← words_lineText line]
      apply pieces_wrapped (by decide) (Nat.le_refl _)
      intro word hMem
      rw [words_lineText] at hMem
      exact hWords line List.mem_cons_self word hMem
    rw [List.flatMap_cons, List.flatMap_cons, List.all_cons]
    exact hLine.append (ih fun other hMem => hWords other (List.mem_cons_of_mem line hMem))

/- The pieces that the parser reads. -/
theorem flowedLines_readAs {calls : List (List Byte)} (hCr : cr ∉ calls.flatten)
    (hPlain : ∀ line, line ∈ calls.flatten.splitOn nl → line.head? ≠ some (chr '>')) :
    ∃ all, List.Forall₂ ReadAs all (flowedLines calls) ∧
        ((calls.flatten.splitOn nl).flatMap linePieces = all ∨
          (calls.flatten.splitOn nl).flatMap linePieces = all ++ [[]]) := by
  rcases @createLoop_reads rfc2646createAlloc [] sent_alloc []
    calls.flatten ⟨List.not_mem_nil, List.not_mem_nil⟩ hCr hPlain
    with
    ⟨lines, last, hLines, hBuffer, hLast, hSent⟩
  rw [List.nil_append] at hLines hSent
  have hPlainLast : last.head? ≠ some (chr '>') := by
    apply hPlain
    rw [hLines]
    exact List.mem_append_right lines List.mem_cons_self
  subst hBuffer
  rcases reads_free hSent hLast hPlainLast with ⟨all, hReads, hAll⟩
  rw [hLines, List.flatMap_append, List.flatMap_singleton]
  refine ⟨all, ?_, hAll⟩
  rcases hReads rfc2646Alloc rfl with ⟨reads, _, hOut, hAs⟩
  have hSame : flowedLines calls = reads := by
    unfold flowedLines
    rw [rfc2646create_run, hOut]
    rfl
  rw [hSame]
  exact hAs

/-
  The round trip of flowed text.  It fails when a piece that
  is not stuffed begins with a quote mark, and when a word is
  cut.
-/
theorem rfc2646_roundTrip_iff {calls : List (List Byte)} (hCr : cr ∉ calls.flatten)
    (hPlain : ∀ line, line ∈ calls.flatten.splitOn nl → line.head? ≠ some (chr '>'))
    (hWords : ∀ line, line ∈ calls.flatten.splitOn nl →
      ∀ word, word ∈ words line → word.length ≤ 76) :
    ((∀ read, read ∈ flowedLines calls → read.quoteDepth = 0) ∧
      (flowedLines calls).flatMap
          (fun read => words read.line) =
        (calls.flatten.splitOn nl).flatMap words) ↔
      ∀ line, line ∈ calls.flatten.splitOn nl → safeLine line = true := by
  rcases flowedLines_readAs hCr hPlain with ⟨all, hReads, hAll⟩
  have hWrapped := lines_wrapped hWords
  have hUnquoted : Unquoted all ↔ Unquoted ((calls.flatten.splitOn nl).flatMap linePieces) := by
    rcases hAll with hSame | hMore
    · rw [hSame]
    · rw [hMore, unquoted_append]
      simp [Unquoted]
  have hFlat : all.flatMap words = ((calls.flatten.splitOn nl).flatMap
        linePieces).flatMap words := by
    rcases hAll with hSame | hMore
    · rw [hSame]
    · rw [hMore, List.flatMap_append]
      simp [words]
  rcases readAs_all hReads with ⟨hDepth, hSame⟩
  rw [hDepth, ← List.all_eq_true]
  constructor
  · rintro ⟨hAllPlain, hOut⟩
    rw [hSame hAllPlain, hFlat] at hOut
    exact hWrapped.complete (hUnquoted.mp hAllPlain) (Nat.le_of_eq (congrArg List.length hOut))
  · intro hSafe
    rcases hWrapped.sound hSafe with ⟨hGood, hOut⟩
    have hAllPlain := hUnquoted.mpr hGood
    exact ⟨hAllPlain, by rw [hSame hAllPlain, hFlat, hOut]⟩

theorem rfc2646_roundTrip_paragraphs :
    ((∀ read, read ∈ flowedLines [bytes "From m", bytes "e\n\n- x"] → read.quoteDepth = 0) ∧
      (flowedLines [bytes "From m", bytes "e\n\n- x"]).flatMap
          (fun read => words read.line) =
        ([bytes "From m", bytes "e\n\n- x"].flatten.splitOn
          nl).flatMap words) :=
  (rfc2646_roundTrip_iff (by decide)
    (by decide) (by decide)).mpr
      (by decide)

/- A quote mark behind the blank of a line is not stuffed. -/
theorem rfc2646_roundTrip_quote_mark : ¬ ∀ calls : List (List Byte),
      cr ∉ calls.flatten → (∀ line, line ∈ calls.flatten.splitOn nl → line.head? ≠ some (chr '>')) →
        (∀ line, line ∈ calls.flatten.splitOn nl → ∀ word, word ∈ words line → word.length ≤ 76) →
        (∀ read, read ∈ flowedLines calls → read.quoteDepth = 0) ∧
          (flowedLines calls).flatMap
              (fun read => words read.line) =
            (calls.flatten.splitOn nl).flatMap words := by
  intro hAll
  have hBack := hAll [bytes " >x"] (by decide) (by decide) (by decide)
  revert hBack
  decide

end Wmail.Rfc2646
