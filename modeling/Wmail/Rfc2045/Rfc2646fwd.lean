import Wmail.Rfc2045.ParsedLines

/-
  Flowed text that is forwarded (rfc2646fwd.c), and how it is
  read again.

  The handlers never fail.  What the output handler gets is
  the concatenation of its calls.

  Key theorems include:
    * `fwd_reads`
    * `fwd_conserves`
-/

namespace Wmail.Rfc2646

/- `struct rfc2646fwd`. -/
structure Fwd where
  prevWas0depth : Bool
deriving DecidableEq

/- `rfc2646fwd_handler`, and what it passes on. -/
def rfc2646fwdHandler (r : Fwd) (p : FlowedLine) : Fwd × List Byte :=
  if 0 < p.quoteDepth then
    -- quoted text is copied verbatim
    (⟨false⟩,
      (if r.prevWas0depth then [nl] else []) ++
        (quoteLoop p.quoteDepth ++ chr ' ' :: p.line ++
          (if p.isflowed then [chr ' '] else []) ++ [nl]))
  else if p.line = [] then
    (⟨false⟩, if r.prevWas0depth then [nl, nl] else [nl])
  else if !r.prevWas0depth ∧ p.line = bytes "-- " ∧ !p.isflowed
  then
    (r, p.line)
  else
    (⟨p.isflowed⟩,
      (if r.prevWas0depth ∨ p.line.head? = some (chr '>') then
          [chr ' ']
        else
          []) ++
        p.line ++ (if p.isflowed then [] else [nl]))

/- `rfc2646fwd_free`. -/
def rfc2646fwdFree (r : Fwd) : List Byte :=
  if r.prevWas0depth then [nl] else []

/- The calls for these lines, from a state on. -/
def fwdFrom (r : Fwd) : List FlowedLine → List Byte
  | [] => rfc2646fwdFree r
  | p :: rest =>
    let (r, out) := rfc2646fwdHandler r p
    out ++ fwdFrom r rest

/- The calls for these lines, after `rfc2646fwd_alloc`. -/
def rfc2646fwd (lines : List FlowedLine) : List Byte :=
  fwdFrom ⟨false⟩ lines

/- `rfc2646_free`: a line may have been read in part. -/
def rfc2646Free (p : Parser) : Parser :=
  if p.parseMode ≠ .start then rfc2646Parse p [nl] else p

variable {p : Parser}

theorem rfc2646Free_start (hStart : p.parseMode = .start) : rfc2646Free p = p :=
  if_neg (not_not.mpr hStart)

/- The lines that are read in the forwarded text. -/
def forwarded (lines : List FlowedLine) : List FlowedLine :=
  (rfc2646Free (rfc2646Parse rfc2646Alloc
    (rfc2646fwd lines))).handled

/- The words of a line, at its depth. -/
def FlowedLine.said (l : FlowedLine) : List (Nat × List Byte) :=
  (words l.line).map (l.quoteDepth, ·)

/-
  A line is read that has the words of these lines.  They are
  of one depth, and all but the last one are flowed.
-/
structure JoinedFrom (group : List FlowedLine) (read : FlowedLine) : Prop where
  said : read.said = group.flatMap FlowedLine.said
  depth : ∀ l, l ∈ group → l.quoteDepth = read.quoteDepth
  flowed : ∀ l, l ∈ group.dropLast → l.isflowed = true

/- Every line that is read is from lines next to each other. -/
def Forwards (lines : List FlowedLine) : Prop :=
  (forwarded lines).flatMap FlowedLine.said = lines.flatMap FlowedLine.said ∧
    ∃ groups, groups.flatten = lines ∧ List.Forall₂ JoinedFrom groups (forwarded lines)

/- Lines that are joined to one when they are forwarded. -/
structure Paragraph (group : List FlowedLine) : Prop where
  plain : ∀ l, l ∈ group → l.quoteDepth = 0 ∧ l.line ≠ []
  flowed : ∀ l, l ∈ group.dropLast → l.isflowed = true

/- The text of a paragraph. -/
def joinedText (group : List FlowedLine) : List Byte :=
  [chr ' '].intercalate (group.map FlowedLine.line)

/- A line that the next one may be joined to. -/
def Continues (l : FlowedLine) : Prop :=
  l.quoteDepth = 0 ∧ l.line ≠ [] ∧ l.isflowed = true

/- The separator in front of a signature, on its own. -/
def IsSeparator (l : FlowedLine) : Prop :=
  l.quoteDepth = 0 ∧ l.line = bytes "-- " ∧ l.isflowed = false

/- The words are the same at every depth. -/
theorem Forall₂_said {groups : List (List FlowedLine)} {reads : List FlowedLine}
    (hReads : List.Forall₂ JoinedFrom groups reads) :
    reads.flatMap FlowedLine.said = groups.flatten.flatMap FlowedLine.said := by
  induction hReads with
  | nil => rfl
  | cons hFirst hRest ih =>
    rw [List.flatMap_cons, List.flatten_cons, List.flatMap_append, ih, hFirst.said]

variable {group : List FlowedLine}

theorem said_group {depth : Nat} (hDepth : ∀ l, l ∈ group → l.quoteDepth = depth) :
    group.flatMap FlowedLine.said = (group.flatMap fun l => words l.line).map (depth, ·) := by
  induction group with
  | nil => rfl
  | cons l rest ih =>
    have hHere := hDepth l List.mem_cons_self
    have hRest := ih fun k hMem => hDepth k (List.mem_cons_of_mem l hMem)
    rw [List.flatMap_cons, List.flatMap_cons, List.map_append, hRest, FlowedLine.said, hHere]

/- The end of a line with the words of a group. -/
theorem endLine_joined {q : Parser} (hDepth : ∀ l, l ∈ group → l.quoteDepth = q.quoteDepth)
    (hWords : words q.line = group.flatMap fun l => words l.line)
    (hFlowed : ∀ l, l ∈ group.dropLast → l.isflowed = true) :
    ∃ read, q.endLine.parseMode = .start ∧ q.endLine.handled = q.handled ++ [read] ∧
        JoinedFrom group read := by
  rcases endLine_words q with ⟨read, hMode, hHandled, hSame, hRead⟩
  refine ⟨read, hMode, hHandled, ?_, ?_, hFlowed⟩
  · rw [said_group hDepth, FlowedLine.said, hSame, hRead, hWords]
  · intro l hMem
    rw [hSame]
    exact hDepth l hMem

variable {l : FlowedLine}

/- The end of a line that is one line that was forwarded. -/
theorem endLine_single {q : Parser} (hDepth : q.quoteDepth = l.quoteDepth)
    (hWords : words q.line = words l.line) :
    ∃ read, q.endLine.parseMode = .start ∧ q.endLine.handled = q.handled ++ [read] ∧
        JoinedFrom [l] read := by
  apply endLine_joined
  · intro k hMem
    rw [List.mem_singleton.mp hMem, hDepth]
  · rw [List.flatMap_singleton, hWords]
  · exact nofun

/- The quote marks at the beginning of a line are counted. -/
theorem parse_marks (hStart : p.parseMode = .start) (depth : Nat) :
    rfc2646Parse p (List.replicate (depth + 1) (chr '>')) =
      { p with
        quoteDepth := depth + 1
        parseMode := .quotecnt
        line := [] } := by
  have hFirst : p.step (chr '>') =
      { p with
        quoteDepth := 1
        parseMode := .quotecnt
        line := [] } := by
    unfold Parser.step
    rw [if_neg (by decide), if_pos hStart]
    rfl
  induction depth with
  | zero => exact hFirst
  | succ depth ih =>
    rw [List.replicate_succ', rfc2646Parse_append, ih]
    rfl

theorem oneLine_blank : OneLine [chr ' '] := by
  decide

/- A quoted line, as it is copied. -/
def quotedLine (l : FlowedLine) : List Byte :=
  quoteLoop l.quoteDepth ++ chr ' ' :: l.line ++ (if l.isflowed then [chr ' '] else []) ++ [nl]

/- A quoted line is read as it was. -/
theorem parse_quotedLine (hStart : p.parseMode = .start) (hParsed : l.Parsed)
    (hQuoted : 0 < l.quoteDepth) :
    ∃ read, (rfc2646Parse p (quotedLine l)).parseMode = .start ∧
        (rfc2646Parse p (quotedLine l)).handled = p.handled ++ [read] ∧
        JoinedFrom [l] read := by
  rcases Nat.exists_eq_succ_of_ne_zero hQuoted.ne' with ⟨depth, hDepth⟩
  have hMarks : rfc2646Parse p (quoteLoop l.quoteDepth) =
      { p with
        quoteDepth := l.quoteDepth
        parseMode := .quotecnt
        line := [] } := by
    rw [quoteLoop_eq, hDepth]
    exact parse_marks hStart depth
  have hBlank : ∀ q : Parser, q.parseMode = .quotecnt →
      q.step (chr ' ') = { q with parseMode := .line } := by
    rintro ⟨quoteDepth, parseMode, line, handled⟩ hMode
    have hSame : parseMode = .quotecnt := hMode
    subst hSame
    unfold Parser.step
    rw [if_neg (by decide)]
    rfl
  have hBody : ∃ body, quotedLine l = quoteLoop l.quoteDepth ++ (chr ' ' :: (body ++ [nl])) ∧
        OneLine body ∧ body.length ≤ 4095 ∧
        words body = words l.line := by
    refine ⟨l.line ++ (if l.isflowed then [chr ' '] else []), ?_, ?_, ?_, ?_⟩
    · simp only [quotedLine, List.append_assoc, List.cons_append]
    · cases l.isflowed with
      | true => exact hParsed.oneLine.append oneLine_blank
      | false => exact hParsed.oneLine.append oneLine_nil
    · have hRoom := hParsed.room
      cases hFlowed : l.isflowed with
      | true =>
        rw [hFlowed] at hRoom
        rw [List.length_append]
        exact hRoom
      | false =>
        rw [hFlowed] at hRoom
        rw [List.length_append]
        exact hRoom
    · cases l.isflowed with
      | true => exact wordsOf_append_seps (by simp) _
      | false => exact congrArg words (List.append_nil _)
  rcases hBody with ⟨body, hSplit, hLine, hRoom, hWords⟩
  have hInLine := parse_in_line
    (p := { p with
      quoteDepth := l.quoteDepth
      parseMode := .line
      line := [] }) rfl hLine (by simpa using hRoom)
  rw [hSplit, rfc2646Parse_append, hMarks, rfc2646Parse_cons, hBlank _ rfl, rfc2646Parse_append,
    hInLine, rfc2646Parse_cons, rfc2646Parse_nil, step_nl_of_line]
  · exact endLine_single rfl hWords
  · exact fun hNo => nomatch hNo

/- The beginning of a line that is not quoted. -/
theorem parse_textLine (hStart : p.parseMode = .start) (hParsed : l.Parsed)
    (hSome : l.line ≠ []) :
    ∃ q, rfc2646Parse p ((if l.line.head? = some (chr '>') then
              [chr ' ']
            else
              []) ++ l.line) = q ∧
        q.parseMode = .line ∧ q.quoteDepth = 0 ∧
        q.handled = p.handled ∧ words q.line = words l.line ∧
        q.line.length ≤ l.line.length := by
  have hRoom : l.line.length ≤ 4095 := Nat.le_trans (Nat.le_add_right _ _) hParsed.room
  split
  · have hBlank : p.step (chr ' ') =
        { p with
          quoteDepth := 0
          parseMode := .line
          line := [] } := by
      unfold Parser.step
      rw [if_neg (by decide), if_pos hStart]
      rfl
    refine ⟨_, rfl, ?_⟩
    have hInLine := parse_in_line
      (p := { p with
        quoteDepth := 0
        parseMode := .line
        line := [] }) rfl hParsed.oneLine (by simpa using hRoom)
    rw [rfc2646Parse_append, rfc2646Parse_cons, rfc2646Parse_nil, hBlank, hInLine]
    exact ⟨rfl, rfl, rfl, rfl, Nat.le_refl _⟩
  · rename_i hPlain
    refine ⟨_, rfl, ?_⟩
    rw [List.nil_append, parse_line_start hStart hParsed.oneLine hSome hPlain hRoom]
    refine ⟨rfl, rfl, rfl, words_dropBlank l.line, ?_⟩
    unfold dropBlank
    split
    · exact Nat.le_trans (Nat.le_of_eq (List.length_drop ..)) (Nat.sub_le _ _)
    · exact Nat.le_refl _

------------
-- Reading All Lines
------------

section Calls

variable (b : Bool) (l : FlowedLine) (rest : List FlowedLine)

/- The end of a line that was still open. -/
def closing : List Byte :=
  if b then [nl] else []

theorem fwd_quoted (hQuoted : 0 < l.quoteDepth) :
    fwdFrom ⟨b⟩ (l :: rest) = closing b ++ (quotedLine l ++ fwdFrom ⟨false⟩ rest) := by
  rw [fwdFrom, rfc2646fwdHandler, if_pos hQuoted]
  simp only [closing, quotedLine, List.append_assoc]

theorem fwd_empty (hPlain : l.quoteDepth = 0) (hEmpty : l.line = []) :
    fwdFrom ⟨b⟩ (l :: rest) = closing b ++ (nl :: fwdFrom ⟨false⟩ rest) := by
  rw [fwdFrom, rfc2646fwdHandler, if_neg (by omega), if_pos hEmpty]
  cases b with
  | false => rfl
  | true => rfl

theorem fwd_separator (hSeparator : IsSeparator l) : fwdFrom ⟨false⟩ (l :: rest) =
      bytes "-- " ++ fwdFrom ⟨false⟩ rest := by
  rcases hSeparator with ⟨hPlain, hLine, hFixed⟩
  rw [fwdFrom, rfc2646fwdHandler, if_neg (by omega), if_neg, if_pos]
  · simp only [hLine]
  · rw [hLine, hFixed]
    exact ⟨rfl, rfl, rfl⟩
  · rw [hLine]
    decide

theorem fwd_text (hPlain : l.quoteDepth = 0) (hSome : l.line ≠ [])
    (hText : b = true ∨ ¬IsSeparator l) :
    fwdFrom ⟨b⟩ (l :: rest) = (if b = true ∨ l.line.head? = some (chr '>') then
          [chr ' ']
        else
          []) ++ l.line ++
        ((if l.isflowed then [] else [nl]) ++ fwdFrom ⟨l.isflowed⟩ rest) := by
  rw [fwdFrom, rfc2646fwdHandler, if_neg (by omega), if_neg hSome, if_neg]
  · simp only [List.append_assoc]
  · rintro ⟨hFirst, hLine, hFixed⟩
    rcases hText with hPrev | hOther
    · rw [hPrev] at hFirst
      cases hFirst
    · apply hOther
      refine ⟨hPlain, hLine, ?_⟩
      simpa using hFixed

end Calls

/- What one more line adds to a paragraph. -/
theorem joinedText_concat (hSome : group ≠ []) (l : FlowedLine) :
    joinedText (group ++ [l]) = joinedText group ++ chr ' ' :: l.line := by
  induction group with
  | nil => exact absurd rfl hSome
  | cons k rest ih =>
    cases rest with
    | nil => simp [joinedText]
    | cons j more =>
      have hMore := ih (List.cons_ne_nil j more)
      unfold joinedText at hMore ⊢
      simp only [List.cons_append, List.map_cons, List.intercalate_cons_cons, List.append_assoc]
        at hMore ⊢
      rw [hMore]

/-
  What forwarding relies on: a paragraph fits into the line
  buffer of the parser, and a separator on its own comes last.
-/
structure Forwardable (lines : List FlowedLine) : Prop where
  parsed : ∀ l, l ∈ lines → l.Parsed
  room : ∀ group, group <:+: lines → Paragraph group → (joinedText group).length ≤ 4095
  separators : ∀ front l next back, lines = front ++ l :: next :: back → IsSeparator l →
        ∃ k, front.getLast? = some k ∧ Continues k

/- The end of reading, from a state of the parser on. -/
def fwdRead (p : Parser) (b : Bool) (rest : List FlowedLine) : Parser :=
  rfc2646Free (rfc2646Parse p (fwdFrom ⟨b⟩ rest))

/- The rest is read as lines of its own. -/
def ClosedReads (rest : List FlowedLine) (p : Parser) : Prop :=
  ∃ groups reads, groups.flatten = rest ∧ (fwdRead p false rest).handled = p.handled ++ reads ∧
      List.Forall₂ JoinedFrom groups reads

/- Some of the rest is read together with what is open. -/
def OpenReads (group rest : List FlowedLine) (p : Parser) : Prop :=
  ∃ more groups reads, more ++ groups.flatten = rest ∧
      (fwdRead p true rest).handled = p.handled ++ reads ∧
      List.Forall₂ JoinedFrom ((group ++ more) :: groups) reads

/- The paragraph that the parser has read a part of. -/
structure OpenGroup (group : List FlowedLine) (p : Parser) : Prop where
  some : group ≠ []
  lines : ∀ l, l ∈ group → Continues l
  mode : p.parseMode = .line
  depth : p.quoteDepth = 0
  words : words p.line = group.flatMap fun l => words l.line
  room : p.line.length ≤ (joinedText group).length

theorem OpenGroup.endLine (hOpen : OpenGroup group p) :
    ∃ read, (p.step nl).parseMode = .start ∧ (p.step nl).handled = p.handled ++ [read] ∧
        JoinedFrom group read := by
  rw [step_nl_of_line (by rw [hOpen.mode]; nofun)]
  apply endLine_joined
  · intro l hMem
    rw [hOpen.depth]
    exact (hOpen.lines l hMem).1
  · exact hOpen.words
  · intro l hMem
    exact (hOpen.lines l (List.dropLast_subset group hMem)).2.2

/- A line that is read on its own. -/
theorem ClosedReads.cons {l : FlowedLine} {rest : List FlowedLine} {p : Parser}
    {text : List Byte} {read : FlowedLine}
    (hText : fwdFrom ⟨false⟩ (l :: rest) = text ++ fwdFrom ⟨false⟩ rest)
    (hHandled : (rfc2646Parse p text).handled = p.handled ++ [read]) (hRead : JoinedFrom [l] read)
    (hRest : ClosedReads rest (rfc2646Parse p text)) :
    ClosedReads (l :: rest) p := by
  rcases hRest with ⟨groups, reads, hFlat, hOut, hAll⟩
  refine ⟨[l] :: groups, read :: reads, ?_, ?_, List.Forall₂.cons hRead hAll⟩
  · rw [List.flatten_cons, hFlat]
    rfl
  · unfold fwdRead at hOut ⊢
    rw [hText, rfc2646Parse_append, hOut, hHandled, List.append_assoc]
    rfl

/- The end of a paragraph, and lines of their own. -/
theorem OpenReads.close {group rest : List FlowedLine} (hOpen : OpenGroup group p)
    (hText : fwdFrom ⟨true⟩ rest = nl :: fwdFrom ⟨false⟩ rest)
    (hRest : ∀ q : Parser, q.parseMode = .start → ClosedReads rest q) : OpenReads group rest p := by
  rcases hOpen.endLine with ⟨read, hMode, hHandled, hRead⟩
  rcases hRest _ hMode with ⟨groups, reads, hFlat, hOut, hAll⟩
  refine ⟨[], groups, read :: reads, hFlat, ?_, ?_⟩
  · unfold fwdRead at hOut ⊢
    rw [hText, rfc2646Parse_cons, hOut, hHandled, List.append_assoc]
    rfl
  · rw [List.append_nil]
    exact List.Forall₂.cons hRead hAll

/- A paragraph is opened, and goes on. -/
theorem ClosedReads.open {rest : List FlowedLine} {text : List Byte}
    (hText : fwdFrom ⟨false⟩ (l :: rest) = text ++ fwdFrom ⟨true⟩ rest)
    (hHandled : (rfc2646Parse p text).handled = p.handled)
    (hRest : OpenReads [l] rest (rfc2646Parse p text)) : ClosedReads (l :: rest) p := by
  rcases hRest with ⟨more, groups, reads, hFlat, hOut, hAll⟩
  refine ⟨([l] ++ more) :: groups, reads, ?_, ?_, hAll⟩
  · rw [List.flatten_cons, List.append_assoc, hFlat]
    rfl
  · unfold fwdRead at hOut ⊢
    rw [hText, rfc2646Parse_append, hOut, hHandled]

/- A line is added to what is open. -/
theorem OpenReads.cons {group rest : List FlowedLine} {l : FlowedLine} {p : Parser}
    {text : List Byte} (hText : fwdFrom ⟨true⟩ (l :: rest) = text ++ fwdFrom ⟨true⟩ rest)
    (hHandled : (rfc2646Parse p text).handled = p.handled)
    (hRest : OpenReads (group ++ [l]) rest
      (rfc2646Parse p text)) : OpenReads group (l :: rest) p := by
  rcases hRest with ⟨more, groups, reads, hFlat, hOut, hAll⟩
  refine ⟨l :: more, groups, reads, ?_, ?_, ?_⟩
  · rw [List.cons_append, hFlat]
  · unfold fwdRead at hOut ⊢
    rw [hText, rfc2646Parse_append, hOut, hHandled]
  · rw [List.append_assoc] at hAll
    exact hAll

/- The last line of a paragraph. -/
theorem OpenReads.last {group rest : List FlowedLine} {l read : FlowedLine} {text : List Byte}
    (hText : fwdFrom ⟨true⟩ (l :: rest) = text ++ fwdFrom ⟨false⟩ rest)
    (hHandled : (rfc2646Parse p text).handled = p.handled ++ [read])
    (hRead : JoinedFrom (group ++ [l]) read) (hRest : ClosedReads rest (rfc2646Parse p text)) :
    OpenReads group (l :: rest) p := by
  rcases hRest with ⟨groups, reads, hFlat, hOut, hAll⟩
  refine ⟨[l], groups, read :: reads, ?_, ?_, List.Forall₂.cons hRead hAll⟩
  · rw [hFlat]
    rfl
  · unfold fwdRead at hOut ⊢
    rw [hText, rfc2646Parse_append, hOut, hHandled, List.append_assoc]
    rfl

/- A separator that comes next is on its own. -/
def Fresh (before rest : List FlowedLine) : Prop :=
  ∀ l, rest.head? = some l → IsSeparator l → ∀ k, before.getLast? = some k → ¬Continues k

theorem fresh_concat (hEnds : ¬Continues l) (before rest : List FlowedLine) :
    Fresh (before ++ [l]) rest := by
  intro _ _ _ k hLast
  rw [List.getLast?_concat] at hLast
  rw [← Option.some.inj hLast]
  exact hEnds

/- An empty line. -/
theorem parse_emptyLine (hStart : p.parseMode = .start) (hPlain : l.quoteDepth = 0)
    (hEmpty : l.line = []) :
    ∃ read, (rfc2646Parse p [nl]).parseMode = .start ∧
        (rfc2646Parse p [nl]).handled = p.handled ++ [read] ∧
        JoinedFrom [l] read := by
  have hStep : p.step nl = Parser.endLine
        { p with
          quoteDepth := 0
          parseMode := .quotecnt
          line := [] } := by
    unfold Parser.step
    rw [if_neg (by decide), if_pos hStart]
    rfl
  rw [rfc2646Parse_cons, rfc2646Parse_nil, hStep]
  apply endLine_single
  · exact hPlain.symm
  · rw [hEmpty]

/- A separator at the end is read by `rfc2646_free`. -/
theorem separator_reads (hStart : p.parseMode = .start) (hSeparator : IsSeparator l) :
    ClosedReads [l] p := by
  have hLine : rfc2646Parse p (fwdFrom ⟨false⟩ [l]) =
      { p with
        quoteDepth := 0
        parseMode := .line
        line := bytes "-- " } := by
    rw [fwd_separator l [] hSeparator]
    exact parse_line_start hStart (by decide) (by decide) (by decide) (by decide)
  have hEnd : (fwdRead p false [l]) = Parser.endLine
        { p with
          quoteDepth := 0
          parseMode := .line
          line := bytes "-- " } := by
    unfold fwdRead rfc2646Free
    rw [hLine, if_pos]
    · rw [rfc2646Parse_cons, rfc2646Parse_nil, step_nl_of_line]
      exact fun hNo => nomatch hNo
    · exact fun hNo => nomatch hNo
  rcases endLine_single
    (q := { p with
      quoteDepth := 0
      parseMode := .line
      line := bytes "-- " })
    hSeparator.1.symm (by rw [hSeparator.2.1]) with
    ⟨read, _, hHandled, hRead⟩
  refine ⟨[[l]], [read], rfl, ?_, List.Forall₂.cons hRead List.Forall₂.nil⟩
  rw [hEnd, hHandled]

/- The next line, when no line is open. -/
theorem closed_cons {lines before rest : List FlowedLine} (hLines : Forwardable lines)
    (hSplit : lines = before ++ l :: rest)
    (hClosed : ∀ q : Parser, q.parseMode = .start → Fresh (before ++ [l]) rest → ClosedReads rest q)
    (hOpened : ∀ q : Parser, OpenGroup [l] q → OpenReads [l] rest q) (hStart : p.parseMode = .start)
    (hFresh : Fresh before (l :: rest)) : ClosedReads (l :: rest) p := by
  have hParsed : l.Parsed := by
    apply hLines.parsed
    rw [hSplit]
    exact List.mem_append_right before List.mem_cons_self
  rcases Nat.eq_zero_or_pos l.quoteDepth with hPlain | hQuoted
  · by_cases hEmpty : l.line = []
    · rcases parse_emptyLine hStart hPlain hEmpty with ⟨read, hMode, hHandled, hRead⟩
      apply ClosedReads.cons _ hHandled hRead
      · exact hClosed _ hMode (fresh_concat (fun hMore => hMore.2.1 hEmpty) _ _)
      · exact fwd_empty false l rest hPlain hEmpty
    by_cases hSeparator : IsSeparator l
    · cases rest with
      | nil => exact separator_reads hStart hSeparator
      | cons next back =>
        rcases hLines.separators before l next back hSplit hSeparator with ⟨k, hLast, hMore⟩
        exact absurd hMore (hFresh l rfl hSeparator k hLast)
    · rcases parse_textLine hStart hParsed hEmpty with
        ⟨q, hText, hMode, hDepth, hHandled, hWords, hRoom⟩
      have hOut := fwd_text false l rest hPlain hEmpty (Or.inr hSeparator)
      simp only [Bool.false_eq_true, false_or] at hOut
      cases hFlowed : l.isflowed with
      | true =>
        rw [hFlowed] at hOut
        apply ClosedReads.open hOut
        · rw [hText, hHandled]
        · rw [hText]
          apply hOpened
          refine ⟨List.cons_ne_nil l [], ?_, hMode, hDepth, ?_, ?_⟩
          · intro k hMem
            rw [List.mem_singleton.mp hMem]
            exact ⟨hPlain, hEmpty, hFlowed⟩
          · rw [List.flatMap_singleton, hWords]
          · simpa [joinedText] using hRoom
      | false =>
        rw [hFlowed] at hOut
        rcases endLine_single (hDepth.trans hPlain.symm) hWords with ⟨read, hNext, hEnd, hRead⟩
        have hLine : rfc2646Parse p ((if l.line.head? = some (chr '>') then
                [chr ' ']
              else
                []) ++ l.line ++ [nl]) = q.endLine := by
          rw [rfc2646Parse_append, hText, rfc2646Parse_cons, rfc2646Parse_nil, step_nl_of_line]
          rw [hMode]
          exact nofun
        apply ClosedReads.cons (hOut.trans _) _ hRead
        · rw [hLine]
          exact hClosed _ hNext (fresh_concat (fun hMore => nomatch hFlowed.symm.trans hMore.2.2)
            _ _)
        · exact (List.append_assoc _ _ _).symm
        · rw [hLine, hEnd, hHandled]
  · rcases parse_quotedLine hStart hParsed hQuoted with ⟨read, hMode, hHandled, hRead⟩
    apply ClosedReads.cons _ hHandled hRead
    · exact hClosed _ hMode (fresh_concat (fun hMore => hQuoted.ne' hMore.1) _ _)
    · exact fwd_quoted false l rest hQuoted

/- The next line, when a paragraph is open. -/
theorem open_cons {lines before rest : List FlowedLine} (hLines : Forwardable lines)
    (hSplit : lines = before ++ l :: rest)
    (hNow : ∀ q : Parser, q.parseMode = .start →
      Fresh before (l :: rest) → ClosedReads (l :: rest) q)
    (hClosed : ∀ q : Parser, q.parseMode = .start →
      Fresh (before ++ [l]) rest → ClosedReads rest q) (hSuffix : group <:+ before)
    (hOpened : ∀ q : Parser, OpenGroup (group ++ [l]) q → OpenReads (group ++ [l]) rest q)
    (hOpen : OpenGroup group p) : OpenReads group (l :: rest) p := by
  have hParsed : l.Parsed := by
    apply hLines.parsed
    rw [hSplit]
    exact List.mem_append_right before List.mem_cons_self
  -- a line without text ends the paragraph
  have hEnd : ¬(l.quoteDepth = 0 ∧ l.line ≠ []) →
      fwdFrom ⟨true⟩ (l :: rest) = nl :: fwdFrom ⟨false⟩ (l :: rest) →
        OpenReads group (l :: rest) p := by
    intro hOther hText
    apply OpenReads.close hOpen hText
    intro q hStart
    apply hNow q hStart
    intro k hHead hSeparator
    rw [← Option.some.inj hHead] at hSeparator
    exact absurd ⟨hSeparator.1, by rw [hSeparator.2.1]; decide⟩ hOther
  rcases Nat.eq_zero_or_pos l.quoteDepth with hPlain | hQuoted
  · by_cases hEmpty : l.line = []
    · apply hEnd fun hText => hText.2 hEmpty
      rw [fwd_empty true l rest hPlain hEmpty, fwd_empty false l rest hPlain hEmpty]
      rfl
    have hGroup : Paragraph (group ++ [l]) := by
      constructor
      · intro k hMem
        rcases List.mem_append.mp hMem with hOld | hNew
        · have hLine := hOpen.lines k hOld
          exact ⟨hLine.1, hLine.2.1⟩
        · rw [List.mem_singleton.mp hNew]
          exact ⟨hPlain, hEmpty⟩
      · intro k hMem
        rw [List.dropLast_concat] at hMem
        exact (hOpen.lines k hMem).2.2
    have hLength := hLines.room (group ++ [l]) (by
        rcases hSuffix with ⟨early, rfl⟩
        exact ⟨early, rest, by rw [hSplit]; simp⟩)
      hGroup
    rw [joinedText_concat hOpen.some, List.length_append] at hLength
    have hRoom := hOpen.room
    have hLine : rfc2646Parse p (chr ' ' :: l.line) =
        { p with line := p.line ++ chr ' ' :: l.line } := by
      apply parse_in_line hOpen.mode
      · exact oneLine_blank.append hParsed.oneLine
      · omega
    have hWords : words (p.line ++ chr ' ' :: l.line) =
        (group ++ [l]).flatMap fun l => words l.line := by
      rw [List.flatMap_append, ← hOpen.words, List.flatMap_singleton]
      exact wordsOf_append_sep (chr ' ') p.line l.line
    have hOut := fwd_text true l rest hPlain hEmpty (Or.inl rfl)
    simp only [true_or, if_true] at hOut
    cases hFlowed : l.isflowed with
    | true =>
      rw [hFlowed] at hOut
      apply OpenReads.cons hOut
      · rw [List.singleton_append, hLine]
      · apply hOpened
        rw [List.singleton_append, hLine]
        refine ⟨by simp, ?_, hOpen.mode, hOpen.depth, hWords, ?_⟩
        · intro k hMem
          rcases List.mem_append.mp hMem with hOld | hNew
          · exact hOpen.lines k hOld
          · rw [List.mem_singleton.mp hNew]
            exact ⟨hPlain, hEmpty, hFlowed⟩
        · rw [joinedText_concat hOpen.some]
          simp only [List.length_append]
          omega
    | false =>
      rw [hFlowed] at hOut
      have hDepth : ∀ k, k ∈ group ++ [l] → k.quoteDepth = 0 :=
        fun k hMem => (hGroup.plain k hMem).1
      have hEnding := endLine_joined (q := { p with line := p.line ++ chr ' ' :: l.line })
        (fun k hMem => (hDepth k hMem).trans hOpen.depth.symm)
        hWords hGroup.flowed
      rcases hEnding with ⟨read, hMode, hHandled, hRead⟩
      have hAll : rfc2646Parse p ([chr ' '] ++ l.line ++ [nl]) = Parser.endLine
              { p with
                line := p.line ++ chr ' ' :: l.line } := by
        rw [rfc2646Parse_append, List.singleton_append, hLine, rfc2646Parse_cons, rfc2646Parse_nil,
          step_nl_of_line]
        simp only [hOpen.mode]
        exact nofun
      apply OpenReads.last (hOut.trans _) _ hRead
      · rw [hAll]
        exact hClosed _ hMode (fresh_concat (fun hMore => nomatch hFlowed.symm.trans hMore.2.2)
          _ _)
      · exact (List.append_assoc _ _ _).symm
      · rw [hAll, hHandled]
  · apply hEnd fun hText => hQuoted.ne' hText.1
    rw [fwd_quoted true l rest hQuoted, fwd_quoted false l rest hQuoted]
    rfl

theorem fwd_reads {lines : List FlowedLine} (hLines : Forwardable lines)
    (before rest : List FlowedLine) (hSplit : lines = before ++ rest) :
    (∀ p : Parser, p.parseMode = .start →
      Fresh before rest → ClosedReads rest p) ∧
      ∀ group, group <:+ before → ∀ p : Parser, OpenGroup group p → OpenReads group rest p := by
  induction rest generalizing before with
  | nil =>
    constructor
    · intro p hStart _
      refine ⟨[], [], rfl, ?_, List.Forall₂.nil⟩
      have hSame : fwdRead p false [] = p := rfc2646Free_start hStart
      rw [hSame, List.append_nil]
    · intro group _ p hOpen
      rcases hOpen.endLine with ⟨read, hMode, hHandled, hRead⟩
      refine ⟨[], [], [read], rfl, ?_, ?_⟩
      · have hSame : fwdRead p true [] = p.step nl := rfc2646Free_start hMode
        rw [hSame, hHandled]
      · rw [List.append_nil]
        exact List.Forall₂.cons hRead List.Forall₂.nil
  | cons l rest ih =>
    have hNext : lines = (before ++ [l]) ++ rest := by
      rw [hSplit, List.append_assoc]
      rfl
    rcases ih (before ++ [l]) hNext with ⟨hClosed, hOpened⟩
    have hNow : ∀ p : Parser, p.parseMode = .start →
        Fresh before (l :: rest) → ClosedReads (l :: rest) p := by
      intro p hStart hFresh
      exact closed_cons hLines hSplit hClosed (fun q => hOpened [l] (List.suffix_append _ _) q)
        hStart hFresh
    refine ⟨hNow, fun group hSuffix p hOpen => ?_⟩
    apply open_cons hLines hSplit hNow hClosed hSuffix _ hOpen
    apply hOpened
    rcases hSuffix with ⟨early, rfl⟩
    exact ⟨early, (List.append_assoc _ _ _).symm⟩

/- Whatever is forwarded is read again, line by line. -/
theorem fwd_conserves {lines : List FlowedLine} (hLines : Forwardable lines) :
    Forwards lines := by
  have hFresh : Fresh [] lines := by
    intro _ _ _ k hLast
    cases hLast
  rcases (fwd_reads hLines [] lines rfl).1 rfc2646Alloc rfl
    hFresh with ⟨groups, reads, hFlat, hHandled, hAll⟩
  have hReads : forwarded lines = reads := hHandled
  refine ⟨?_, groups, hFlat, ?_⟩
  · rw [hReads, ← hFlat]
    exact Forall₂_said hAll
  · rw [hReads]
    exact hAll

theorem length_joinedText_le {n : Nat} (hShort : ∀ l, l ∈ group → l.line.length ≤ n) :
    (joinedText group).length ≤ group.length * (n + 1) := by
  induction group using List.reverseRecOn with
  | nil => exact Nat.zero_le _
  | append_singleton front l ih =>
    have hLast := hShort l (List.mem_append_right front List.mem_cons_self)
    have hFront := ih fun k hMem => hShort k (List.mem_append_left _ hMem)
    rw [List.length_append, List.length_singleton, Nat.succ_mul]
    by_cases hNil : front = []
    · rw [hNil]
      simp only [List.nil_append, joinedText, List.map_cons,
        List.map_nil, List.intercalate_singleton]
      omega
    · rw [joinedText_concat hNil, List.length_append, List.length_cons]
      omega

/- A paragraph, and a separator that is quoted. -/
theorem fwd_conserves_three : Forwards [⟨0, true, bytes "a b"⟩, ⟨0, false, bytes "c"⟩,
      ⟨2, false, bytes "-- "⟩] := by
  have hAll : ∀ l : FlowedLine, l ∈ [FlowedLine.mk 0 true (bytes "a b"),
          ⟨0, false, bytes "c"⟩, ⟨2, false, bytes "-- "⟩] →
        l.Parsed ∧ l.line.length ≤ 3 ∧ ¬IsSeparator l := by
    intro l hMem
    simp only [List.mem_cons, List.not_mem_nil, or_false] at hMem
    rcases hMem with rfl | rfl | rfl
    · exact ⟨by decide, by decide, fun hIs => nomatch hIs.2.2⟩
    · exact ⟨by decide, by decide, fun hIs => by
          exact absurd hIs.2.1 (by decide)⟩
    · exact ⟨by decide, by decide, fun hIs => nomatch hIs.1⟩
  apply fwd_conserves
  constructor
  · exact fun l hMem => (hAll l hMem).1
  · intro group hPart _
    have hLength := length_joinedText_le fun l hMem => (hAll l (hPart.subset hMem)).2.1
    have hSize : group.length ≤ 3 := hPart.length_le
    omega
  · intro front l next back hSplit hSeparator
    refine absurd hSeparator (hAll l ?_).2.2
    rw [hSplit]
    exact List.mem_append_right front List.mem_cons_self

/- What does not fit into the line buffer is dropped. -/
theorem parse_full (hMode : p.parseMode = .line) (hFull : 4095 ≤ p.line.length)
    {text : List Byte} (hText : OneLine text) : rfc2646Parse p text = p := by
  induction text with
  | nil => rfl
  | cons b rest ih =>
    have hCr : b ≠ cr := by
      rintro rfl
      exact hText.cr List.mem_cons_self
    have hNl : b ≠ nl := by
      rintro rfl
      exact hText.nl List.mem_cons_self
    have hStep : p.step b = p := by
      rcases p with ⟨quoteDepth, parseMode, line, handled⟩
      have hSame : parseMode = .line := hMode
      have hLong : ¬line.length < 4095 := Nat.not_lt.mpr hFull
      subst hSame
      unfold Parser.step
      rw [if_neg hCr]
      simp [hNl, hLong]
    rw [rfc2646Parse_cons, hStep]
    exact ih (hText.of_subset fun _ => List.mem_cons_of_mem b)

/- A word that fills the buffer, and one more word. -/
theorem forwarded_full {word : List Byte} (hWord : OneLine word) (hBlank : chr ' ' ∉ word)
    (hSize : word.length = 4094) (hHead : word.head? ≠ some (chr '>')) :
    forwarded [⟨0, true, word⟩, ⟨0, false, bytes "bb"⟩] = [⟨0, true, word⟩] := by
  have hSome : word ≠ [] := by
    rintro rfl
    cases hSize
  have hOut : rfc2646fwd
      [⟨0, true, word⟩, ⟨0, false, bytes "bb"⟩] =
        word ++ ([chr ' '] ++ (bytes "bb" ++ [nl])) := by
    unfold rfc2646fwd
    have hPlain : ¬IsSeparator ⟨0, true, word⟩ := fun hSeparator => Bool.noConfusion hSeparator.2.2
    rw [fwd_text false _ _ rfl hSome (Or.inr hPlain)]
    simp only [Bool.false_eq_true, false_or, if_neg hHead]
    rw [fwd_text true _ _ rfl (by decide) (Or.inl rfl)]
    rfl
  have hDrop : dropBlank word = word := by
    unfold dropBlank
    rw [if_neg]
    intro hFirst
    exact hBlank (List.mem_of_mem_head? hFirst)
  have hStart := parse_line_start (p := rfc2646Alloc) rfl hWord hSome hHead (by omega)
  rw [hDrop] at hStart
  have hMore := parse_in_line
    (p := { rfc2646Alloc with
      quoteDepth := 0
      parseMode := .line
      line := word }) rfl oneLine_blank (by simp [hSize])
  have hRest := parse_full
    (p := { rfc2646Alloc with
      quoteDepth := 0
      parseMode := .line
      line := word ++ [chr ' '] }) rfl (by simp [hSize])
    (show OneLine (bytes "bb") by decide)
  have hRead : rfc2646Parse rfc2646Alloc (word ++ ([chr ' '] ++ (bytes "bb" ++ [nl]))) =
        Parser.endLine
          { rfc2646Alloc with
            quoteDepth := 0
            parseMode := .line
            line := word ++ [chr ' '] } := by
    rw [rfc2646Parse_append, hStart, rfc2646Parse_append, hMore, rfc2646Parse_append, hRest,
      rfc2646Parse_cons, rfc2646Parse_nil, step_nl_of_line]
    exact fun hNo => nomatch hNo
  have hFlowed : word ++ [chr ' '] ≠ bytes "-- " := by
    intro hSame
    have hLength := congrArg List.length hSame
    rw [List.length_append, hSize] at hLength
    exact absurd hLength (by decide)
  unfold forwarded
  rw [hOut, hRead, rfc2646Free_start rfl]
  simp [Parser.endLine, rfc2646Alloc, hFlowed]

/- The second word of this paragraph does not fit. -/
theorem not_forwards_long : (∀ l, l ∈ [FlowedLine.mk 0 true (List.replicate 4094 (chr 'a')),
        ⟨0, false, bytes "bb"⟩] → l.Parsed) ∧
      ¬Forwards
        [⟨0, true, List.replicate 4094 (chr 'a')⟩, ⟨0, false, bytes "bb"⟩] := by
  have hBytes : ∀ b, b ∈ List.replicate 4094 (chr 'a') → b = chr 'a' :=
    fun b => List.eq_of_mem_replicate
  have hLine : OneLine (List.replicate 4094 (chr 'a')) :=
    ⟨fun hMem => absurd (hBytes _ hMem) (by decide), fun hMem => absurd (hBytes _ hMem) (by decide)⟩
  have hSize : (List.replicate 4094 (chr 'a')).length = 4094 := List.length_replicate
  have hSome : List.replicate 4094 (chr 'a') ≠ [] := by
    intro hNil
    rw [hNil] at hSize
    cases hSize
  have hBlank : chr ' ' ∉ List.replicate 4094 (chr 'a') :=
    fun hMem => absurd (hBytes _ hMem) (by decide)
  have hHead : (List.replicate 4094 (chr 'a')).head? ≠ some (chr '>') :=
    fun hFirst => absurd (hBytes _ (List.mem_of_mem_head? hFirst)) (by decide)
  have hLast : (List.replicate 4094 (chr 'a')).getLast? ≠ some (chr ' ') :=
    fun hEnd => absurd (hBytes _ (List.mem_of_getLast? hEnd)) (by decide)
  generalize List.replicate 4094 (chr 'a') = word at *
  constructor
  · intro l hMem
    rcases List.mem_cons.mp hMem with rfl | hMem
    · refine ⟨hLine, ?_, nofun, fun _ hDashes => ?_⟩
      · exact Nat.le_of_eq (congrArg (· + 1) hSize)
      · have hSame : word = bytes "--" := hDashes
        rw [hSame] at hSize
        exact absurd hSize (by decide)
    · rw [List.mem_singleton.mp hMem]
      decide
  · rintro ⟨hSaid, _⟩
    rw [forwarded_full hLine hBlank hSize hHead] at hSaid
    have hLengths := congrArg List.length hSaid
    have hFirst : FlowedLine.said ⟨0, true, word⟩ = [(0, word)] := by
      unfold FlowedLine.said words
      rw [wordsOf_word hBlank hSome]
      rfl
    have hSecond : (FlowedLine.said ⟨0, false, bytes "bb"⟩).length = 1 := by decide
    rw [List.flatMap_cons, List.flatMap_cons, List.flatMap_cons, hFirst] at hLengths
    simp [hSecond] at hLengths

end Wmail.Rfc2646
