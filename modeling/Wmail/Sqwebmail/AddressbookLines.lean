import Wmail.Rfc822.AddressShape
import Wmail.Sqwebmail.Addressbook
import Mathlib.Data.List.Forall2

/-
  The values of the address book: entries in folded lines.

  Key theorems include:
    * `listing_of_softened`
    * `listing_wrapped`
-/

------------
-- Reading Lines
------------

namespace Wmail.Sqwebmail

open Rfc822

/- Every newline begins a continuation line. -/
def Foldable : List Byte → Prop
  | [] => True
  | c :: rest =>
    c ≠ 0 ∧ (c = nl → ∃ d more, rest = d :: more ∧ d ≠ nl ∧ isspace d = true) ∧ Foldable rest

/- A text that does not continue the line before it. -/
def BeginsLine (rest : List Byte) : Prop :=
  ∀ b, rest.head? = some b → isspace b = false

theorem Foldable.not_mem_zero {line : List Byte} (hLine : Foldable line) : 0 ∉ line := by
  induction line with
  | nil => exact List.not_mem_nil
  | cons c rest ih =>
    rw [List.mem_cons, not_or]
    exact ⟨fun hEq => hLine.1 hEq.symm, ih hLine.2.2⟩

/- A text in one line, and what follows it. -/
theorem Foldable.append_line {front rest : List Byte}
    (hFront : ∀ c, c ∈ front → c ≠ nl ∧ c ≠ 0) (hRest : Foldable rest) :
    Foldable (front ++ rest) := by
  induction front with
  | nil => exact hRest
  | cons c front ih =>
    have hC := hFront c List.mem_cons_self
    refine ⟨hC.2, fun hNl => absurd hNl hC.1, ?_⟩
    exact ih (fun d hMem => hFront d (List.mem_cons_of_mem c hMem))

/- The reader puts the continuation lines together. -/
theorem readFolded_line {line rest : List Byte} (hLine : Foldable line)
    (hRest : BeginsLine rest) : readFolded (line ++ nl :: rest) = (line, rest, rest.isEmpty) := by
  induction line with
  | nil =>
    rw [List.nil_append, readFolded.eq_def]
    dsimp only
    rw [if_neg (fun hNe => hNe rfl)]
    cases rest with
    | nil => rfl
    | cons d rest =>
      have hStop : d = nl ∨ isspace d = false := Or.inr (hRest d rfl)
      dsimp only
      rw [if_pos hStop]
      rfl
  | cons c line ih =>
    have hTail := ih hLine.2.2
    rw [List.cons_append, readFolded.eq_def]
    dsimp only
    by_cases hNl : c = nl
    · rw [if_neg (fun hNe => hNe hNl)]
      rcases hLine.2.1 hNl with ⟨d, more, rfl, hOther, hSpace⟩
      have hGo : ¬ (d = nl ∨ isspace d = false) := by
        rw [hSpace]
        simp [hOther]
      rw [List.cons_append] at hTail ⊢
      dsimp only
      rw [if_neg hGo, hTail, hNl]
    · rw [if_pos hNl, hTail]

/- A header with a nickname, and a value in folded lines. -/
structure HeaderOk (header : List Byte × List Byte) : Prop where
  nick : ∀ c, c ∈ header.1 → inNick c = true
  foldable : Foldable header.2
  begins : BeginsLine header.2

theorem inNick_classes : ∀ c : Byte, inNick c = true →
      isspace c = false ∧ c ≠ nl ∧ c ≠ 0 ∧ c ≠ chr ':' := by
  apply byte_forall
  decide +kernel

/- A header is read back. -/
theorem maildirReadheaderNolc_header {header : List Byte × List Byte}
    (hHeader : HeaderOk header) {rest : List Byte} (hRest : BeginsLine rest) :
    maildirReadheaderNolc (printHeader header ++ rest) = some (header.1, header.2, rest) := by
  have hNick : ∀ c, c ∈ header.1 → c ≠ nl ∧ c ≠ 0 := by
    intro c hMem
    have hC := inNick_classes c (hHeader.nick c hMem)
    exact ⟨hC.2.1, hC.2.2.1⟩
  have hSep : Foldable (bytes ": " ++ header.2) :=
    ⟨by decide, fun hNl => absurd hNl (by decide), by decide, fun hNl => absurd hNl (by decide),
      hHeader.foldable⟩
  have hLine : Foldable (header.1 ++ (bytes ": " ++ header.2)) := Foldable.append_line hNick hSep
  have hText : printHeader header ++ rest = header.1 ++ (bytes ": " ++ header.2) ++ nl :: rest := by
    simp [printHeader]
  have hColon : chr ':' ∉ header.1 := by
    intro hMem
    exact (inNick_classes _ (hHeader.nick _ hMem)).2.2.2 rfl
  have hName : (header.1 ++ (bytes ": " ++ header.2)).takeWhile (· ≠ chr ':') = header.1 :=
    takeWhile_quoted hColon (chr ' ' :: header.2)
  have hValue : ((header.1 ++ (bytes ": " ++ header.2)).drop
      (header.1.length + 1)).dropWhile isspace = header.2 := by
    have hBlank : ∀ b, b ∈ [chr ' '] → isspace b = true := by
      intro b hMem
      rw [List.mem_singleton] at hMem
      rw [hMem]
      decide
    rw [← List.drop_drop, List.drop_left]
    exact dropWhile_run hBlank hHeader.begins
  have hSome : ¬ (rest.isEmpty = true ∧ header.1 ++ (bytes ": " ++ header.2) = []) := by
    intro hBoth
    have hNil := (List.append_eq_nil_iff.mp hBoth.2).2
    cases hNil
  unfold maildirReadheaderNolc
  rw [hText, readFolded_line hLine hRest]
  dsimp only
  rw [takeWhile_unclosed hLine.not_mem_zero, if_neg hSome, hName, hValue]

variable {lines : List (List Byte × List Byte)}

/- A line of the book begins a line. -/
theorem beginsLine_headers (hLines : ∀ header, header ∈ lines → HeaderOk header) :
    BeginsLine (lines.flatMap printHeader) := by
  cases lines with
  | nil =>
    intro b hHead
    cases hHead
  | cons header lines =>
    have hNick := (hLines header List.mem_cons_self).nick
    intro b hHead
    rw [List.flatMap_cons] at hHead
    rcases header with ⟨nick, value⟩
    cases nick with
    | nil =>
      cases hHead
      rfl
    | cons c nick =>
      cases hHead
      exact (inNick_classes b (hNick b List.mem_cons_self)).1

theorem printHeader_length (header : List Byte × List Byte) : 0 < (printHeader header).length := by
  unfold printHeader
  rw [List.length_append]
  exact Nat.succ_pos _

theorem headersLoop_lines (hLines : ∀ header, header ∈ lines → HeaderOk header) (fuel : Nat)
    (hFuel : (lines.flatMap printHeader).length ≤ fuel) :
    headersLoop fuel (lines.flatMap printHeader) = lines := by
  induction lines generalizing fuel with
  | nil =>
    cases fuel with
    | zero => rfl
    | succ fuel => rfl
  | cons header lines ih =>
    have hOthers : ∀ h, h ∈ lines → HeaderOk h := by
      intro h hMem
      exact hLines h (List.mem_cons_of_mem header hMem)
    have hPos := printHeader_length header
    rw [List.flatMap_cons, List.length_append] at hFuel
    obtain ⟨fuel, rfl⟩ : ∃ k, fuel = k + 1 := ⟨fuel - 1, by omega⟩
    rw [List.flatMap_cons, headersLoop, maildirReadheaderNolc_header
        (hLines header List.mem_cons_self)
        (beginsLine_headers hOthers)]
    dsimp only
    rw [ih hOthers fuel (by omega)]

/- The headers of the book are read back. -/
theorem readHeaders_lines (hLines : ∀ header, header ∈ lines → HeaderOk header) :
    readHeaders (lines.flatMap printHeader) = lines := by
  exact headersLoop_lines hLines _ (Nat.le_refl _)

/- What stands between a comma and the next entry. -/
def Gap (gap : List Byte) : Prop :=
  gap = bytes " " ∨ gap = bytes "\n    "

/- The entries of a value. -/
inductive Listing : List ListEntry → List Byte → Prop where
  | one (e : ListEntry) : Listing [e] e.text
  | cons
      (e : ListEntry)
      {es : List ListEntry}
      {gap text : List Byte}
      (hGap : Gap gap)
      (hRest : Listing es text) :
      Listing (e :: es) (e.text ++ chr ',' :: (gap ++ text))

/- An entry whose text is in one line. -/
structure EntryOk (e : ListEntry) : Prop where
  ok : e.Ok
  line : ∀ c, c ∈ e.text → c ≠ nl ∧ c ≠ 0

variable {es : List ListEntry} {text : List Byte}

theorem Listing.ne_nil (hListing : Listing es text) : es ≠ [] := by
  cases hListing with
  | one e => exact List.cons_ne_nil _ _
  | cons e hGap hRest => exact List.cons_ne_nil _ _

/- An entry that is added at the end. -/
theorem Listing.add (hListing : Listing es text) (e : ListEntry) :
    Listing (es ++ [e]) (text ++ bytes ",\n    " ++ e.text) := by
  have hGap : Gap (bytes "\n    ") := Or.inr rfl
  induction hListing with
  | one first =>
    have hTwo := Listing.cons first hGap (Listing.one e)
    rw [List.append_assoc]
    exact hTwo
  | cons first hOther hRest ih =>
    have hMore := Listing.cons first hOther ih
    simpa [List.append_assoc] using hMore

/- The first character of an entry is not blank. -/
theorem beginsLine_entry {e : ListEntry} (hOk : e.Ok) (rest : List Byte) :
    BeginsLine (e.text ++ rest) := by
  rw [← ListEntry.textThen_eq]
  intro b hHead
  cases e with
  | named name ps =>
    cases hHead
    decide
  | bracket ps =>
    cases hHead
    decide
  | bare ps =>
    have hSome := (hOk.bare_ok ps rfl).1
    cases ps with
    | nil => exact absurd rfl hSome
    | cons p ps =>
      have hP := hOk.pieces_ok p List.mem_cons_self
      cases p with
      | atom t =>
        cases t with
        | nil => exact absurd rfl hP.1
        | cons c t =>
          cases hHead
          exact (isAtomChar_classes b (hP.2 b List.mem_cons_self)).1
      | quoted t =>
        cases hHead
        decide
      | special c =>
        cases hHead
        exact (inPiece_classes b hP).1

theorem Listing.beginsLine (hListing : Listing es text) (hOk : ∀ e, e ∈ es → EntryOk e) :
    BeginsLine text := by
  cases hListing with
  | one e =>
    rw [← List.append_nil e.text]
    exact beginsLine_entry (hOk e List.mem_cons_self).ok []
  | cons e hGap hRest => exact beginsLine_entry (hOk e List.mem_cons_self).ok _

/- A gap folds the line, or not. -/
theorem foldable_gap {gap text : List Byte} (hGap : Gap gap) (hText : Foldable text) :
    Foldable (gap ++ text) := by
  rcases hGap with rfl | rfl
  · exact ⟨by decide, fun hNl => absurd hNl (by decide), hText⟩
  · have hBlank : ∀ rest, Foldable rest → Foldable (chr ' ' :: rest) := by
      intro rest hRest
      exact ⟨by decide, fun hNl => absurd hNl (by decide), hRest⟩
    refine ⟨by decide, ?_, hBlank _ (hBlank _ (hBlank _ (hBlank _ hText)))⟩
    intro _
    exact ⟨chr ' ', _, rfl, by decide, by decide⟩

theorem Listing.foldable (hListing : Listing es text) (hOk : ∀ e, e ∈ es → EntryOk e) :
    Foldable text := by
  induction hListing with
  | one e =>
    rw [← List.append_nil e.text]
    exact Foldable.append_line (hOk e List.mem_cons_self).line trivial
  | cons e hGap hRest ih =>
    have hOthers := ih (fun f hMem => hOk f (List.mem_cons_of_mem e hMem))
    apply Foldable.append_line (hOk e List.mem_cons_self).line
    exact ⟨by decide, fun hNl => absurd hNl (by decide), foldable_gap hGap hOthers⟩

/- The address that is read is the one of the entry. -/
def ReadAs (e : ListEntry) (a : Addr) : Prop :=
  ∃ rest, a = e.addr rest

theorem gap_isspace {gap : List Byte} (hGap : Gap gap) : ∀ b, b ∈ gap → isspace b = true := by
  rcases hGap with rfl | rfl
  · exact List.all_eq_true.mp (by decide)
  · exact List.all_eq_true.mp (by decide)

/- A value is parsed into its entries. -/
theorem parse_listing (hListing : Listing es text) (hOk : ∀ e, e ∈ es → EntryOk e) :
    List.Forall₂ ReadAs es (parseaddr (scanText false text)) := by
  induction hListing with
  | one e =>
    have hE := (hOk e List.mem_cons_self).ok
    have hEnd : Stops [] := by
      intro b hHead
      cases hHead
    have hLast : EndsEntry [] := by
      intro t hHead
      cases hHead
    have hScan := scanText_entry hE hEnd
    rw [scanText_nil] at hScan
    unfold ListEntry.text
    rw [hScan, parseaddr_entry hE [] hLast, parseaddr_nil]
    exact List.Forall₂.cons ⟨[], rfl⟩ List.Forall₂.nil
  | @cons e es gap text hGap hRest ih =>
    have hE := (hOk e List.mem_cons_self).ok
    have hOthers := ih (fun f hMem => hOk f (List.mem_cons_of_mem e hMem))
    have hEnd : Stops (chr ',' :: (gap ++ text)) := by
      intro b hHead
      cases hHead
      decide
    have hLast : EndsEntry (⟨chr ',', chr ',' :: (gap ++ text), 1⟩ :: scanText false text) := by
      intro t hHead
      cases hHead
      rfl
    have hComma : parseaddr (⟨chr ',', chr ',' :: (gap ++ text), 1⟩ :: scanText false text) =
        parseaddr (scanText false text) :=
      parseaddr_comma rfl _
    rw [← ListEntry.textThen_eq, scanText_entry hE hEnd, scanText_special (by decide),
      scanText_spaces (gap_isspace hGap),
      parseaddr_entry hE _ hLast, hComma]
    exact List.Forall₂.cons ⟨_, rfl⟩ hOthers

------------
-- Wrapped Lines
------------

/- The byte stays, or a newline has become a blank. -/
def SoftenedTo (b c : Byte) : Prop :=
  c = b ∨ (b = nl ∧ c = chr ' ')

/- Some newlines of the text have become blanks. -/
def Softened (s t : List Byte) : Prop :=
  List.Forall₂ SoftenedTo s t

theorem Softened.refl (s : List Byte) : Softened s s := by
  apply List.forall₂_same.mpr
  intro b _
  exact Or.inl rfl

/- A newline that is left was one before. -/
theorem Softened.newline {s t : List Byte} (hSoft : Softened s t) {i : Nat}
    (hNl : t[i]? = some nl) : s[i]? = some nl := by
  induction hSoft generalizing i with
  | nil => cases hNl
  | @cons b c s t hHere hThere ih =>
    cases i with
    | zero =>
      rw [List.getElem?_cons_zero, Option.some.injEq] at hNl ⊢
      rcases hHere with hSame | ⟨hIs, _⟩
      · rw [← hSame, hNl]
      · exact hIs
    | succ i =>
      rw [List.getElem?_cons_succ] at hNl ⊢
      exact ih hNl

/- One more newline becomes a blank. -/
theorem Softened.set {s t : List Byte} (hSoft : Softened s t) {i : Nat}
    (hNl : s[i]? = some nl) : Softened s (t.set i (chr ' ')) := by
  induction hSoft generalizing i with
  | nil => cases hNl
  | @cons b c s t hHere hThere ih =>
    cases i with
    | zero =>
      rw [List.getElem?_cons_zero, Option.some.injEq] at hNl
      exact List.Forall₂.cons (Or.inr ⟨hNl, rfl⟩) hThere
    | succ i =>
      rw [List.getElem?_cons_succ] at hNl
      exact List.Forall₂.cons hHere (ih hNl)

/- The inner loop stops at a newline, or at the end. -/
theorem newline_after_run (text : List Byte) (ptr : Nat)
    (hIn : ptr + ((text.drop ptr).takeWhile (· ≠ nl)).length <
      text.length) : text[ptr + ((text.drop ptr).takeWhile (· ≠ nl)).length]? = some nl := by
  have hDrop := drop_takeWhile_length (· ≠ nl) (text.drop ptr)
  have hHead : (text.drop (ptr + ((text.drop ptr).takeWhile (· ≠ nl)).length)).head? =
        ((text.drop ptr).dropWhile (· ≠ nl)).head? := by
    rw [← hDrop, List.drop_drop]
  rw [List.head?_drop] at hHead
  rw [hHead]
  rcases dropWhile_separator nl (text.drop ptr) with hNone | ⟨rest, hRest⟩
  · rw [hNone, List.head?_nil, List.getElem?_eq_none_iff] at hHead
    exact absurd hIn (Nat.not_lt.mpr hHead)
  · rw [hRest, List.head?_cons]

/- The loop gives some newlines up. -/
theorem wrapLoop_softened (w fuel : Nat) {s addrbuf : List Byte}
    (hSoft : Softened s addrbuf) (start : Nat) {lastnl : Option Nat}
    (hLast : ∀ i, lastnl = some i → i < addrbuf.length →
      s[i]? = some nl) (ptr : Nat) : Softened s (wrapLoop w fuel addrbuf start lastnl ptr) := by
  induction fuel generalizing addrbuf start lastnl ptr with
  | zero => exact hSoft
  | succ fuel ih =>
    have hNone : ∀ (buf : List Byte) (i : Nat),
        none = some i → i < buf.length → s[i]? = some nl := by
      intro buf i hNone
      cases hNone
    have hHere : ∀ i, some (ptr + ((addrbuf.drop ptr).takeWhile
        (· ≠ nl)).length) = some i → i < addrbuf.length → s[i]? = some nl := by
      intro i hIs hIn
      cases hIs
      exact hSoft.newline (newline_after_run addrbuf ptr hIn)
    rw [wrapLoop]
    split
    · dsimp only
      split
      · cases hCase : lastnl with
        | none => exact ih hSoft _ hHere _
        | some i =>
          dsimp only
          by_cases hIn : i < addrbuf.length
          · apply ih (hSoft.set (hLast i hCase hIn))
            rw [List.length_set]
            exact hHere
          · rw [List.set_eq_of_length_le (Nat.not_lt.mp hIn)]
            exact ih hSoft _ hHere _
      · cases hCase : lastnl with
        | none => exact ih hSoft _ (hNone addrbuf) _
        | some i => exact ih hSoft _ (hNone addrbuf) _
    · exact hSoft

/- Entries with a comma and a newline between them. -/
def joinLines : List (List Byte) → List Byte
  | [] => []
  | [text] => text
  | text :: next :: rest => text ++ chr ',' :: nl :: joinLines (next :: rest)

/- Addresses with tokens have a comma between them. -/
theorem printSep_addresses {addrs : List Addr} (hTokens : ∀ a, a ∈ addrs → a.tokens ≠ []) :
    rfc822PrintSep saveaddrsepWrap addrs = joinLines (addrs.map printAddr) := by
  induction addrs with
  | nil => rfl
  | cons a rest ih =>
    cases rest with
    | nil => rfl
    | cons next rest =>
      have hOthers := ih (fun b hMem => hTokens b (List.mem_cons_of_mem a hMem))
      have hA := hTokens a List.mem_cons_self
      have hNext := hTokens next (List.mem_cons_of_mem a List.mem_cons_self)
      have hSep : printSeparator a next = bytes ", " := by
        unfold printSeparator
        rw [if_neg hA]
        cases hCase : next.tokens with
        | nil => exact absurd hCase hNext
        | cons t ts => rfl
      rw [rfc822PrintSep, hSep, hOthers]
      rfl

/- A part in one line stays as it is. -/
theorem Softened.split {front rest t : List Byte} (hFront : nl ∉ front)
    (hSoft : Softened (front ++ rest) t) : ∃ more, t = front ++ more ∧ Softened rest more := by
  induction front generalizing t with
  | nil => exact ⟨t, rfl, hSoft⟩
  | cons c front ih =>
    rw [List.mem_cons, not_or] at hFront
    cases hSoft with
    | cons hHere hThere =>
      rcases ih hFront.2 hThere with ⟨more, rfl, hMore⟩
      rcases hHere with rfl | ⟨hNl, _⟩
      · exact ⟨more, rfl, hMore⟩
      · exact absurd hNl.symm hFront.1

theorem indent_append (s t : List Byte) : indent (s ++ t) = indent s ++ indent t := by
  exact List.flatMap_append

/- A text in one line is not indented. -/
theorem indent_line (hLine : nl ∉ text) : indent text = text := by
  induction text with
  | nil => rfl
  | cons c text ih =>
    rw [List.mem_cons, not_or] at hLine
    unfold indent at ih ⊢
    rw [List.flatMap_cons, if_neg (fun hEq => hLine.1 hEq.symm), ih hLine.2]
    rfl

/- Entries in wrapped lines are a listing. -/
theorem listing_of_softened (hSome : es ≠ []) (hLine : ∀ e, e ∈ es → nl ∉ e.text)
    {t : List Byte} (hSoft : Softened (joinLines (es.map ListEntry.text)) t) :
    Listing es (indent t) := by
  induction es generalizing t with
  | nil => exact absurd rfl hSome
  | cons e es ih =>
    have hE := hLine e List.mem_cons_self
    cases es with
    | nil =>
      have hText : joinLines ([e].map ListEntry.text) = e.text ++ [] := by
        rw [List.append_nil]
        rfl
      rw [hText] at hSoft
      rcases Softened.split hE hSoft with ⟨more, rfl, hMore⟩
      cases hMore
      rw [List.append_nil, indent_line hE]
      exact Listing.one e
    | cons next es =>
      rw [List.map_cons, List.map_cons, joinLines] at hSoft
      rcases Softened.split hE hSoft with ⟨more, rfl, hMore⟩
      cases hMore with
      | cons hComma hMore =>
        cases hMore with
        | @cons _ c _ more hNl hMore =>
          have hListing := ih (List.cons_ne_nil _ _) (fun f hMem => hLine f
              (List.mem_cons_of_mem e hMem)) hMore
          have hIs : chr ',' ≠ nl := by decide
          rcases hComma with rfl | ⟨hNo, _⟩
          · have hGap : Gap (indent [c]) := by
              rcases hNl with rfl | ⟨_, rfl⟩
              · exact Or.inr rfl
              · exact Or.inl rfl
            have hAll : indent (e.text ++ chr ',' :: c :: more) =
                  e.text ++ chr ',' :: (indent [c] ++ indent more) := by
              rw [indent_append, indent_line hE, ← indent_append]
              rfl
            rw [hAll]
            exact Listing.cons e hGap hListing
          · exact absurd hNo hIs

/- The list that `dodel` writes. -/
theorem listing_wrapped {addrs : List Addr} (hSome : es ≠ [])
    (hOk : ∀ e, e ∈ es → EntryOk e) (hTokens : ∀ a, a ∈ addrs → a.tokens ≠ [])
    (hTexts : addrs.map printAddr = es.map ListEntry.text) (w : Nat) :
    Listing es (indent (rfc822GetaddrsWrap addrs w)) := by
  apply listing_of_softened hSome
  · intro e hMem hNl
    exact ((hOk e hMem).line nl hNl).1 rfl
  · rw [← hTexts, ← printSep_addresses hTokens]
    apply wrapLoop_softened w _ (Softened.refl _) 0
    intro i hNone
    cases hNone

end Wmail.Sqwebmail
