import Wmail.Rfc2045.Rfc2646
import Mathlib.Logic.Function.Iterate

/-
  Flowed text as HTML (rfc2646html.c).

  A line is a C string, and the depth is not negative.  The
  count of columns is not reduced modulo 2^32, a multiple of
  the tab size.

  Key theorems include:
    * `reads_lineLoop`
    * `reads_rfc2646tohtml`
-/

namespace Wmail

open Rfc2646 (FlowedLine)

namespace Sqwebmail

/- `struct rfc2646tohtml`, and what the handler got. -/
structure ToHtml where
  currentQuoteDepth : Nat
  prevWasFlowed : Bool
  prevWas0length : Bool
  output : List Byte

/- `rfc2646tohtml_alloc`. -/
def rfc2646tohtmlAlloc : ToHtml :=
  ⟨0, true, false, []⟩

def endquote (r : ToHtml) : ToHtml :=
  ⟨r.currentQuoteDepth - 1, false, false, r.output ++ (bytes "</blockquote>" ++ [nl])⟩

/- A round of the loop that opens quotes. -/
def startquote (r : ToHtml) : ToHtml :=
  ⟨r.currentQuoteDepth + 1, true, false, r.output ++ nl :: bytes "<blockquote type=cite>"⟩

def nbsp : List Byte :=
  bytes "&nbsp;"

/- The loop that expands a tab, and the column behind it. -/
def tabLoop : Nat → Nat → List Byte × Nat
  | 0, colcnt => ([], colcnt)
  | fuel + 1, colcnt =>
    if (colcnt + 1) % 8 ≠ 0 then
      (nbsp ++ (tabLoop fuel (colcnt + 1)).1, (tabLoop fuel (colcnt + 1)).2)
    else
      (nbsp, colcnt + 1)

/- The loop over a line; `pending` is the text up to `str[i]`. -/
def lineLoop (pending : List Byte) (colcnt : Nat) : List Byte → List Byte
  | [] => pending ++ [nl]
  | c :: rest =>
    let next := colcnt + (pending.length + 1)
    if c = chr '&' then
      pending ++ (bytes "&amp;" ++ lineLoop [] next rest)
    else if c = chr '<' then
      pending ++ (bytes "&lt;" ++ lineLoop [] next rest)
    else if c = chr '>' then
      pending ++ (bytes "&gt;" ++ lineLoop [] next rest)
    else if c = chr ' ' ∧ (rest.head? = some (chr ' ') ∨ rest.head? = some 9) then
      pending ++ (nbsp ++ lineLoop [] next rest)
    else if c = 9 then
      let tab := tabLoop 8 (colcnt + pending.length)
      pending ++ (tab.1 ++ lineLoop [] tab.2 rest)
    else
      lineLoop (pending ++ [c]) colcnt rest

def rfc2646tohtmlHandler (r : ToHtml) (p : FlowedLine) : ToHtml :=
  let r := Nat.iterate endquote (r.currentQuoteDepth - p.quoteDepth) r
  let r := Nat.iterate startquote (p.quoteDepth - r.currentQuoteDepth) r
  let mark :=
    if r.prevWasFlowed then []
    else if r.prevWas0length then bytes "<p>"
    else bytes "<br>"
  ⟨r.currentQuoteDepth, p.isflowed, p.line = [], r.output ++ (mark ++ lineLoop [] 0 p.line)⟩

def rfc2646tohtmlFree (r : ToHtml) : ToHtml :=
  Nat.iterate endquote r.currentQuoteDepth r

/- What is sent for the lines of a text. -/
def rfc2646tohtml (lines : List FlowedLine) : List Byte :=
  (rfc2646tohtmlFree
    (lines.foldl rfc2646tohtmlHandler rfc2646tohtmlAlloc)).output

/- In a text, in a tag, or in an entity. -/
inductive Reading where
  | text
  | tag (name : List Byte)
  | entity (name : List Byte)

/- The depth behind a tag; none for a tag that is not known. -/
def tagDepth (name : List Byte) (depth : Nat) : Option Nat :=
  if name = bytes "blockquote type=cite" then
    some (depth + 1)
  else if name = bytes "/blockquote" then
    if depth = 0 then none else some (depth - 1)
  else if name = bytes "br" ∨ name = bytes "p" then
    some depth
  else
    none

def entityText (name : List Byte) : Option Byte :=
  if name = bytes "amp" then some (chr '&')
  else if name = bytes "lt" then some (chr '<')
  else if name = bytes "gt" then some (chr '>')
  else if name = bytes "nbsp" then some (chr ' ')
  else none

/-
  The characters of a page with their depths in block quotes,
  and the depth at the end.
-/
def readHtml : Reading → Nat → List Byte → Option (List (Nat × Byte) × Nat)
  | .text, depth, [] => some ([], depth)
  | .tag _, _, [] => none
  | .entity _, _, [] => none
  | .text, depth, c :: rest =>
    if c = chr '<' then
      readHtml (.tag []) depth rest
    else if c = chr '&' then
      readHtml (.entity []) depth rest
    else
      (readHtml .text depth rest).map fun r => ((depth, c) :: r.1, r.2)
  | .tag name, depth, c :: rest =>
    if c = chr '>' then
      (tagDepth name depth).bind fun depth => readHtml .text depth rest
    else
      readHtml (.tag (name ++ [c])) depth rest
  | .entity name, depth, c :: rest =>
    if c = chr ';' then
      (entityText name).bind fun b =>
        (readHtml .text depth rest).map fun r => ((depth, b) :: r.1, r.2)
    else
      readHtml (.entity (name ++ [c])) depth rest

/- A piece of a page is read as `cells`, whatever follows. -/
def Reads (piece : List Byte) (depth after : Nat) (cells : List (Nat × Byte)) : Prop :=
  ∀ rest, readHtml .text depth (piece ++ rest) =
    (readHtml .text after rest).map fun r => (cells ++ r.1, r.2)

theorem Reads.nil (depth : Nat) : Reads [] depth depth [] := by
  intro rest
  rw [List.nil_append]
  exact Option.map_id'.symm

theorem Reads.append {piece more : List Byte} {m n o : Nat}
    {cells others : List (Nat × Byte)} (hPiece : Reads piece m n cells)
    (hMore : Reads more n o others) : Reads (piece ++ more) m o (cells ++ others) := by
  intro rest
  rw [List.append_assoc, hPiece, hMore, Option.map_map]
  congr 1
  funext r
  simp

section Pieces

variable {depth : Nat}

theorem reads_plain {text : List Byte} (hText : ∀ c, c ∈ text → c ≠ chr '<' ∧ c ≠ chr '&') :
    Reads text depth depth (text.map (depth, ·)) := by
  induction text with
  | nil => exact Reads.nil depth
  | cons c text ih =>
    intro rest
    have hC := hText c List.mem_cons_self
    rw [List.cons_append, readHtml, if_neg hC.1, if_neg hC.2,
      ih (fun d hMem => hText d (List.mem_cons_of_mem c hMem)), Option.map_map]
    rfl

theorem readHtml_tag (front : List Byte) {name : List Byte} (hName : chr '>' ∉ name)
    (rest : List Byte) :
    readHtml (.tag front) depth (name ++ chr '>' :: rest) =
      (tagDepth (front ++ name) depth).bind fun depth => readHtml .text depth rest := by
  induction name generalizing front with
  | nil => rw [List.nil_append, readHtml, if_pos rfl, List.append_nil]
  | cons c name ih =>
    rw [List.mem_cons, not_or] at hName
    rw [List.cons_append, readHtml, if_neg (fun hThis => hName.1 hThis.symm),
      ih _ hName.2, List.append_assoc]
    rfl

theorem reads_tag {name : List Byte} {after : Nat} (hName : chr '>' ∉ name)
    (hDepth : tagDepth name depth = some after) :
    Reads (chr '<' :: (name ++ [chr '>'])) depth after [] := by
  intro rest
  rw [List.cons_append, List.append_assoc, readHtml, if_pos rfl, List.singleton_append,
    readHtml_tag [] hName, List.nil_append, hDepth]
  exact Option.map_id'.symm

theorem reads_entity (front : List Byte) {name : List Byte} {b : Byte}
    (hName : chr ';' ∉ name) (hByte : entityText (front ++ name) = some b) (rest : List Byte) :
    readHtml (.entity front) depth (name ++ chr ';' :: rest) =
      (readHtml .text depth rest).map fun r => ((depth, b) :: r.1, r.2) := by
  induction name generalizing front with
  | nil =>
    rw [List.append_nil] at hByte
    rw [List.nil_append, readHtml, if_pos rfl, hByte]
    rfl
  | cons c name ih =>
    rw [List.mem_cons, not_or] at hName
    rw [List.cons_append, readHtml, if_neg (fun hThis => hName.1 hThis.symm),
      ih _ hName.2 (by rw [← hByte, List.append_assoc]; rfl)]

theorem Reads.entity {name : List Byte} {b : Byte} (hName : chr ';' ∉ name)
    (hByte : entityText name = some b) :
    Reads (chr '&' :: (name ++ [chr ';'])) depth depth [(depth, b)] := by
  intro rest
  rw [List.cons_append, List.append_assoc, readHtml, if_neg (by decide), if_pos rfl,
    List.singleton_append, reads_entity [] hName hByte]
  rfl

/- A text with its tabs expanded, from a column on. -/
def expandTabs (column : Nat) : List Byte → List Byte
  | [] => []
  | c :: rest =>
    if c = 9 then
      List.replicate (8 - column % 8) (chr ' ') ++ expandTabs (column + (8 - column % 8)) rest
    else
      c :: expandTabs (column + 1) rest

theorem reads_nbsp : Reads nbsp depth depth [(depth, chr ' ')] :=
  @Reads.entity _ (bytes "nbsp") _ (by decide) rfl

theorem reads_tabLoop (fuel colcnt : Nat) (hFuel : 8 ≤ fuel + colcnt % 8) :
    (tabLoop fuel colcnt).2 = colcnt + (8 - colcnt % 8) ∧
      Reads (tabLoop fuel colcnt).1 depth depth
        (List.replicate (8 - colcnt % 8) (depth, chr ' ')) := by
  induction fuel generalizing colcnt with
  | zero => omega
  | succ fuel ih =>
    rw [tabLoop]
    split
    · rename_i hMore
      have hNext := ih (colcnt + 1) (by omega)
      have hCount : 8 - colcnt % 8 = 8 - (colcnt + 1) % 8 + 1 := by omega
      refine ⟨?_, ?_⟩
      · dsimp only
        rw [hNext.1]
        omega
      · rw [hCount, List.replicate_succ]
        exact reads_nbsp.append hNext.2
    · rename_i hStop
      have hCount : 8 - colcnt % 8 = 1 := by omega
      rw [hCount]
      exact ⟨rfl, reads_nbsp⟩

/- The induction is on what is left of the line. -/
theorem reads_lineLoop (rest pending : List Byte) (colcnt : Nat)
    (hPending : ∀ c, c ∈ pending → c ≠ chr '<' ∧ c ≠ chr '&') :
    Reads (lineLoop pending colcnt rest) depth depth
      ((pending ++ (expandTabs (colcnt + pending.length) rest ++ [nl])).map (depth, ·)) := by
  have hNone : ∀ c, c ∈ ([] : List Byte) → c ≠ chr '<' ∧ c ≠ chr '&' :=
    fun c hMem => absurd hMem List.not_mem_nil
  induction rest generalizing pending colcnt with
  | nil =>
    rw [lineLoop, expandTabs, List.nil_append]
    apply reads_plain
    intro c hMem
    rcases List.mem_append.mp hMem with hOld | hNew
    · exact hPending c hOld
    · rw [List.mem_singleton.mp hNew]
      decide
  | cons c rest ih =>
    -- a byte that is printed as an entity
    have hEntity : ∀ name, chr ';' ∉ name → entityText name = some c → c ≠ 9 →
        Reads (pending ++ (chr '&' :: (name ++ [chr ';']) ++
          lineLoop [] (colcnt + (pending.length + 1)) rest)) depth depth
          ((pending ++ (expandTabs (colcnt + pending.length) (c :: rest) ++ [nl])).map
            (depth, ·)) := by
      intro name hName hByte hTab
      have hRest := ih [] (colcnt + (pending.length + 1)) hNone
      rw [expandTabs, if_neg hTab, List.map_append]
      exact (reads_plain hPending).append ((Reads.entity hName hByte).append hRest)
    rw [lineLoop]
    dsimp only
    split_ifs with hAmp hLt hGt hBlank hTab
    · exact hEntity (bytes "amp") (by decide) (hAmp ▸ rfl) (hAmp ▸ by decide)
    · exact hEntity (bytes "lt") (by decide) (hLt ▸ rfl) (hLt ▸ by decide)
    · exact hEntity (bytes "gt") (by decide) (hGt ▸ rfl) (hGt ▸ by decide)
    · exact hEntity (bytes "nbsp") (by decide) (hBlank.1 ▸ rfl) (hBlank.1 ▸ by decide)
    · have hTabs := @reads_tabLoop depth 8 (colcnt + pending.length) (by omega)
      have hRest := ih [] (tabLoop 8 (colcnt + pending.length)).2 hNone
      rw [hTabs.1] at hRest ⊢
      rw [expandTabs, if_pos hTab, List.map_append, List.append_assoc, List.map_append,
        List.map_replicate]
      exact (reads_plain hPending).append (hTabs.2.append hRest)
    · have hNext := ih (pending ++ [c]) colcnt (by
        intro d hMem
        rcases List.mem_append.mp hMem with hOld | hNew
        · exact hPending d hOld
        · rw [List.mem_singleton.mp hNew]
          exact ⟨hLt, hAmp⟩)
      rw [expandTabs, if_neg hTab]
      simpa [Nat.add_assoc] using hNext

end Pieces

/- Characters of a page that do not end a line. -/
def inked (cells : List (Nat × Byte)) : List (Nat × Byte) :=
  cells.filter fun cell => cell.2 ≠ nl

/- What a line says, at its depth. -/
def saidLine (l : FlowedLine) : List (Nat × Byte) :=
  inked ((expandTabs 0 l.line).map (l.quoteDepth, ·))

/- What the output so far says, read up to the depth it is at. -/
def Says (r : ToHtml) (said : List (Nat × Byte)) : Prop :=
  ∃ cells, Reads r.output 0 r.currentQuoteDepth cells ∧ inked cells = said

section Lines

variable {r : ToHtml} {said : List (Nat × Byte)}

theorem Says.add (hSays : Says r said) {piece : List Byte} {after : Nat}
    {cells : List (Nat × Byte)} (hPiece : Reads piece r.currentQuoteDepth after cells)
    (flowed empty : Bool) :
    Says ⟨after, flowed, empty, r.output ++ piece⟩ (said ++ inked cells) := by
  rcases hSays with ⟨before, hReads, hSaid⟩
  refine ⟨before ++ cells, hReads.append hPiece, ?_⟩
  rw [← hSaid]
  exact List.filter_append _ _

theorem reads_nl (depth : Nat) : Reads [nl] depth depth [(depth, nl)] :=
  reads_plain fun c hMem => by
    rw [List.mem_singleton.mp hMem]
    decide

theorem inked_nl (depth : Nat) : inked [(depth, nl)] = [] :=
  rfl

theorem Says.endquote (hSays : Says r said) (hDepth : r.currentQuoteDepth ≠ 0) :
    Says (endquote r) said := by
  have hTag : Reads (bytes "</blockquote>") r.currentQuoteDepth (r.currentQuoteDepth - 1) [] :=
    @reads_tag _ (bytes "/blockquote") _ (by decide) (if_neg hDepth)
  have hNext := hSays.add (hTag.append (reads_nl _)) false false
  rw [List.nil_append, inked_nl, List.append_nil] at hNext
  exact hNext

theorem Says.startquote (hSays : Says r said) : Says (startquote r) said := by
  have hTag : Reads (bytes "<blockquote type=cite>") r.currentQuoteDepth
      (r.currentQuoteDepth + 1) [] :=
    @reads_tag _ (bytes "blockquote type=cite") _ (by decide) rfl
  have hNext := hSays.add ((reads_nl _).append hTag) true false
  rw [List.append_nil, inked_nl, List.append_nil] at hNext
  exact hNext

theorem Says.endquotes (n : Nat) (hSays : Says r said) (hDepth : n ≤ r.currentQuoteDepth) :
    Says (Nat.iterate Sqwebmail.endquote n r) said ∧
      (Nat.iterate Sqwebmail.endquote n r).currentQuoteDepth = r.currentQuoteDepth - n := by
  induction n generalizing r with
  | zero => exact ⟨hSays, rfl⟩
  | succ n ih =>
    have hNext := ih (hSays.endquote (by omega)) (show n ≤ r.currentQuoteDepth - 1 by omega)
    exact ⟨hNext.1, hNext.2.trans (show r.currentQuoteDepth - 1 - n = _ by omega)⟩

theorem Says.startquotes (n : Nat) (hSays : Says r said) :
    Says (Nat.iterate Sqwebmail.startquote n r) said ∧
      (Nat.iterate Sqwebmail.startquote n r).currentQuoteDepth = r.currentQuoteDepth + n := by
  induction n generalizing r with
  | zero => exact ⟨hSays, rfl⟩
  | succ n ih =>
    have hNext := ih hSays.startquote
    exact ⟨hNext.1, hNext.2.trans (show r.currentQuoteDepth + 1 + n = _ by omega)⟩

theorem Says.handler (hSays : Says r said) (p : FlowedLine) :
    Says (rfc2646tohtmlHandler r p) (said ++ saidLine p) := by
  have hEnd := hSays.endquotes (r.currentQuoteDepth - p.quoteDepth) (Nat.sub_le _ _)
  unfold rfc2646tohtmlHandler
  dsimp only
  generalize Nat.iterate Sqwebmail.endquote (r.currentQuoteDepth - p.quoteDepth) r = u at *
  have hStart := hEnd.1.startquotes (p.quoteDepth - u.currentQuoteDepth)
  generalize Nat.iterate Sqwebmail.startquote (p.quoteDepth - u.currentQuoteDepth) u = v at *
  have hDepth : v.currentQuoteDepth = p.quoteDepth := by omega
  have hMark : Reads (if v.prevWasFlowed then [] else
      if v.prevWas0length then bytes "<p>" else bytes "<br>")
      v.currentQuoteDepth v.currentQuoteDepth [] := by
    split_ifs
    · exact Reads.nil _
    · exact @reads_tag _ (bytes "p") _ (by decide) rfl
    · exact @reads_tag _ (bytes "br") _ (by decide) rfl
  have hLine := @reads_lineLoop v.currentQuoteDepth p.line [] 0
    (fun c hMem => absurd hMem List.not_mem_nil)
  have hNext := hStart.1.add (hMark.append hLine) p.isflowed (p.line = [])
  have hSaid : inked (([] ++ (expandTabs (0 + 0) p.line ++ [nl])).map
      (v.currentQuoteDepth, ·)) = saidLine p := by
    unfold saidLine inked
    rw [hDepth]
    simp
  rw [List.nil_append, List.length_nil, hSaid] at hNext
  exact hNext

end Lines

/-
  The page has no tags but those of `tagDepth`, its quotes
  are closed, and what it says, but for line ends, is the
  lines with their tabs expanded, each at its depth.
-/
theorem reads_rfc2646tohtml (lines : List FlowedLine) :
    ∃ cells, readHtml .text 0 (rfc2646tohtml lines) = some (cells, 0) ∧
      inked cells = lines.flatMap saidLine := by
  have hAll : ∀ r said, Says r said →
      Says (lines.foldl rfc2646tohtmlHandler r) (said ++ lines.flatMap saidLine) := by
    induction lines with
    | nil =>
      intro r said hSays
      rw [List.flatMap_nil, List.append_nil]
      exact hSays
    | cons l lines ih =>
      intro r said hSays
      have hNext := ih _ _ (hSays.handler l)
      rw [List.append_assoc] at hNext
      exact hNext
  have hFirst : Says rfc2646tohtmlAlloc [] := ⟨[], Reads.nil 0, rfl⟩
  have hEnd := (hAll _ _ hFirst).endquotes _ (Nat.le_refl _)
  rcases hEnd.1 with ⟨cells, hReads, hSaid⟩
  rw [hEnd.2, Nat.sub_self] at hReads
  have hPage := hReads []
  rw [List.append_nil] at hPage
  refine ⟨cells, ?_, hSaid⟩
  unfold rfc2646tohtml rfc2646tohtmlFree
  rw [hPage, readHtml]
  simp

end Sqwebmail

end Wmail
