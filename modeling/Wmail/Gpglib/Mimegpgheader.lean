import Mathlib.Data.List.DropRight
import Wmail.Core.Bytes
import Wmail.Core.Runs

/-
  The headers of mimegpg (mimegpgheader.c).

  Texts are without their terminators.

  Key theorems include:
    * `parseLoop_attrs`
    * `parseMimeHeader_printMimeHeader`
-/

namespace Wmail.Gpglib

structure MimeAttribute where
  name : List Byte
  value : Option (List Byte)
deriving DecidableEq

structure MimeHeader where
  headerName : List Byte
  attrList : List MimeAttribute
deriving DecidableEq

/- `striptrlspc`. -/
def striptrlspc (p : List Byte) : List Byte :=
  p.rdropWhile isspace

/-
  A pass over a value: the text, and what is behind it.  Both
  passes are the same.
-/
def scanValue : Bool → List Byte → List Byte × List Byte
  | _, [] => ([], [])
  | quote, c :: p =>
    if c = chr ';' ∧ quote = false then
      ([], c :: p)
    else if c = chr '"' then
      scanValue (!quote) p
    else if c = chr '\\' then
      match p with
      | [] => ([c], [])
      | d :: p => (d :: (scanValue quote p).1, (scanValue quote p).2)
    else
      (c :: (scanValue quote p).1, (scanValue quote p).2)

/- A character of an attribute's name. -/
def nameChar (c : Byte) : Bool :=
  c ≠ chr ';' && c ≠ chr '='

/- The attribute at `field`, and what is behind its value. -/
def readAttr (field : List Byte) : MimeAttribute × List Byte :=
  let name := field.takeWhile nameChar
  let p := field.drop name.length
  let p := if p.head? = some (chr '=') then p.tail else p
  let (s, field) := scanValue false (p.dropWhile isspace)
  let value := striptrlspc s
  (⟨striptrlspc name, if value = [] then none else some value⟩, field)

def skipSemicolon (field : List Byte) : List Byte :=
  if field.head? = some (chr ';') then field.tail else field

/- The loop, with the header once there is one. -/
def parseLoop : Nat → Option MimeHeader → List Byte → Option MimeHeader
  | 0, _, _ => none
  | fuel + 1, none, field =>
    if field.head?.any isspace then
      parseLoop fuel none field.tail
    else
      parseLoop fuel (some ⟨striptrlspc (field.takeWhile (· ≠ chr ';')), []⟩)
        (skipSemicolon (field.dropWhile (· ≠ chr ';')))
  | _ + 1, some h, [] => some h
  | fuel + 1, some h, c :: field =>
    if isspace c then
      parseLoop fuel (some h) field
    else
      let (a, field) := readAttr (c :: field)
      parseLoop fuel (some { h with attrList := h.attrList ++ [a] }) (skipSemicolon field)

/- `parse_mime_header`. -/
def parseMimeHeader (fuel : Nat) (field : List Byte) : Option MimeHeader :=
  parseLoop fuel none field

/- The characters that need no quotes. -/
def bareChars : List Byte :=
  bytes "abcdefghijklmnopqrstuvwxyzABCDEFGHIJKLMNOPQRSTUVWXYZ0123456789-_"

def bare (c : Byte) : Bool :=
  c ∈ bareChars

def escaped (value : List Byte) : List Byte :=
  value.flatMap fun c => if c = chr '"' ∨ c = chr '\\' then [chr '\\', c] else [c]

def printValue : Option (List Byte) → List Byte
  | none => []
  | some value =>
    chr '=' :: if value.all bare then value else chr '"' :: escaped value ++ [chr '"']

def printAttr (a : MimeAttribute) : List Byte :=
  chr ';' :: chr ' ' :: a.name ++ printValue a.value

/- `print_mime_header`. -/
def printMimeHeader (m : MimeHeader) : List Byte :=
  m.headerName ++ m.attrList.flatMap printAttr

theorem scanValue_quote (quote : Bool) (p : List Byte) :
    scanValue quote (chr '"' :: p) = scanValue (!quote) p := by
  have hEnd : chr '"' ≠ chr ';' := by decide
  cases p with
  | nil => simp [scanValue, hEnd]
  | cons d p => simp [scanValue, hEnd]

theorem scanValue_slash (quote : Bool) (d : Byte) (p : List Byte) :
    scanValue quote (chr '\\' :: d :: p) = (d :: (scanValue quote p).1, (scanValue quote p).2) := by
  have hEnd : chr '\\' ≠ chr ';' ∧ chr '\\' ≠ chr '"' := by decide
  simp [scanValue, hEnd]

theorem scanValue_char {quote : Bool} {c : Byte} (hEnd : ¬ (c = chr ';' ∧ quote = false))
    (hQuote : c ≠ chr '"') (hSlash : c ≠ chr '\\') (p : List Byte) :
    scanValue quote (c :: p) = (c :: (scanValue quote p).1, (scanValue quote p).2) := by
  cases p with
  | nil => simp [scanValue, hEnd, hQuote, hSlash]
  | cons d p => rw [scanValue, if_neg hEnd, if_neg hQuote, if_neg hSlash]

/- Nothing is behind an attribute, or the next one. -/
def Ends (more : List Byte) : Prop :=
  ∀ c, more.head? = some c → c = chr ';'

theorem scanValue_ends {more : List Byte} (hMore : Ends more) :
    scanValue false more = ([], more) := by
  cases more with
  | nil => rfl
  | cons c more =>
    cases hMore c rfl
    cases more with
    | nil => rfl
    | cons d more => rfl

theorem length_scanValue (quote : Bool) (p : List Byte) :
    (scanValue quote p).2.length ≤ p.length := by
  fun_induction scanValue quote p with
  | case1 => exact Nat.le_refl _
  | case2 => exact Nat.le_refl _
  | case3 => exact Nat.le_succ_of_le ‹_›
  | case4 => exact Nat.zero_le _
  | case5 => exact Nat.le_succ_of_le (Nat.le_succ_of_le ‹_›)
  | case6 => exact Nat.le_succ_of_le ‹_›

theorem length_skipSemicolon (field : List Byte) : (skipSemicolon field).length ≤ field.length := by
  unfold skipSemicolon
  split
  · exact List.length_tail ▸ Nat.sub_le _ 1
  · exact Nat.le_refl _

/- Every attribute takes a character. -/
theorem length_readAttr (c : Byte) (field : List Byte) :
    (skipSemicolon (readAttr (c :: field)).2).length ≤ field.length := by
  by_cases hName : nameChar c = true
  · refine (length_skipSemicolon _).trans ((length_scanValue _ _).trans ?_)
    refine (List.dropWhile_suffix _).length_le.trans ?_
    rw [List.takeWhile_cons_of_pos hName, List.length_cons, List.drop_succ_cons]
    have hDrop := (List.drop_suffix (field.takeWhile nameChar).length field).length_le
    split
    · exact (List.tail_suffix _).length_le.trans hDrop
    · exact hDrop
  · unfold readAttr
    rw [List.takeWhile_cons_of_neg hName]
    dsimp only
    rw [List.length_nil, List.drop_zero, List.head?_cons]
    split
    · refine (length_skipSemicolon _).trans ((length_scanValue _ _).trans ?_)
      exact (List.dropWhile_suffix _).length_le
    · rename_i hNotEq
      have hC : c = chr ';' := by
        simp [nameChar] at hName hNotEq
        by_contra hC
        exact hNotEq (hName hC)
      have hScan := @scanValue_ends (c :: field) fun d hHead => by
        cases hHead
        exact hC
      subst hC
      exact (congrArg (fun r => (skipSemicolon r.2).length) hScan).le

theorem parseLoop_some (fuel : Nat) (header : Option MimeHeader) (field : List Byte)
    (hFuel : field.length + (if header.isNone then 1 else 0) < fuel) :
    ∃ m, parseLoop fuel header field = some m := by
  fun_induction parseLoop fuel header field with
  | case1 => cases hFuel
  | case2 fuel field hSpace ih =>
    apply ih
    cases field with
    | nil => cases hSpace
    | cons c field => exact Nat.lt_of_succ_lt_succ hFuel
  | case3 fuel field hSpace ih =>
    apply ih
    have hField := (length_skipSemicolon _).trans
      (List.dropWhile_suffix (l := field) (· ≠ chr ';')).length_le
    exact Nat.lt_of_le_of_lt hField (Nat.lt_of_succ_lt_succ hFuel)
  | case4 fuel h => exact ⟨h, rfl⟩
  | case5 fuel h c field hSpace ih => exact ih (Nat.lt_of_succ_lt_succ hFuel)
  | case6 fuel h c field hSpace a more hRead ih =>
    apply ih
    have hLength := length_readAttr c field
    rw [hRead] at hLength
    exact Nat.lt_of_le_of_lt hLength (Nat.lt_of_succ_lt_succ hFuel)

/- Characters that mean nothing in a value without quotes. -/
theorem bare_plain {c : Byte} (hC : bare c = true) : c ≠ chr ';' ∧ c ≠ chr '"' ∧ c ≠ chr '\\' ∧
    ¬ isspace c = true := by
  have hAll : bareChars.all (fun c => c ≠ chr ';' ∧ c ≠ chr '"' ∧ c ≠ chr '\\' ∧
      ¬ isspace c = true) = true := by
    decide +kernel
  exact of_decide_eq_true (List.all_eq_true.mp hAll c (of_decide_eq_true hC))

variable {more : List Byte}

theorem Ends.flush (hMore : Ends more) : ¬ more.head?.any isspace = true := by
  cases more with
  | nil => exact Bool.false_ne_true
  | cons c more =>
    cases hMore c rfl
    exact Bool.false_ne_true

theorem scanValue_bare {value : List Byte} (hValue : ∀ c ∈ value, bare c = true)
    (hMore : Ends more) : scanValue false (value ++ more) = (value, more) := by
  induction value with
  | nil => exact scanValue_ends hMore
  | cons c value ih =>
    rcases List.forall_mem_cons.mp hValue with ⟨hC, hRest⟩
    rcases bare_plain hC with ⟨hEnd, hQuote, hSlash, _⟩
    rw [List.cons_append, scanValue_char (fun hBoth => hEnd hBoth.1) hQuote hSlash, ih hRest]

theorem scanValue_escaped (value : List Byte) (hMore : Ends more) :
    scanValue true (escaped value ++ chr '"' :: more) = (value, more) := by
  induction value with
  | nil => exact (scanValue_quote true more).trans (scanValue_ends hMore)
  | cons c value ih =>
    rw [escaped, List.flatMap_cons, ← escaped, List.append_assoc]
    split
    · show scanValue true (chr '\\' :: c :: (escaped value ++ chr '"' :: more)) = _
      rw [scanValue_slash, ih]
    · rename_i hPlain
      rw [not_or] at hPlain
      rw [List.singleton_append, scanValue_char (by simp) hPlain.1 hPlain.2, ih]

/- A text without white space at its end. -/
abbrev Trimmed (text : List Byte) : Prop :=
  ¬ text.getLast?.any isspace = true

/- A text without white space at its beginning. -/
abbrev Flush (text : List Byte) : Prop :=
  ¬ text.head?.any isspace = true

theorem striptrlspc_eq {text : List Byte} (hText : Trimmed text) : striptrlspc text = text := by
  unfold striptrlspc
  rw [List.rdropWhile_eq_self_iff]
  intro hSome
  rwa [Trimmed, List.getLast?_eq_getLast_of_ne_nil hSome] at hText

theorem dropWhile_flush {text : List Byte} (hText : Flush text) :
    text.dropWhile isspace = text := by
  cases text with
  | nil => rfl
  | cons c text => exact List.dropWhile_cons_of_neg hText

/- Names and values that can be read back. -/
structure MimeAttribute.WellFormed (a : MimeAttribute) : Prop where
  named : a.name ≠ []
  chars : a.name.all nameChar = true
  flush : Flush a.name
  trimmed : Trimmed a.name
  value : ∀ value ∈ a.value, value ≠ [] ∧ Trimmed value

structure MimeHeader.WellFormed (m : MimeHeader) : Prop where
  chars : chr ';' ∉ m.headerName
  flush : Flush m.headerName
  trimmed : Trimmed m.headerName
  attrs : ∀ a ∈ m.attrList, a.WellFormed

theorem scanValue_print {value : List Byte} (hSome : value ≠ []) (hMore : Ends more) :
    scanValue false (((if value.all bare then value else
      chr '"' :: escaped value ++ [chr '"']) ++ more).dropWhile isspace) = (value, more) := by
  split
  · rename_i hBare
    rw [List.all_eq_true] at hBare
    cases value with
    | nil => exact absurd rfl hSome
    | cons c value =>
      have hFlush : Flush (c :: value ++ more) := (bare_plain (hBare c List.mem_cons_self)).2.2.2
      rw [dropWhile_flush hFlush]
      exact scanValue_bare hBare hMore
  · rw [dropWhile_flush (by exact Bool.false_ne_true), List.append_assoc]
    exact (scanValue_quote false _).trans (scanValue_escaped value hMore)

theorem readAttr_eq {name tail s rest : List Byte} (hChars : ∀ c ∈ name, nameChar c = true)
    (hTrimmed : Trimmed name) (hStop : ∀ c, tail.head? = some c → nameChar c = false)
    (hScan : scanValue false
      ((if tail.head? = some (chr '=') then tail.tail else tail).dropWhile isspace) = (s, rest)) :
    readAttr (name ++ tail) =
      (⟨name, if striptrlspc s = [] then none else some (striptrlspc s)⟩, rest) := by
  unfold readAttr
  dsimp only
  rw [drop_takeWhile_length, takeWhile_run hChars hStop, dropWhile_run hChars hStop, hScan,
    striptrlspc_eq hTrimmed]

theorem readAttr_print {a : MimeAttribute} (hAttr : a.WellFormed) (hMore : Ends more) :
    readAttr (a.name ++ (printValue a.value ++ more)) = (a, more) := by
  cases a with
  | mk name value =>
    cases value with
    | none =>
      have hFlush : Flush more := hMore.flush
      have hEq : ¬ more.head? = some (chr '=') := fun hEq => absurd (hMore _ hEq) (by decide)
      refine @readAttr_eq name more [] more (List.all_eq_true.mp hAttr.chars) hAttr.trimmed
        (fun c hHead => hMore c hHead ▸ rfl) ?_
      rw [if_neg hEq, dropWhile_flush hFlush, scanValue_ends hMore]
    | some value =>
      rcases hAttr.value value rfl with ⟨hSome, hTrimmed⟩
      have hRead := @readAttr_eq name (printValue (some value) ++ more) value more
        (List.all_eq_true.mp hAttr.chars) hAttr.trimmed (fun c hHead => by cases hHead; rfl)
        (scanValue_print hSome hMore)
      rwa [striptrlspc_eq hTrimmed, if_neg hSome] at hRead

theorem ends_attrs (attrs : List MimeAttribute) : Ends (attrs.flatMap printAttr) := by
  intro c hHead
  cases attrs with
  | nil => cases hHead
  | cons a attrs =>
    cases hHead
    rfl

theorem parseLoop_attrs {attrs : List MimeAttribute} (hAttrs : ∀ a ∈ attrs, a.WellFormed)
    (h : MimeHeader) {fuel : Nat} (hFuel : (attrs.flatMap printAttr).length < fuel) :
    parseLoop fuel (some h) (skipSemicolon (attrs.flatMap printAttr)) =
      some { h with attrList := h.attrList ++ attrs } := by
  induction attrs generalizing h fuel with
  | nil =>
    cases fuel with
    | zero => cases hFuel
    | succ fuel =>
      rw [List.append_nil]
      rfl
  | cons a attrs ih =>
    rcases List.forall_mem_cons.mp hAttrs with ⟨hAttr, hMore⟩
    have hText : skipSemicolon ((a :: attrs).flatMap printAttr) =
        chr ' ' :: (a.name ++ (printValue a.value ++ attrs.flatMap printAttr)) := by
      simp [printAttr, skipSemicolon]
    have hLength : (attrs.flatMap printAttr).length + 2 < fuel := by
      rw [List.flatMap_cons, printAttr] at hFuel
      simp only [List.length_append, List.length_cons] at hFuel
      omega
    rcases (⟨fuel - 2, by omega⟩ : ∃ k, fuel = k + 2) with ⟨k, rfl⟩
    have hRead := readAttr_print hAttr (ends_attrs attrs)
    cases hName : a.name with
    | nil => exact absurd hName hAttr.named
    | cons c name =>
      have hFlush : Flush (c :: name) := hName ▸ hAttr.flush
      rw [hName] at hRead
      rw [hText, hName, parseLoop, if_pos (by decide), List.cons_append, parseLoop,
        if_neg (by exact hFlush), ← List.cons_append, hRead]
      dsimp only
      rw [ih hMore _ (by omega), List.append_assoc]
      rfl

/- The header of `parse_mime_header` is the one that is printed. -/
theorem parseMimeHeader_printMimeHeader :
    (∀ (field : List Byte) (fuel : Nat), field.length + 1 < fuel →
      ∃ m, parseMimeHeader fuel field = some m) ∧
    ∀ (m : MimeHeader), m.WellFormed → ∀ fuel : Nat, (printMimeHeader m).length + 1 < fuel →
      parseMimeHeader fuel (printMimeHeader m) = some m := by
  refine ⟨fun field fuel hFuel => parseLoop_some fuel none field hFuel,
    fun m hWell fuel hFuel => ?_⟩
  have hEnds := ends_attrs m.attrList
  have hStop : ∀ c, (m.attrList.flatMap printAttr).head? = some c →
      decide (c ≠ chr ';') = false := fun c hHead => by simp [hEnds c hHead]
  have hChars : ∀ c ∈ m.headerName, decide (c ≠ chr ';') = true := not_separator hWell.chars
  have hFlush : ¬ (printMimeHeader m).head?.any isspace = true := by
    unfold printMimeHeader
    cases hName : m.headerName with
    | nil => exact hEnds.flush
    | cons c name =>
      have hFirst : Flush (c :: name) := hName ▸ hWell.flush
      exact hFirst
  cases fuel with
  | zero => cases hFuel
  | succ fuel =>
    rw [printMimeHeader, List.length_append] at hFuel
    rw [parseMimeHeader, parseLoop, if_neg hFlush, printMimeHeader, takeWhile_run hChars hStop,
      dropWhile_run hChars hStop, striptrlspc_eq hWell.trimmed,
      parseLoop_attrs hWell.attrs _ (by omega)]
    rfl

/- A boundary with quotes around it, and a name alone. -/
def quotedHeader : MimeHeader where
  headerName := bytes "multipart/signed"
  attrList := [⟨bytes "boundary", some (bytes "=_\"; \\")⟩, ⟨bytes "x", none⟩]

theorem parseMimeHeader_quoted : parseMimeHeader 60
    (bytes "multipart/signed; boundary=\"=_\\\"; \\\\\"; x") = some quotedHeader := by
  have hText : printMimeHeader quotedHeader =
      bytes "multipart/signed; boundary=\"=_\\\"; \\\\\"; x" := by
    decide +kernel
  rw [← hText]
  refine parseMimeHeader_printMimeHeader.2 quotedHeader ⟨by decide +kernel, by decide +kernel,
    by decide +kernel, ?_⟩ 60 (by decide +kernel)
  exact List.forall_mem_cons.mpr ⟨⟨by decide, by decide +kernel, by decide +kernel,
    by decide +kernel, by decide +kernel⟩, List.forall_mem_singleton.mpr ⟨by decide,
    by decide +kernel, by decide +kernel, by decide +kernel, nofun⟩⟩

end Wmail.Gpglib
