import Wmail.Core.Runs
import Wmail.Sqwebmail.Html

/-
  The text of a tag, taken apart into its attributes.

  A tag is a list of attributes with blanks in front of each.
  The parser of the filter finds just these attributes, and an
  attribute that the filter has blanked out is still in its
  place until the tag is parsed again.

  Key theorems include:
    * `records_getElem?`
    * `attrsOf_layout`
-/

------------
-- Attributes
------------

namespace Wmail.Sqwebmail

/- A blank text. -/
def Blank (text : List Byte) : Prop :=
  ∀ b, b ∈ text → isspace b = true

theorem Blank.append {front rest : List Byte} (hFront : Blank front) (hRest : Blank rest) :
    Blank (front ++ rest) := by
  intro b hMem
  rcases List.mem_append.mp hMem with hHere | hThere
  · exact hFront b hHere
  · exact hRest b hThere

theorem blank_nil : Blank [] := by
  intro b hMem
  cases hMem

/- What follows the name of an attribute. -/
inductive AttrValue where
  | none
  | bare (run : List Byte)
  | quoted (q : Byte) (text : List Byte) (closed : Bool)
deriving DecidableEq

/- An attribute as it is written. -/
structure Attr where
  name : List Byte
  value : AttrValue
deriving DecidableEq

/- The characters of a value, from `=` on. -/
def AttrValue.render : AttrValue → List Byte
  | .none => []
  | .bare run => chr '=' :: run
  | .quoted q text closed => chr '=' :: q :: (text ++ if closed then [q] else [])

def Attr.render (a : Attr) : List Byte :=
  a.name ++ a.value.render

/- The value as the parser has it: a bare one is empty. -/
def AttrValue.text : AttrValue → List Byte
  | .none => []
  | .bare _ => []
  | .quoted _ text _ => text

/- Where the parser has the value, from the end of the name. -/
def AttrValue.start : AttrValue → Option Nat
  | .none => Option.none
  | .bare run => some (1 + run.length)
  | .quoted _ _ _ => some (1 + 1)

/- What the parser writes down of an attribute. -/
def Attr.record (a : Attr) (off bufsize : Nat) : TagAttr where
  tagname := off
  tagnamelen := a.name.length
  tagvalue := a.value.start.map (off + a.name.length + ·)
  tagvaluelen := a.value.text.length
  atagstart := off
  ataglen := a.render.length
  bufsize := bufsize

/- One of the two quotes. -/
def isQuote (b : Byte) : Bool :=
  b = chr '"' || b = chr '\''

/- A value that the parser finds again. -/
def AttrValue.Ok : AttrValue → Prop
  | .none => True
  | .bare run =>
    (∀ b, b ∈ run → inValue b = true) ∧ ∀ b, run.head? = some b → isQuote b = false
  | .quoted q text _ => isQuote q = true ∧ q ∉ text

/- An attribute that the parser finds again. -/
structure Attr.Ok (a : Attr) : Prop where
  name : ∀ b, b ∈ a.name → inName b = true
  value : a.value.Ok
  some : a.name ≠ [] ∨ a.value ≠ .none

/- What may follow a value. -/
def AttrValue.Before (v : AttrValue) (rest : List Byte) : Prop :=
  match v with
  | .none | .bare _ => ∀ b, rest.head? = some b → isspace b = true
  | .quoted _ _ true => True
  | .quoted _ _ false => rest = []

theorem isspace_equals : isspace (chr '=') = false := by
  decide

variable {b : Byte}

theorem isspace_of_isQuote (hQuote : isQuote b = true) : isspace b = false := by
  unfold isQuote at hQuote
  rw [Bool.or_eq_true, decide_eq_true_eq, decide_eq_true_eq] at hQuote
  rcases hQuote with hQuote | hQuote
  · rw [hQuote]
    decide
  · rw [hQuote]
    decide

theorem inName_of_isspace (hBlank : isspace b = true) : inName b = false := by
  unfold inName
  rw [hBlank]
  rfl

theorem inName_equals : inName (chr '=') = false := by
  decide

/- Only a blank and `=` end a name. -/
theorem end_of_name (hName : inName b = false) : isspace b = true ∨ b = chr '=' := by
  unfold inName at hName
  rw [Bool.not_eq_false', Bool.or_eq_true, decide_eq_true_eq] at hName
  exact hName

theorem isspace_of_inName (hName : inName b = true) : isspace b = false := by
  rw [← Bool.not_eq_true]
  intro hBlank
  rw [inName_of_isspace hBlank] at hName
  cases hName

/- An attribute starts with no blank. -/
theorem Attr.Ok.head {a : Attr} (hOk : a.Ok) :
    ∃ b rest, a.render = b :: rest ∧ isspace b = false := by
  rcases a with ⟨name, value⟩
  cases name with
  | cons b name =>
    refine ⟨b, name ++ value.render, rfl, ?_⟩
    exact isspace_of_inName (hOk.name b List.mem_cons_self)
  | nil =>
    cases value with
    | none =>
      rcases hOk.some with hName | hValue
      · exact absurd rfl hName
      · exact absurd rfl hValue
    | bare run => exact ⟨chr '=', run, rfl, isspace_equals⟩
    | quoted q text closed => exact ⟨chr '=', _, rfl, isspace_equals⟩

/- A value ends the name, or what follows the value does. -/
theorem AttrValue.head_render {v : AttrValue} {rest : List Byte} (hBefore : v.Before rest) :
    ∀ b, (v.render ++ rest).head? = some b → inName b = false := by
  intro b hHead
  cases v with
  | none => exact inName_of_isspace (hBefore b hHead)
  | bare run =>
    cases hHead
    exact inName_equals
  | quoted q text closed =>
    cases hHead
    exact inName_equals

/- The parser on a value that is written behind `=`. -/
theorem parsevalue_bare {run rest : List Byte} (hOk : (AttrValue.bare run).Ok)
    (hBefore : (AttrValue.bare run).Before rest) :
    parsevalue (run ++ rest) = (run.length, 0, run.length) := by
  have hEnd : ∀ b, rest.head? = some b → inValue b = false := by
    intro b hHead
    unfold inValue
    rw [hBefore b hHead]
    rfl
  have hRun := takeWhile_run hOk.1 hEnd
  unfold parsevalue
  split
  · rename_i hNil
    rw [List.append_eq_nil_iff] at hNil
    rw [hNil.1]
    rfl
  · rename_i c more hText
    have hQuote : isQuote c = false := by
      cases run with
      | nil =>
        have hBlank := hBefore c (by
          rw [List.nil_append] at hText
          rw [hText]
          rfl)
        rw [← Bool.not_eq_true]
        intro hQuote
        rw [isspace_of_isQuote hQuote] at hBlank
        cases hBlank
      | cons b run =>
        rw [List.cons_append, List.cons.injEq] at hText
        exact hOk.2 c (by rw [← hText.1]; rfl)
    unfold isQuote at hQuote
    rw [hQuote, hRun]
    rfl

theorem parsevalue_closed {q : Byte} {text : List Byte} (hQuote : isQuote q = true)
    (hText : q ∉ text) (rest : List Byte) :
    parsevalue (q :: (text ++ q :: rest)) = (1, text.length, text.length + 2) := by
  unfold isQuote at hQuote
  have hLess : text.length < (text ++ q :: rest).length := by
    rw [List.length_append, List.length_cons]
    omega
  unfold parsevalue
  simp only [hQuote, if_true, takeWhile_quoted hText, if_pos hLess]

theorem parsevalue_unclosed {q : Byte} {text : List Byte} (hQuote : isQuote q = true)
    (hText : q ∉ text) : parsevalue (q :: text) = (1, text.length, text.length + 1) := by
  unfold isQuote at hQuote
  unfold parsevalue
  simp only [hQuote, if_true, takeWhile_unclosed hText, if_neg (Nat.lt_irrefl _)]

variable {a : Attr}

/- The parser finds an attribute. -/
theorem parseone_render {rest : List Byte} (hOk : a.Ok) (hBefore : a.value.Before rest)
    (off bufsize : Nat) :
    parseone (a.render ++ rest) off bufsize = a.record off bufsize := by
  have hSplit : a.render ++ rest = a.name ++ (a.value.render ++ rest) := List.append_assoc _ _ _
  have hLength : a.render.length = a.name.length + a.value.render.length := List.length_append
  have hName := takeWhile_run hOk.name (AttrValue.head_render hBefore)
  have hValueOk := hOk.value
  unfold parseone Attr.record
  rw [hSplit, hLength]
  simp only [hName, List.drop_left, List.drop_length_add_append]
  cases hValue : a.value with
  | none =>
    rw [hValue] at hBefore
    rw [if_neg]
    · rfl
    · intro hHead
      have hBlank := hBefore (chr '=') hHead
      rw [isspace_equals] at hBlank
      cases hBlank
  | bare run =>
    rw [hValue] at hBefore hValueOk
    have hRun := parsevalue_bare hValueOk hBefore
    have hHead : ((AttrValue.bare run).render ++ rest).head? = some (chr '=') := rfl
    rw [if_pos hHead]
    simp [AttrValue.render, AttrValue.start, AttrValue.text, hRun, Nat.add_assoc, Nat.add_comm 1]
  | quoted q text closed =>
    rw [hValue] at hBefore hValueOk
    rcases hValueOk with ⟨hQuote, hText⟩
    have hHead : ((AttrValue.quoted q text closed).render ++ rest).head? = some (chr '=') := rfl
    rw [if_pos hHead]
    cases closed with
    | true =>
      have hRun := parsevalue_closed hQuote hText rest
      simp [AttrValue.render, AttrValue.start, AttrValue.text, hRun, Nat.add_assoc, Nat.add_comm 1]
    | false =>
      have hNil : rest = [] := hBefore
      have hRun := parsevalue_unclosed hQuote hText
      simp [hNil, AttrValue.render, AttrValue.start,
        AttrValue.text, hRun, Nat.add_assoc, Nat.add_comm 1]

/- What is written behind `=` is a value. -/
theorem exists_value (p : List Byte) : ∃ v rest, chr '=' :: p = AttrValue.render v ++ rest ∧
      v.Ok ∧ v.Before rest ∧ v ≠ .none := by
  cases p with
  | nil =>
    refine ⟨.bare [], [], rfl, ⟨?_, ?_⟩, ?_, ?_⟩
    · intro b hMem
      cases hMem
    · intro b hHead
      cases hHead
    · intro b hHead
      cases hHead
    · intro hSame
      cases hSame
  | cons q p =>
    by_cases hQuote : isQuote q = true
    · have hSplit := List.takeWhile_append_dropWhile (p := fun b => decide (b ≠ q)) (l := p)
      have hText := not_mem_takeWhile_separator q p
      rcases dropWhile_separator q p with hNone | ⟨rest, hRest⟩
      · rw [hNone, List.append_nil] at hSplit
        refine ⟨.quoted q p false, [], ?_, ⟨hQuote, ?_⟩, rfl, ?_⟩
        · simp [AttrValue.render]
        · rw [← hSplit]
          exact hText
        · intro hSame
          cases hSame
      · rw [hRest] at hSplit
        refine ⟨.quoted q (p.takeWhile (· ≠ q)) true, rest, ?_, ⟨hQuote, hText⟩, trivial, ?_⟩
        · conv_lhs => rw [← hSplit]
          simp [AttrValue.render]
        · intro hSame
          cases hSame
    · rw [Bool.not_eq_true] at hQuote
      refine ⟨.bare ((q :: p).takeWhile inValue), (q :: p).dropWhile inValue, ?_, ⟨?_, ?_⟩, ?_, ?_⟩
      · rw [AttrValue.render, List.cons_append, List.takeWhile_append_dropWhile]
      · exact forall_takeWhile inValue (q :: p)
      · intro b hHead
        rw [List.takeWhile_cons] at hHead
        split at hHead
        · cases hHead
          exact hQuote
        · cases hHead
      · intro b hHead
        have hStop := head_dropWhile_stop b hHead
        unfold inValue at hStop
        simpa using hStop
      · intro hSame
        cases hSame

/- A text that does not start with a blank starts with an attribute. -/
theorem exists_attr (hBlank : isspace b = false) (p : List Byte) :
    ∃ a rest, b :: p = Attr.render a ++ rest ∧ a.Ok ∧ a.value.Before rest := by
  have hSplit := List.takeWhile_append_dropWhile (p := inName) (l := b :: p)
  have hName := forall_takeWhile inName (b :: p)
  have hStop := head_dropWhile_stop (P := inName) (p := b :: p)
  generalize hFront : (b :: p).takeWhile inName = name at hSplit hName
  by_cases hEquals : ((b :: p).dropWhile inName).head? = some (chr '=')
  · rcases List.head?_eq_some_iff.mp hEquals with ⟨more, hMore⟩
    rcases exists_value more with ⟨v, rest, hText, hOk, hBefore, hSome⟩
    refine ⟨⟨name, v⟩, rest, ?_, ⟨hName, hOk, Or.inr hSome⟩, hBefore⟩
    rw [← hSplit, hMore, hText, Attr.render, List.append_assoc]
  · refine ⟨⟨name, .none⟩, (b :: p).dropWhile inName, ?_, ⟨hName, trivial, Or.inl ?_⟩, ?_⟩
    · rw [Attr.render, AttrValue.render, List.append_nil, hSplit]
    · intro hNil
      have hNone : name = [] := hNil
      rw [hNone, List.nil_append] at hSplit
      rw [hSplit] at hEquals hStop
      rcases end_of_name (hStop b rfl) with hOut | hOut
      · rw [hBlank] at hOut
        cases hOut
      · rw [hOut] at hEquals
        exact hEquals rfl
    · intro c hHead
      rcases end_of_name (hStop c hHead) with hOut | hOut
      · exact hOut
      · rw [hHead, hOut] at hEquals
        exact absurd rfl hEquals

------------
-- Tags
------------

/-
  An attribute of a tag, with the blanks in front of it.  One
  that is not kept has been blanked out.
-/
structure Item where
  gap : List Byte
  attr : Attr
  kept : Bool

def Item.render (i : Item) : List Byte :=
  i.gap ++ if i.kept then i.attr.render else List.replicate i.attr.render.length (chr ' ')

/- The text of a tag. -/
def layout : List Item → List Byte → List Byte
  | [], final => final
  | i :: rest, final => i.render ++ layout rest final

/- What may come after an attribute in a tag. -/
def Attr.Joined (a : Attr) (rest : List Item) (final : List Byte) : Prop :=
  match a.value with
  | .none | .bare _ => ∀ i, rest.head? = some i → i.gap ≠ []
  | .quoted _ _ true => True
  | .quoted _ _ false => rest = [] ∧ final = []

/- The attributes of a tag are what the parser finds. -/
def Laid : List Item → List Byte → Prop
  | [], final => Blank final
  | i :: rest, final => Blank i.gap ∧ i.attr.Ok ∧ i.attr.Joined rest final ∧ Laid rest final

/- What the parser writes down of a tag. -/
def records (bufsize : Nat) : Nat → List Item → List TagAttr
  | _, [] => []
  | off, i :: rest =>
    i.attr.record (off + i.gap.length) bufsize :: records bufsize (off + i.render.length) rest

theorem length_render (i : Item) : i.render.length = i.gap.length + i.attr.render.length := by
  unfold Item.render
  split
  · exact List.length_append
  · rw [List.length_append, List.length_replicate]

variable {final : List Byte}

/- What follows an attribute in a tag may follow its value. -/
theorem Laid.before {rest : List Item} (hLaid : Laid rest final)
    (hJoined : a.Joined rest final) : a.value.Before (layout rest final) := by
  have hBlank : (∀ i, rest.head? = some i → i.gap ≠ []) →
      ∀ b, (layout rest final).head? = some b → isspace b = true := by
    intro hGap b hHead
    cases rest with
    | nil => exact hLaid b (List.mem_of_mem_head? hHead)
    | cons i rest =>
      cases hGapText : i.gap with
      | nil => exact absurd hGapText (hGap i rfl)
      | cons c gap =>
        rw [layout, Item.render, hGapText] at hHead
        cases hHead
        apply hLaid.1
        rw [hGapText]
        exact List.mem_cons_self
  unfold Attr.Joined at hJoined
  cases hValue : a.value with
  | none =>
    rw [hValue] at hJoined
    exact hBlank hJoined
  | bare run =>
    rw [hValue] at hJoined
    exact hBlank hJoined
  | quoted q text closed =>
    rw [hValue] at hJoined
    cases closed with
    | true => trivial
    | false =>
      rcases hJoined with ⟨hRest, hFinal⟩
      unfold AttrValue.Before
      rw [hRest, hFinal]
      rfl

variable {items : List Item}

/- The parser finds the attributes of a tag. -/
theorem parseattr_layout (hLaid : Laid items final) (hKept : ∀ i, i ∈ items → i.kept = true)
    (bufsize off : Nat) :
    parseattr bufsize off (layout items final) = records bufsize off items := by
  induction items generalizing off with
  | nil =>
    have hNone : final.dropWhile isspace = [] := List.dropWhile_eq_nil_iff.mpr hLaid
    unfold parseattr
    split
    · rfl
    · rename_i b rest hText
      rw [layout, hNone] at hText
      cases hText
  | cons i rest ih =>
    rcases hLaid with ⟨hGap, hOk, hJoined, hRest⟩
    have hBefore := hRest.before hJoined
    rcases hOk.head with ⟨b, more, hHead, hBlank⟩
    have hRender : i.render = i.gap ++ i.attr.render := by
      unfold Item.render
      rw [if_pos (hKept i List.mem_cons_self)]
    have hText : layout (i :: rest) final = i.gap ++ (i.attr.render ++ layout rest final) := by
      rw [layout, hRender, List.append_assoc]
    have hDrop : (layout (i :: rest) final).dropWhile isspace =
        i.attr.render ++ layout rest final := by
      rw [hText]
      apply dropWhile_run hGap
      intro c hFirst
      rw [hHead] at hFirst
      cases hFirst
      exact hBlank
    have hLength : (layout (i :: rest) final).length - (i.attr.render ++ layout rest final).length =
          i.gap.length := by
      rw [hText, List.length_append]
      omega
    unfold parseattr
    split
    · rename_i hNil
      rw [hDrop, hHead] at hNil
      cases hNil
    · rename_i c p hCons
      rw [← hCons, hDrop]
      simp only [hLength, parseone_render hOk hBefore]
      rw [records]
      congr 1
      have hLen : (i.attr.record (off + i.gap.length) bufsize).ataglen = i.attr.render.length := rfl
      rw [hLen, List.drop_left, length_render, ← Nat.add_assoc]
      apply ih hRest
      intro j hMem
      exact hKept j (List.mem_cons_of_mem i hMem)

/- A gap before an attribute that can be joined to it. -/
theorem Attr.Joined.of_before (hBefore : a.value.Before (layout items final))
    (hLaid : Laid items final) (hKept : ∀ i, i ∈ items → i.kept = true) :
    a.Joined items final := by
  have hGap : (∀ b, (layout items final).head? = some b →
      isspace b = true) → ∀ i, items.head? = some i → i.gap ≠ [] := by
    intro hBlank i hHead hNil
    cases items with
    | nil => cases hHead
    | cons j rest =>
      cases hHead
      rcases hLaid.2.1.head with ⟨b, more, hRender, hSolid⟩
      have hFirst := hBlank b (by
        rw [layout, Item.render, hNil, if_pos (hKept i List.mem_cons_self), hRender]
        rfl)
      rw [hSolid] at hFirst
      cases hFirst
  unfold Attr.Joined
  cases hValue : a.value with
  | none =>
    rw [hValue] at hBefore
    exact hGap hBefore
  | bare run =>
    rw [hValue] at hBefore
    exact hGap hBefore
  | quoted q text closed =>
    rw [hValue] at hBefore
    cases closed with
    | true => trivial
    | false =>
      have hNil : layout items final = [] := hBefore
      cases items with
      | nil => exact ⟨rfl, hNil⟩
      | cons i rest =>
        rcases hLaid.2.1.head with ⟨b, more, hRender, _⟩
        rw [layout, Item.render, if_pos (hKept i List.mem_cons_self), hRender] at hNil
        simp at hNil

/- Every text is the text of a tag. -/
theorem exists_laid (text : List Byte) : ∃ items final, layout items final = text ∧
      Laid items final ∧ ∀ i, i ∈ items → i.kept = true := by
  have hSplit := List.takeWhile_append_dropWhile (p := isspace) (l := text)
  have hGap := forall_takeWhile isspace text
  cases hText : text.dropWhile isspace with
  | nil =>
    refine ⟨[], text, rfl, ?_, ?_⟩
    · exact List.dropWhile_eq_nil_iff.mp hText
    · intro i hMem
      cases hMem
  | cons b p =>
    have hBlank := head_dropWhile_stop (P := isspace) (p := text) b (by rw [hText]; rfl)
    rcases exists_attr hBlank p with ⟨a, rest, hAttr, hOk, hBefore⟩
    rcases hOk.head with ⟨c, more, hHead, _⟩
    have hLess : rest.length < text.length := by
      rw [← hSplit, hText, hAttr, hHead]
      simp only [List.length_append, List.length_cons]
      omega
    rcases exists_laid rest with ⟨items, final, hRest, hLaid, hKept⟩
    rw [← hRest] at hBefore
    refine ⟨⟨text.takeWhile isspace, a, true⟩ :: items, final, ?_,
      ⟨hGap, hOk, Attr.Joined.of_before hBefore hLaid hKept, hLaid⟩,
      ?_⟩
    · rw [layout, Item.render, hRest, if_pos rfl, List.append_assoc, ← hAttr, ← hText, hSplit]
    · intro i hMem
      rcases List.mem_cons.mp hMem with hSame | hRest
      · rw [hSame]
      · exact hKept i hRest
termination_by text.length

------------
-- Blanked Attributes
------------

/- An attribute that the filter still sees. -/
def keptAttrs (items : List Item) : List Attr :=
  (items.filter Item.kept).map Item.attr

/-
  What the parser finds when the tag is parsed again: what has
  been blanked out is a gap.
-/
def compact (gap : List Byte) : List Item → List Byte → List Item × List Byte
  | [], final => ([], gap ++ final)
  | i :: rest, final =>
    if i.kept then
      (⟨gap ++ i.gap, i.attr, true⟩ :: (compact [] rest final).1, (compact [] rest final).2)
    else
      compact (gap ++ i.render) rest final

theorem Item.blank_render {i : Item} (hGap : Blank i.gap) (hKept : ¬ i.kept = true) :
    Blank i.render := by
  unfold Item.render
  rw [if_neg hKept]
  apply hGap.append
  intro b hMem
  rw [List.eq_of_mem_replicate hMem]
  decide

theorem layout_compact (gap : List Byte) (items : List Item) (final : List Byte) :
    layout (compact gap items final).1 (compact gap items final).2 = gap ++ layout items final := by
  induction items generalizing gap with
  | nil => rfl
  | cons i rest ih =>
    unfold compact
    by_cases hKept : i.kept = true
    · rw [if_pos hKept, layout, ih, layout]
      unfold Item.render
      rw [if_pos hKept, if_pos rfl, List.nil_append]
      simp only [List.append_assoc]
    · rw [if_neg hKept, ih, layout, List.append_assoc]

theorem kept_compact (gap : List Byte) (items : List Item) (final : List Byte) :
    ∀ i, i ∈ (compact gap items final).1 → i.kept = true := by
  induction items generalizing gap with
  | nil =>
    intro i hMem
    cases hMem
  | cons j rest ih =>
    intro i hMem
    unfold compact at hMem
    split at hMem
    · rcases List.mem_cons.mp hMem with hSame | hRest
      · rw [hSame]
      · exact ih [] i hRest
    · exact ih (gap ++ j.render) i hMem

theorem attrs_compact (gap : List Byte) (items : List Item) (final : List Byte) :
    (compact gap items final).1.map Item.attr = keptAttrs items := by
  induction items generalizing gap with
  | nil => rfl
  | cons i rest ih =>
    unfold compact keptAttrs
    by_cases hKept : i.kept = true
    · rw [if_pos hKept, List.filter_cons_of_pos hKept, List.map_cons, List.map_cons, ih]
      rfl
    · rw [if_neg hKept, List.filter_cons_of_neg hKept, ih]
      rfl

/- A gap that is carried on stays in front of the next attribute. -/
theorem gap_compact {gap : List Byte} (hGap : gap ≠ []) (items : List Item)
    (final : List Byte) : ∀ i, (compact gap items final).1.head? = some i → i.gap ≠ [] := by
  induction items generalizing gap with
  | nil =>
    intro i hHead
    cases hHead
  | cons j rest ih =>
    intro i hHead
    unfold compact at hHead
    split at hHead
    · cases hHead
      exact List.append_ne_nil_of_left_ne_nil hGap j.gap
    · exact ih (List.append_ne_nil_of_left_ne_nil hGap j.render) i hHead

theorem Attr.Joined.compact (hJoined : a.Joined items final) :
    a.Joined (compact [] items final).1 (compact [] items final).2 := by
  have hGap : (∀ i, items.head? = some i → i.gap ≠ []) →
      ∀ i, (Sqwebmail.compact [] items final).1.head? = some i → i.gap ≠ [] := by
    intro hGap i hHead
    cases items with
    | nil => cases hHead
    | cons j rest =>
      have hSome := hGap j rfl
      unfold Sqwebmail.compact at hHead
      split at hHead
      · cases hHead
        exact hSome
      · apply gap_compact _ rest final i hHead
        unfold Item.render
        rw [List.nil_append]
        exact List.append_ne_nil_of_left_ne_nil hSome _
  unfold Attr.Joined at hJoined ⊢
  cases hValue : a.value with
  | none =>
    rw [hValue] at hJoined
    exact hGap hJoined
  | bare run =>
    rw [hValue] at hJoined
    exact hGap hJoined
  | quoted q text closed =>
    rw [hValue] at hJoined
    cases closed with
    | true => trivial
    | false =>
      rcases hJoined with ⟨hItems, hFinal⟩
      rw [hItems, hFinal]
      exact ⟨rfl, rfl⟩

theorem Laid.compact {gap : List Byte} (hGap : Blank gap) (hLaid : Laid items final) :
    Laid (compact gap items final).1 (compact gap items final).2 := by
  induction items generalizing gap with
  | nil => exact hGap.append hLaid
  | cons i rest ih =>
    rcases hLaid with ⟨hBlank, hOk, hJoined, hRest⟩
    unfold Sqwebmail.compact
    by_cases hKept : i.kept = true
    · rw [if_pos hKept]
      exact ⟨hGap.append hBlank, hOk, hJoined.compact, ih blank_nil hRest⟩
    · rw [if_neg hKept]
      exact ih (hGap.append (Item.blank_render hBlank hKept)) hRest

/- The parts around an attribute that is kept. -/
theorem compact_append (gap : List Byte) (front rest : List Item) (final : List Byte)
    {i : Item} (hKept : i.kept = true) :
    compact gap (front ++ i :: rest) final = ((compact gap front []).1 ++
          ⟨(compact gap front []).2 ++ i.gap, i.attr, true⟩ :: (compact [] rest final).1,
        (compact [] rest final).2) := by
  induction front generalizing gap with
  | nil => simp [compact, hKept]
  | cons j front ih =>
    rw [List.cons_append, compact, compact, ih, ih]
    split
    · rfl
    · rfl

theorem layout_append (front rest : List Item) (final : List Byte) :
    layout (front ++ rest) final = layout front [] ++ layout rest final := by
  induction front with
  | nil => rfl
  | cons i front ih => rw [List.cons_append, layout, layout, ih, List.append_assoc]

theorem length_records (bufsize off : Nat) (items : List Item) :
    (records bufsize off items).length = items.length := by
  induction items generalizing off with
  | nil => rfl
  | cons i rest ih => rw [records, List.length_cons, ih, List.length_cons]

theorem records_append (bufsize off : Nat) (front rest : List Item) :
    records bufsize off (front ++ rest) = records bufsize off front ++
        records bufsize (off + (layout front []).length) rest := by
  induction front generalizing off with
  | nil => rfl
  | cons i front ih =>
    rw [List.cons_append, records, records, ih, layout, List.length_append, Nat.add_assoc]
    rfl

/- The place of an attribute's first character. -/
def startOf (front : List Item) (i : Item) : Nat :=
  (layout front []).length + i.gap.length

/- The record of the attribute behind `front`. -/
theorem records_getElem? (bufsize : Nat) (front rest : List Item) (i : Item) :
    (records bufsize 0 (front ++ i :: rest))[front.length]? =
      some (i.attr.record (startOf front i) bufsize) := by
  rw [records_append, List.getElem?_append_right
    (Nat.le_of_eq (length_records bufsize 0 front)), length_records,
    Nat.sub_self, records, Nat.zero_add]
  rfl

/- Whether an attribute is kept says nothing about the records. -/
theorem records_congr (bufsize off : Nat) {items others : List Item}
    (hSame : items.map (fun i => (i.gap, i.attr)) = others.map (fun i => (i.gap, i.attr))) :
    records bufsize off items = records bufsize off others := by
  induction items generalizing off others with
  | nil =>
    cases others with
    | nil => rfl
    | cons j others => cases hSame
  | cons i items ih =>
    cases others with
    | nil => cases hSame
    | cons j others =>
      simp only [List.map_cons, List.cons.injEq, Prod.mk.injEq] at hSame
      rcases hSame with ⟨⟨hGap, hAttr⟩, hRest⟩
      have hLength : i.render.length = j.render.length := by
        rw [length_render, length_render, hGap, hAttr]
      rw [records, records, hGap, hAttr, hLength, ih _ hRest]

/- A value from its characters behind `=`. -/
def valueOf (written : List Byte) (len : Nat) : AttrValue :=
  match written with
  | [] => .bare []
  | q :: rest =>
    if isQuote q then .quoted q (rest.take len) (len < rest.length) else .bare written

/- The attribute that a record is about. -/
def attrAt (text : List Byte) (t : TagAttr) : Attr where
  name := (text.drop t.tagname).take t.tagnamelen
  value :=
    match t.tagvalue with
    | none => .none
    | some _ =>
      valueOf ((text.drop (t.tagname + (t.tagnamelen + 1))).take
        (t.ataglen - (t.tagnamelen + 1))) t.tagvaluelen

/- The attributes that the parser finds in a text. -/
def attrsOf (text : List Byte) : List Attr :=
  (parseattr 0 0 text).map (attrAt text)

theorem valueOf_bare {run : List Byte} (hOk : (AttrValue.bare run).Ok) (len : Nat) :
    valueOf run len = .bare run := by
  unfold valueOf
  cases run with
  | nil => rfl
  | cons b run =>
    have hQuote := hOk.2 b rfl
    simp only [hQuote, Bool.false_eq_true, if_false]

theorem valueOf_quoted {q : Byte} (hQuote : isQuote q = true) (text : List Byte) (closed : Bool) :
    valueOf (q :: (text ++ if closed then [q] else [])) text.length = .quoted q text closed := by
  unfold valueOf
  simp only [hQuote, if_true, List.take_left]
  cases closed with
  | true => simp
  | false => simp

/- A record is about the attribute that it was made of. -/
theorem attrAt_record (hOk : a.Ok) (front rest : List Byte) (bufsize : Nat) :
    attrAt (front ++ (a.render ++ rest)) (a.record front.length bufsize) = a := by
  rcases a with ⟨name, value⟩
  unfold attrAt Attr.record
  simp only [Attr.mk.injEq]
  constructor
  · rw [List.drop_left, Attr.render, List.append_assoc, List.take_left]
  · have hDrop : ∀ more : List Byte, (front ++ (name ++ chr '=' :: more ++ rest)).drop
            (front.length + (name.length + 1)) = more ++ rest := by
      intro more
      rw [← List.drop_drop, List.drop_left, ← List.drop_drop, List.append_assoc, List.drop_left]
      rfl
    cases value with
    | none => rfl
    | bare run =>
      have hLength : (name ++ chr '=' :: run).length - (name.length + 1) = run.length := by
        rw [List.length_append, List.length_cons]
        omega
      simp only [AttrValue.start, Option.map_some, Attr.render,
        AttrValue.render, hDrop, hLength, List.take_left]
      exact valueOf_bare hOk.value _
    | quoted q text closed =>
      generalize hMore : text ++ (if closed then [q] else []) = more
      have hLength : (name ++ chr '=' :: q :: more).length -
          (name.length + 1) = (q :: more).length := by
        rw [List.length_append, List.length_cons]
        omega
      simp only [AttrValue.start, Option.map_some, Attr.render,
        AttrValue.render, hMore, hDrop, hLength, List.take_left]
      rw [← hMore]
      exact valueOf_quoted hOk.value.1 text closed

theorem map_attrAt_records (hLaid : Laid items final)
    (hKept : ∀ i, i ∈ items → i.kept = true) (front : List Byte) (bufsize : Nat) :
    (records bufsize front.length items).map (attrAt (front ++ layout items final)) =
      items.map Item.attr := by
  induction items generalizing front with
  | nil => rfl
  | cons i rest ih =>
    have hRender : i.render = i.gap ++ i.attr.render := by
      unfold Item.render
      rw [if_pos (hKept i List.mem_cons_self)]
    have hHere : front ++ layout (i :: rest) final = (front ++ i.gap) ++
          (i.attr.render ++ layout rest final) := by
      rw [layout, hRender]
      simp only [List.append_assoc]
    have hThere : front ++ layout (i :: rest) final = (front ++ i.render) ++ layout rest final := by
      rw [layout, List.append_assoc]
    have hFirst := attrAt_record hLaid.2.1 (front ++ i.gap) (layout rest final) bufsize
    have hMore := ih hLaid.2.2.2 (fun j hMem => hKept j (List.mem_cons_of_mem i hMem))
      (front ++ i.render)
    rw [List.length_append] at hFirst hMore
    rw [records, List.map_cons, List.map_cons]
    congr 1
    · rw [hHere]
      exact hFirst
    · rw [hThere]
      exact hMore

/- The attributes of a tag that has been laid out. -/
theorem attrsOf_layout (hLaid : Laid items final) (hKept : ∀ i, i ∈ items → i.kept = true) :
    attrsOf (layout items final) = items.map Item.attr := by
  unfold attrsOf
  rw [parseattr_layout hLaid hKept]
  exact map_attrAt_records hLaid hKept [] 0

end Wmail.Sqwebmail
