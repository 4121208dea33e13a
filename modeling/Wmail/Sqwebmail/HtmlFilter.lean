import Wmail.Sqwebmail.HtmlLinks
import Wmail.Sqwebmail.HtmlReader

/-
  The filter on a whole tag.

  A tag that the filter keeps is put out with the attributes
  that are left of it, and an image becomes a link and a text.

  Key theorems include:
    * `parse_tag`
    * `filteredTag_safe`
-/

namespace Wmail.Sqwebmail

/- The attribute after the first loop. -/
def Item.hushed (i : Item) : Item :=
  { i with kept := !i.attr.isOn }

theorem Item.hushed_of_on {i : Item} (hOn : i.attr.isOn = true) : i.hushed = i.blanked := by
  unfold Item.hushed Item.blanked
  rw [hOn]
  rfl

theorem Item.hushed_of_quiet {i : Item} (hKept : i.kept = true)
    (hOn : i.attr.isOn = false) : i.hushed = i := by
  unfold Item.hushed
  rw [hOn, Bool.not_false, ← hKept]

variable {s : Filter} {first i : Item} {done rest : List Item} {final : List Byte}

theorem Filter.HoldsTag.isOn (hHolds : s.HoldsTag first (done ++ i :: rest) final)
    (hKept : i.kept = true) : s.isOn (recordOf s first done i) = i.attr.isOn := by
  have hName := hHolds.at_item.name hKept
  unfold Filter.isOn Attr.isOn recordOf Attr.record
  simp only []
  by_cases hLong : 2 < i.attr.name.length
  · have hTwo : s.slice (startOf (first :: done) i) 2 = i.attr.name.take 2 := by
      conv_rhs => rw [← hName]
      unfold Filter.slice
      rw [List.take_take, Nat.min_eq_left (Nat.le_of_lt hLong)]
    rw [hTwo]
  · simp only [decide_eq_false hLong, Bool.false_and]

/- The first loop blanks the event handlers. -/
theorem blankOn_loop (done : List Item) (hHolds : s.HoldsTag first (done ++ rest) final)
    (hKept : ∀ i, i ∈ rest → i.kept = true) :
    ∃ s', (List.range' (done.length + 1) rest.length).foldl (fun s l =>
          match s.tagattr[l]? with
          | none => s
          | some t => if s.isOn t then s.blank t else s) s = s' ∧
      s'.HoldsTag first (done ++ rest.map Item.hushed) final ∧
      s.SameMode s' := by
  induction rest generalizing s done with
  | nil => exact ⟨s, rfl, hHolds, rfl, rfl⟩
  | cons i rest ih =>
    have hHere := hKept i List.mem_cons_self
    have hLater : ∀ j, j ∈ rest → j.kept = true := by
      intro j hMem
      exact hKept j (List.mem_cons_of_mem i hMem)
    have hAttr : s.tagattr[done.length + 1]? = some (recordOf s first done i) := hHolds.at_item.attr
    have hOnHere := hHolds.isOn hHere
    rw [List.length_cons, List.range'_succ, List.foldl_cons, hAttr]
    simp only [hOnHere]
    have hNext : ∃ s', (if i.attr.isOn = true then
          s.blank (recordOf s first done i) else s) = s' ∧
        s'.HoldsTag first ((done ++ [i.hushed]) ++ rest) final ∧ s.SameMode s' := by
      rw [List.append_assoc, List.singleton_append]
      cases hOn : i.attr.isOn with
      | true =>
        refine ⟨s.blank (recordOf s first done i), rfl, ?_, rfl, rfl⟩
        rw [Item.hushed_of_on hOn]
        exact hHolds.blank hHere
      | false =>
        refine ⟨s, rfl, ?_, rfl, rfl⟩
        rw [Item.hushed_of_quiet hHere hOn]
        exact hHolds
    rcases hNext with ⟨s', hStep, hThere, hMode⟩
    rcases ih _ hThere hLater with ⟨last, hRun, hLast, hLastMode⟩
    rw [List.length_append, List.length_singleton] at hRun
    rw [List.append_assoc] at hLast
    exact ⟨last, by rw [hStep]; exact hRun, hLast, hMode.trans hLastMode⟩

theorem blankOn_holds (hHolds : s.HoldsTag first rest final)
    (hKept : ∀ i, i ∈ rest → i.kept = true) :
    s.blankOn.HoldsTag first (rest.map Item.hushed) final ∧ s.SameMode s.blankOn := by
  rcases blankOn_loop [] hHolds hKept with ⟨s', hRun, hLast, hMode⟩
  have hCount : s.tagattrlen - 1 = rest.length := by
    rw [hHolds.1.count, List.length_cons, Nat.add_sub_cancel]
  have hSame : s.blankOn = s' := by
    unfold Filter.blankOn
    rw [hCount]
    exact hRun
  rw [hSame]
  exact ⟨hLast, hMode⟩

/- The tag as the parser sees it. -/
def seenText (tag : List Byte) : List Byte :=
  parsedText (tag.takeWhile (· ≠ 0))

theorem length_seenText (tag : List Byte) : (seenText tag).length ≤ tag.length := by
  unfold seenText parsedText
  rw [List.length_map]
  exact (List.takeWhile_prefix _).length_le

variable {tag : List Byte}

/- A tag starts with its name. -/
theorem TagText.laid (hTag : TagText tag) :
    ∃ first rest final, layout (first :: rest) final = seenText tag ∧ Laid (first :: rest) final ∧
        first.gap = [] ∧
        ∀ i, i ∈ first :: rest → i.kept = true := by
  rcases hTag.start with ⟨c, more, hText, hStart⟩
  rcases tagStart_cases hStart with ⟨_, hBlank, _⟩
  have hByte : c ≠ 0 ∧ c ≠ chr '<' := by
    constructor
    · intro hSame
      rw [hSame] at hStart
      exact absurd hStart (by decide)
    · intro hSame
      rw [hSame] at hStart
      exact absurd hStart (by decide)
  have hHead : (seenText tag).head? = some c := by
    unfold seenText parsedText
    simp [hText, hByte.1, hByte.2]
  rcases exists_laid (seenText tag) with ⟨items, final, hLayout, hLaid, hKept⟩
  cases items with
  | nil =>
    have hFinal : final = seenText tag := hLayout
    have hFirst := hLaid c (by
      rw [hFinal]
      exact List.mem_of_mem_head? hHead)
    rw [hBlank] at hFirst
    cases hFirst
  | cons first rest =>
    refine ⟨first, rest, final, hLayout, hLaid, ?_, hKept⟩
    cases hGap : first.gap with
    | nil => rfl
    | cons b gap =>
      rw [← hLayout, layout, Item.render, hGap] at hHead
      cases hHead
      have hFirst := hLaid.1 c (by
        rw [hGap]
        exact List.mem_cons_self)
      rw [hBlank] at hFirst
      cases hFirst

/- The parser on the tag that has been read. -/
theorem parse_tag (hWritten : s.Written tag) (hSize : s.tagbufsize ≤ tagLimit)
    (hLength : tag.length < tagLimit) (hLast : chr '>' ∉ tag)
    (hLayout : layout (first :: rest) final = seenText tag)
    (hLaid : Laid (first :: rest) final) (hKept : ∀ i, i ∈ first :: rest → i.kept = true) :
    ∃ s', (s.addtagbuf 0).parsetagbuf = some s' ∧ s'.HoldsTag first rest final ∧ s.SameMode s' := by
  have hSmall := hWritten.small hSize hLength 0
  have hLess : (s.addtagbuf 0).tagbufsize < tagbufLimit := Nat.lt_of_le_of_lt hSmall (by decide)
  rcases hWritten.ended hLess with ⟨more, hBuffer⟩
  have hNul := not_mem_takeWhile_separator 0 tag
  have hEnd : chr '>' ∉ tag.takeWhile (· ≠ 0) := by
    intro hMem
    exact hLast (List.takeWhile_subset _ hMem)
  have hText : ∃ more, (s.addtagbuf 0).tagbuf = tag.takeWhile (· ≠ 0) ++ 0 :: more := by
    have hSplit := List.takeWhile_append_dropWhile
      (p := fun b => decide (b ≠ (0 : Byte))) (l := tag)
    rcases dropWhile_separator 0 tag with hNone | ⟨last, hRest⟩
    · rw [hNone, List.append_nil] at hSplit
      refine ⟨more, ?_⟩
      rw [hBuffer, hSplit]
    · rw [hRest] at hSplit
      refine ⟨last ++ 0 :: more, ?_⟩
      rw [hBuffer]
      conv_lhs => rw [← hSplit]
      rw [List.append_assoc, List.cons_append]
  rcases hText with ⟨last, hText⟩
  rcases parsetagbuf_holds hText hNul hEnd
    (hWritten.addtagbuf 0).multiple hSmall hLayout hLaid hKept with
      ⟨s', hParsed, hHolds, hMode⟩
  exact ⟨s', hParsed, ⟨hHolds, hKept first List.mem_cons_self⟩,
    (sameMode_addtagbuf s 0).trans hMode⟩

------------
-- Reading a Tag Again
------------

theorem map_records {rest : List Item} (front : List Item)
    (hHolds : s.Holds (front ++ rest) final) (hKept : ∀ i, i ∈ rest → i.kept = true)
    (bufsize : Nat) :
    (records bufsize (layout front []).length rest).map
        (fun t => (s.slice t.tagname t.tagnamelen, s.valueText t)) =
      rest.map (fun i => (i.attr.name, i.attr.value.text)) := by
  induction rest generalizing front with
  | nil => rfl
  | cons i rest ih =>
    have hHere := hKept i List.mem_cons_self
    have hName := hHolds.name hHere
    have hValue := hHolds.valueText hHere bufsize
    have hSplit : front ++ i :: rest = (front ++ [i]) ++ rest := by
      rw [List.append_assoc, List.singleton_append]
    have hLength : (layout (front ++ [i]) []).length =
        (layout front []).length + i.render.length := by
      rw [layout_append, List.length_append, layout, layout, List.append_nil]
    rw [hSplit] at hHolds
    have hMore := ih (front ++ [i]) hHolds (fun j hMem => hKept j (List.mem_cons_of_mem i hMem))
    rw [hLength] at hMore
    rw [records, List.map_cons, List.map_cons, hMore]
    congr 1
    exact Prod.ext hName hValue

variable {items : List Item}

/- The attributes of a tag that is laid out are read again. -/
theorem readAttrs_layout (hLaid : Laid items final) (hKept : ∀ i, i ∈ items → i.kept = true)
    (hClean : Clean (layout items final)) :
    readAttrs (layout items final) = items.map (fun i => (i.attr.name, i.attr.value.text)) := by
  rcases parsetagbuf_holds (s := { freshFilter with tagbuf := layout items final ++ [0] })
    rfl hClean.nul hClean.end_tag (Nat.dvd_zero 256)
    (Nat.zero_le tagLimit) (parsedText_of_clean hClean).symm hLaid
    hKept with ⟨s', hParsed, hHolds, _⟩
  rcases hHolds.attrs with ⟨stale, hAttrs⟩
  have hLength := length_records s'.tagbufsize 0 items
  have hMap := map_records [] hHolds hKept s'.tagbufsize
  unfold readAttrs
  rw [hParsed]
  simp only []
  rw [hAttrs, hHolds.count, ← hLength, List.take_left]
  exact hMap

/- An attribute whose open quote goes on. -/
def Extends (a b : Attr) : Prop :=
  b = a ∨ ∃ q text more closed, a.value = .quoted q text false ∧
      b = ⟨a.name, .quoted q (text ++ more) closed⟩

/- The attribute that opens a window. -/
def windowAttr : Attr where
  name := bytes "target"
  value := .quoted (chr '"') (bytes "_blank") true

/- What is left of it behind an open quote. -/
def windowRest : Attr where
  name := bytes "_blank\""
  value := .none

/- What opens a window. -/
def windowText : List Byte :=
  bytes " target=\"_blank\""

theorem clean_windowText : Clean windowText :=
  List.all_eq_true.mp (by decide)

theorem forall₂_right {R : Item → Item → Prop} {items others : List Item}
    (hAll : List.Forall₂ R items others) : ∀ j, j ∈ others → ∃ i, i ∈ items ∧ R i j := by
  induction hAll with
  | nil =>
    intro j hMem
    cases hMem
  | cons hHere hMore ih =>
    rename_i i k items others
    intro j hMem
    rcases List.mem_cons.mp hMem with hSame | hLater
    · rw [hSame]
      exact ⟨i, List.mem_cons_self, hHere⟩
    · rcases ih j hLater with ⟨m, hItem, hPair⟩
      exact ⟨m, List.mem_cons_of_mem i hItem, hPair⟩

theorem windowAttr_ok : windowAttr.Ok :=
  ⟨List.all_eq_true.mp (by decide), ⟨by decide, by decide⟩, Or.inl (by decide)⟩

theorem windowRest_ok : windowRest.Ok :=
  ⟨List.all_eq_true.mp (by decide), trivial, Or.inl (by decide)⟩

/- The open quote of the last attribute goes on. -/
theorem extend_open {q : Byte} {text : List Byte} (hGap : Blank i.gap)
    (hKept : i.kept = true) (hOk : i.attr.Ok) (hValue : i.attr.value = .quoted q text false) :
    ∃ j extra, layout (j :: extra) [] = layout [i] [] ++ windowText ∧
        Laid (j :: extra) [] ∧ j.kept = true ∧ j.gap = i.gap ∧
        Extends i.attr j.attr ∧
        ∀ k, k ∈ extra → k.kept = true ∧ k.attr = windowRest := by
  rcases i with ⟨gap, ⟨name, value⟩, kept⟩
  have hHere : value = .quoted q text false := hValue
  have hYes : kept = true := hKept
  rw [hHere] at hOk
  rcases hOk.value with ⟨hQuote, hText⟩
  have hCases : q = chr '"' ∨ q = chr '\'' := by
    unfold isQuote at hQuote
    simpa using hQuote
  rw [hHere, hYes]
  rcases hCases with hDouble | hSingle
  · refine ⟨⟨gap, ⟨name, .quoted q (text ++ bytes " target=") true⟩,
      true⟩, [⟨[], windowRest, true⟩], ?_,
      ⟨hGap, ⟨hOk.name, ⟨hQuote, ?_⟩, Or.inr AttrValue.noConfusion⟩,
        trivial, blank_nil, windowRest_ok, ?_, blank_nil⟩,
      rfl, rfl, Or.inr ⟨q, text, _, true, rfl, rfl⟩, ?_⟩
    · rw [hDouble]
      have hSplit : windowText = bytes " target=" ++ chr '"' :: bytes "_blank\"" := by decide
      simp [layout, Item.render, Attr.render, AttrValue.render, windowRest, hSplit]
    · rw [List.mem_append, not_or]
      refine ⟨hText, ?_⟩
      rw [hDouble]
      decide
    · intro k hHead
      cases hHead
    · intro k hMem
      rw [List.mem_singleton.mp hMem]
      exact ⟨rfl, rfl⟩
  · refine ⟨⟨gap, ⟨name, .quoted q (text ++ windowText) false⟩, true⟩, [], ?_,
      ⟨hGap, ⟨hOk.name, ⟨hQuote, ?_⟩, Or.inr AttrValue.noConfusion⟩, ⟨rfl, rfl⟩, blank_nil⟩,
      rfl, rfl, Or.inr ⟨q, text, _, false, rfl, rfl⟩, ?_⟩
    · simp [layout, Item.render, Attr.render, AttrValue.render]
    · rw [List.mem_append, not_or]
      refine ⟨hText, ?_⟩
      rw [hSingle]
      decide
    · intro k hMem
      cases hMem

/- A tag with a window to be opened is read again. -/
theorem exists_window (hLaid : Laid items final) (hKept : ∀ i, i ∈ items → i.kept = true) :
    ∃ others extra final', layout (others ++ extra) final' = layout items final ++ windowText ∧
        Laid (others ++ extra) final' ∧
        List.Forall₂ (fun i j => Extends i.attr j.attr ∧
          j.kept = true ∧ j.gap = i.gap) items others ∧
        (∀ k, k ∈ extra → k.kept = true ∧ (k.attr = windowAttr ∨ k.attr = windowRest)) ∧
        (items = [] → ∀ k, extra.head? = some k → k.gap ≠ []) := by
  induction items with
  | nil =>
    refine ⟨[], [⟨final ++ [chr ' '], windowAttr, true⟩], [], ?_,
      ⟨?_, windowAttr_ok, trivial, blank_nil⟩, List.Forall₂.nil,
      ?_, ?_⟩
    · have hSplit : windowText = chr ' ' :: windowAttr.render := by decide
      simp [layout, Item.render, hSplit]
    · apply Blank.append hLaid
      intro b hMem
      rw [List.mem_singleton.mp hMem]
      decide
    · intro k hMem
      rw [List.mem_singleton.mp hMem]
      exact ⟨rfl, Or.inl rfl⟩
    · intro _ k hHead
      cases hHead
      simp
  | cons i rest ih =>
    rcases hLaid with ⟨hGap, hOk, hJoined, hRest⟩
    have hHere := hKept i List.mem_cons_self
    by_cases hOpen : ∃ q text, i.attr.value = .quoted q text false
    · rcases hOpen with ⟨q, text, hValue⟩
      unfold Attr.Joined at hJoined
      rw [hValue] at hJoined
      rcases hJoined with ⟨hNil, hFinal⟩
      rcases extend_open hGap hHere hOk hValue with
        ⟨j, extra, hLayout, hNew, hNewKept, hSameGap, hExtends, hExtra⟩
      rw [hNil, hFinal]
      refine ⟨[j], extra, [], hLayout, hNew,
        List.Forall₂.cons ⟨hExtends, hNewKept, hSameGap⟩ List.Forall₂.nil, ?_, ?_⟩
      · intro k hMem
        exact ⟨(hExtra k hMem).1, Or.inr (hExtra k hMem).2⟩
      · intro hCons
        cases hCons
    · rcases ih hRest (fun j hMem => hKept j (List.mem_cons_of_mem i hMem)) with
          ⟨others, extra, final', hLayout, hNew, hSame, hExtra, hFirst⟩
      refine ⟨i :: others, extra, final', ?_, ⟨hGap, hOk, ?_, hNew⟩,
        List.Forall₂.cons ⟨Or.inl rfl, hHere, rfl⟩ hSame, hExtra,
        ?_⟩
      · rw [List.cons_append, layout, layout, hLayout, List.append_assoc]
      · have hNext : (∀ k, rest.head? = some k → k.gap ≠ []) →
            ∀ k, (others ++ extra).head? = some k → k.gap ≠ [] := by
          intro hSome k hHead
          cases hSame with
          | nil => exact hFirst rfl k hHead
          | cons hPair hMore =>
            rename_i a b as bs
            cases hHead
            rw [hPair.2.2]
            exact hSome a rfl
        unfold Attr.Joined at hJoined ⊢
        cases hValue : i.attr.value with
        | none =>
          rw [hValue] at hJoined
          exact hNext hJoined
        | bare run =>
          rw [hValue] at hJoined
          exact hNext hJoined
        | quoted q text closed =>
          cases closed with
          | true => trivial
          | false => exact absurd ⟨q, text, hValue⟩ hOpen
      · intro hCons
        cases hCons

------------
-- Policies
------------

/- A tag that is put out: neither dropped nor `STYLE`. -/
def isPrinted (name : List Byte) : Bool :=
  !(droppedTags ++ [bytes "STYLE", bytes "/STYLE"]).any fun l => name.map tolower = l.map tolower

/-
  What is to hold of the attributes of the output, and how the
  filter comes to it: what is asked of the attributes of a tag,
  and what is then fine about each when a window is opened or
  not.
-/
structure Policy (cfg : Config) where
  rule : LinkRule
  fine : Bool → Attr → Prop
  pair : List Byte → List Byte → Prop
  ruleFine : ∀ name, RuleFine cfg rule fine name
  shown : ∀ a window, fine window a → pair a.name a.value.text
  extended : ∀ a q text more, fine true a →
    a.value = .quoted q text false → pair a.name (text ++ more)
  window : pair windowAttr.name windowAttr.value.text
  windowRest : pair windowRest.name windowRest.value.text
  imageWindow : pair (bytes "TARGET") (bytes "_blank")
  imageLink : ∀ a p, rule.image a → hrefText cfg (a.link cfg) = some p →
      pair (bytes "HREF") (a.write p).value.text

variable {cfg : Config}

/- A tag of the output that is as the policy wants it. -/
def TagSafe (policy : Policy cfg) (tag : List Byte) : Prop :=
  ∃ name value attrs, readAttrs tag = (name, value) :: attrs ∧ isPrinted name = true ∧
    ∀ a, a ∈ attrs → policy.pair a.1 a.2

/- A part of the output whose tags are. -/
def TextSafe (policy : Policy cfg) (text : List Byte) : Prop :=
  ∀ r : Reader, r.curState = .intext → (r.read text).1.curState = .intext ∧
      ∀ tag, tag ∈ (r.read text).2 → TagSafe policy tag

variable {policy : Policy cfg}

theorem TextSafe.append {front rest : List Byte} (hFront : TextSafe policy front)
    (hRest : TextSafe policy rest) : TextSafe policy (front ++ rest) := by
  intro r hState
  rcases hFront r hState with ⟨hMiddle, hHere⟩
  rcases hRest _ hMiddle with ⟨hEnd, hThere⟩
  rw [read_append]
  refine ⟨hEnd, ?_⟩
  intro tag hMem
  rcases List.mem_append.mp hMem with hFirst | hSecond
  · exact hHere tag hFirst
  · exact hThere tag hSecond

theorem textSafe_plain (policy : Policy cfg) {text : List Byte} (hOpen : chr '<' ∉ text) :
    TextSafe policy text := by
  intro r hState
  rw [read_plain hOpen r hState]
  refine ⟨hState, ?_⟩
  intro tag hMem
  cases hMem

theorem textSafe_tag (hTag : TagText tag) (hSafe : TagSafe policy tag) :
    TextSafe policy (chr '<' :: (tag ++ [chr '>'])) := by
  intro r hState
  rcases read_tag hTag r hState with ⟨r', hEnd, hRead⟩
  rw [hRead]
  refine ⟨hEnd, ?_⟩
  intro other hMem
  rw [List.mem_singleton.mp hMem]
  exact hSafe

/- The name of a tag. -/
structure Attr.NamesTag (a : Attr) : Prop where
  start : ∃ c more, a.name = c :: more ∧ tagStart c = true
  comment : ¬ bytes "!--" <+: a.name

/- What is laid out behind such a name is the text of a tag. -/
theorem tagText_layout (hLaid : Laid (first :: rest) final) (hKept : first.kept = true)
    (hGap : first.gap = []) (hName : first.attr.NamesTag)
    (hClean : Clean (layout (first :: rest) final)) : TagText (layout (first :: rest) final) := by
  have hSplit : layout (first :: rest) final =
      first.attr.name ++ (first.attr.value.render ++ layout rest final) := by
    rw [layout, Item.render, hGap, if_pos hKept, Attr.render]
    simp only [List.nil_append, List.append_assoc]
  have hBefore := hLaid.2.2.2.before hLaid.2.2.1
  have hStop := AttrValue.head_render hBefore
  refine ⟨?_, hClean.end_tag, ?_⟩
  · rcases hName.start with ⟨c, more, hFirst, hStart⟩
    refine ⟨c, more ++ (first.attr.value.render ++ layout rest final), ?_, hStart⟩
    rw [hSplit, hFirst, List.cons_append]
  · intro hComment
    rw [hSplit] at hComment
    rcases List.prefix_or_prefix_of_prefix hComment
      (List.prefix_append _ _) with hInside | ⟨tail, hOutside⟩
    · exact hName.comment hInside
    · rw [← hOutside, List.prefix_append_right_inj] at hComment
      cases tail with
      | nil =>
        rw [List.append_nil] at hOutside
        exact hName.comment (hOutside ▸ List.prefix_refl _)
      | cons d tail =>
        rcases hComment with ⟨more, hMore⟩
        have hOut := hStop d (by rw [← hMore]; rfl)
        have hMem : d ∈ bytes "!--" := by
          rw [← hOutside]
          exact List.mem_append_right _ List.mem_cons_self
        have hIn : ∀ b, b ∈ bytes "!--" → inName b = true :=
          List.all_eq_true.mp (by decide)
        rw [hIn d hMem] at hOut
        cases hOut

/- The name of a tag that has been read. -/
theorem namesTag_seen (hTag : TagText tag) (hLayout : layout (first :: rest) final = seenText tag)
    (hLaid : Laid (first :: rest) final) (hKept : first.kept = true)
    (hGap : first.gap = []) : first.attr.NamesTag := by
  have hSplit : seenText tag = first.attr.name ++
      (first.attr.value.render ++ layout rest final) := by
    rw [← hLayout, layout, Item.render, hGap, if_pos hKept, Attr.render]
    simp only [List.nil_append, List.append_assoc]
  rcases hTag.start with ⟨c, more, hText, hStart⟩
  have hByte : c ≠ 0 ∧ c ≠ chr '<' ∧ c ≠ chr '=' := by
    refine ⟨?_, ?_, ?_⟩
    all_goals
      intro hSame
      rw [hSame] at hStart
      exact absurd hStart (by decide)
  have hHead : (seenText tag).head? = some c := by
    unfold seenText parsedText
    simp [hText, hByte.1, hByte.2.1]
  constructor
  · cases hName : first.attr.name with
    | nil =>
      rw [hSplit, hName, List.nil_append] at hHead
      have hOk := hLaid.2.1
      cases hValue : first.attr.value with
      | none =>
        rcases hOk.some with hSome | hSome
        · exact absurd hName hSome
        · exact absurd hValue hSome
      | bare run =>
        rw [hValue] at hHead
        cases hHead
        exact absurd rfl hByte.2.2
      | quoted q text closed =>
        rw [hValue] at hHead
        cases hHead
        exact absurd rfl hByte.2.2
    | cons b name =>
      rw [hSplit, hName] at hHead
      cases hHead
      exact ⟨c, name, rfl, hStart⟩
  · intro hComment
    have hSeen : bytes "!--" <+: seenText tag := by
      rw [hSplit]
      exact hComment.trans (List.prefix_append _ _)
    apply hTag.comment
    rcases hSeen with ⟨tail, hSeen⟩
    unfold seenText parsedText at hSeen
    have hFront := List.takeWhile_prefix (fun b => decide (b ≠ (0 : Byte))) (l := tag)
    generalize tag.takeWhile (fun b => decide (b ≠ (0 : Byte))) = text at hSeen hFront
    apply List.IsPrefix.trans _ hFront
    have hTake : (text.take 3).map (fun b => if b = chr '<' then chr ' ' else b) =
          bytes "!--" := by
      rw [List.map_take, ← hSeen]
      rfl
    have hSame : (text.take 3).map (fun b => if b = chr '<' then chr ' ' else b) =
          text.take 3 := by
      conv_rhs => rw [← List.map_id (text.take 3)]
      apply List.map_congr_left
      intro b hMem
      split
      · rename_i hOpen
        have hBlank : chr ' ' ∈ bytes "!--" := by
          rw [← hTake, List.mem_map]
          exact ⟨b, hMem, if_pos hOpen⟩
        exact absurd hBlank (by decide)
      · rfl
    rw [hSame] at hTake
    rw [← hTake]
    exact List.take_prefix 3 text

/- What is laid out is as the policy wants it. -/
theorem tagSafe_layout (hLaid : Laid (first :: rest) final)
    (hKept : ∀ i, i ∈ first :: rest → i.kept = true)
    (hClean : Clean (layout (first :: rest) final)) (hPrinted : isPrinted first.attr.name = true)
    (hPairs : ∀ i, i ∈ rest → policy.pair i.attr.name i.attr.value.text) :
    TagSafe policy (layout (first :: rest) final) := by
  refine ⟨first.attr.name, first.attr.value.text, _,
    readAttrs_layout hLaid hKept hClean, hPrinted, ?_⟩
  intro a hMem
  rcases List.mem_map.mp hMem with ⟨i, hItem, hSame⟩
  rw [← hSame]
  exact hPairs i hItem

/- The tag that is left is put out. -/
theorem printed_safe (hHolds : s.HoldsTag first rest final) (hGap : first.gap = [])
    (hName : first.attr.NamesTag) (hPrinted : isPrinted first.attr.name = true)
    {window : Bool} (hFine : ∀ a, a ∈ keptAttrs rest → policy.fine window a) :
    TextSafe policy ([chr '<'] ++ layout (first :: rest) final ++
        (if window then windowText else []) ++ [chr '>']) := by
  rcases hHolds with ⟨hHolds, hFirst⟩
  have hLayout := layout_compact [] (first :: rest) final
  have hLaid := hHolds.laid.compact blank_nil
  have hKept := kept_compact [] (first :: rest) final
  have hAttrs := attrs_compact [] rest final
  have hSame : (⟨[] ++ first.gap, first.attr, true⟩ : Item) = first := by
    rw [← hFirst]
    rfl
  have hClean := hHolds.clean
  rw [List.nil_append] at hLayout
  rw [← hLayout] at hClean ⊢
  unfold compact at hLaid hKept hClean ⊢
  rw [if_pos hFirst, hSame] at hLaid hKept hClean ⊢
  dsimp only at hLaid hKept hClean ⊢
  have hItems : ∀ i, i ∈ (compact [] rest final).1 → policy.fine window i.attr := by
    intro i hMem
    apply hFine
    rw [← hAttrs]
    exact List.mem_map_of_mem hMem
  generalize (compact [] rest final).2 = last at hLaid hClean ⊢
  generalize (compact [] rest final).1 = items at hLaid hKept hClean hItems ⊢
  cases window with
  | false =>
    rw [if_neg Bool.false_ne_true, List.append_nil, List.append_assoc, List.singleton_append]
    apply textSafe_tag
    · exact tagText_layout hLaid hFirst hGap hName hClean
    · apply tagSafe_layout hLaid hKept hClean hPrinted
      intro i hMem
      exact policy.shown i.attr false (hItems i hMem)
  | true =>
    rcases exists_window hLaid hKept with ⟨others, extra, last', hText, hNew, hPairs, hExtra, _⟩
    have hNewClean : Clean (layout (others ++ extra) last') := by
      rw [hText]
      exact hClean.append clean_windowText
    cases hPairs with
    | cons hHead hTail =>
      rename_i j others
      rcases hHead with ⟨hExtends, hHeadKept, hHeadGap⟩
      have hSameName : j.attr.name = first.attr.name := by
        rcases hExtends with hSame | ⟨_, _, _, _, _, hSame⟩
        · rw [hSame]
        · rw [hSame]
      have hNames : j.attr.NamesTag := by
        constructor
        · rw [hSameName]
          exact hName.start
        · rw [hSameName]
          exact hName.comment
      have hAll : ∀ k, k ∈ others ++ extra → k.kept = true ∧
            policy.pair k.attr.name k.attr.value.text := by
        intro k hMem
        rcases List.mem_append.mp hMem with hOther | hNext
        · rcases forall₂_right hTail k hOther with ⟨i, hItem, hExtends, hYes, _⟩
          refine ⟨hYes, ?_⟩
          rcases hExtends with hSame | ⟨q, text, more, closed, hOpen, hSame⟩
          · rw [hSame]
            exact policy.shown i.attr true (hItems i hItem)
          · rw [hSame]
            exact policy.extended i.attr q text more (hItems i hItem) hOpen
        · rcases hExtra k hNext with ⟨hYes, hWindow | hRest⟩
          · rw [hWindow]
            exact ⟨hYes, policy.window⟩
          · rw [hRest]
            exact ⟨hYes, policy.windowRest⟩
      have hAllKept : ∀ k, k ∈ j :: (others ++ extra) → k.kept = true := by
        intro k hMem
        rcases List.mem_cons.mp hMem with hSame | hMore
        · rw [hSame]
          exact hHeadKept
        · exact (hAll k hMore).1
      rw [if_pos rfl, List.append_assoc [chr '<'], ← hText,
        List.append_assoc, List.singleton_append]
      apply textSafe_tag
      · exact tagText_layout hNew hHeadKept (hHeadGap.trans hGap) hNames hNewClean
      · apply tagSafe_layout hNew hAllKept hNewClean
        · rw [hSameName]
          exact hPrinted
        · intro k hMem
          exact (hAll k hMem).2

------------
-- Images
------------

theorem Filter.HoldsTag.isAttr (hHolds : s.HoldsTag first (done ++ i :: rest) final)
    {l : List Byte} (hWord : isWord l = true) :
    s.isAttr (recordOf s first done i) l = (i.kept && i.attr.isNamed l) := by
  cases hKept : i.kept with
  | true =>
    rw [Bool.true_and]
    exact hHolds.at_item.isAttr hKept _ l
  | false =>
    rw [Bool.false_and]
    exact hHolds.at_item.isAttr_blanked hKept _ hWord

/- An attribute of this name that is kept. -/
def Item.isNamed (i : Item) (l : List Byte) : Bool :=
  i.kept && i.attr.isNamed l

theorem findTag_loop (done : List Item) (hHolds : s.HoldsTag first (done ++ rest) final)
    {l : List Byte} (hWord : isWord l = true) :
    (List.range' (done.length + 1) rest.length).find?
        (fun k =>
          match s.tagattr[k]? with
          | none => false
          | some t => s.isAttr t l) =
      (rest.findIdx? (·.isNamed l)).map (· + (done.length + 1)) := by
  induction rest generalizing done with
  | nil => rfl
  | cons i rest ih =>
    have hAttr : s.tagattr[done.length + 1]? = some (recordOf s first done i) := hHolds.at_item.attr
    have hSame := hHolds.isAttr hWord
    have hSplit : done ++ i :: rest = (done ++ [i]) ++ rest := by
      rw [List.append_assoc, List.singleton_append]
    rw [hSplit] at hHolds
    have hMore := ih (done ++ [i]) hHolds
    rw [List.length_append, List.length_singleton] at hMore
    rw [List.length_cons, List.range'_succ, List.find?_cons, List.findIdx?_cons, hAttr]
    simp only [hSame]
    rw [hMore]
    unfold Item.isNamed
    cases hNamed : (i.kept && i.attr.isNamed l) with
    | true => simp
    | false =>
      simp only [Bool.false_eq_true, if_false, Option.map_map]
      congr 1
      funext k
      simp only [Function.comp_apply]
      omega

/- The first attribute of this name. -/
theorem Filter.HoldsTag.findTag (hHolds : s.HoldsTag first rest final) {l : List Byte}
    (hWord : isWord l = true) : s.findTag l = (rest.findIdx? (·.isNamed l)).map (· + 1) := by
  have hLoop := findTag_loop [] hHolds hWord
  have hCount : s.tagattrlen - 1 = rest.length := by
    rw [hHolds.1.count, List.length_cons, Nat.add_sub_cancel]
  unfold Filter.findTag
  rw [hCount]
  exact hLoop

/- The attribute at such an index. -/
theorem split_findIdx {P : Item → Bool} {k : Nat} (hFound : items.findIdx? P = some k) :
    ∃ front i back, items = front ++ i :: back ∧ front.length = k ∧ P i = true ∧
      ∀ j, j ∈ front → P j = false := by
  induction items generalizing k with
  | nil => cases hFound
  | cons i rest ih =>
    rw [List.findIdx?_cons] at hFound
    cases hHere : P i with
    | true =>
      rw [hHere, if_pos rfl] at hFound
      cases hFound
      refine ⟨[], i, rest, rfl, rfl, hHere, ?_⟩
      intro j hMem
      cases hMem
    | false =>
      rw [hHere, if_neg Bool.false_ne_true, Option.map_eq_some_iff] at hFound
      rcases hFound with ⟨m, hRest, hSame⟩
      rcases ih hRest with ⟨front, j, back, hSplit, hLength, hNamed, hOthers⟩
      refine ⟨i :: front, j, back, ?_, ?_, hNamed, ?_⟩
      · rw [hSplit, List.cons_append]
      · rw [List.length_cons, hLength]
        exact hSame
      · intro m hMem
        rcases List.mem_cons.mp hMem with hFirst | hLater
        · rw [hFirst]
          exact hHere
        · exact hOthers m hLater

/- The text of a value is clean. -/
theorem Filter.HoldsTag.clean_value (hHolds : s.HoldsTag first (done ++ i :: rest) final)
    (hKept : i.kept = true) : Clean i.attr.value.text := by
  have hClean := hHolds.at_item.clean
  have hHere : layout (i :: rest) final = (i.gap ++ (i.attr.name ++ i.attr.value.render)) ++
        layout rest final := by
    rw [layout, Item.render, if_pos hKept, Attr.render]
  rw [layout_append, hHere] at hClean
  have hRender := hClean.right.left.right.right
  cases hValue : i.attr.value with
  | none =>
    intro b hMem
    cases hMem
  | bare run =>
    intro b hMem
    cases hMem
  | quoted q text closed =>
    rw [hValue] at hRender
    intro b hMem
    apply hRender
    apply List.mem_cons_of_mem
    apply List.mem_cons_of_mem
    exact List.mem_append_left _ hMem

/- The text that stands for an image. -/
theorem alt_clean (hHolds : s.HoldsTag first rest final) {alt : List Byte}
    (hAlt : ((s.findTag (bytes "alt")).bind fun l =>
      (s.tagattr[l]?).map s.valueText) = some alt) : Clean alt := by
  rw [hHolds.findTag (by decide)] at hAlt
  cases hFound : rest.findIdx? (·.isNamed (bytes "alt")) with
  | none =>
    rw [hFound] at hAlt
    cases hAlt
  | some k =>
    rcases split_findIdx hFound with ⟨front, i, back, hSplit, hLength, hNamed, _⟩
    rw [hSplit] at hHolds
    have hKept : i.kept = true := by
      unfold Item.isNamed at hNamed
      rw [Bool.and_eq_true] at hNamed
      exact hNamed.1
    have hAttr : s.tagattr[front.length + 1]? =
        some (recordOf s first front i) := hHolds.at_item.attr
    have hValue := hHolds.at_item.valueText hKept s.tagbufsize
    rw [hFound, Option.map_some, Option.bind_some, ← hLength, hAttr, Option.map_some] at hAlt
    have hText : s.valueText (recordOf s first front i) = i.attr.value.text := hValue
    rw [hText] at hAlt
    cases hAlt
    exact hHolds.clean_value hKept

/- The link of an image is a part of the message. -/
def Attr.isCid (a : Attr) : Bool :=
  casePrefix (bytes "cid:") (a.value.text.dropWhile isspace)

/- The attributes in front of the first `SRC`. -/
def beforeSrc (attrs : List Attr) : List Attr :=
  attrs.takeWhile fun a => !a.isNamed (bytes "src")

/-
  The links of an image can be written.  Its `SRC` must be at
  the same index when the tag is parsed again, and becomes the
  value of a quoted `HREF`.
-/
def ImageFits (cfg : Config) (rule : LinkRule) (name : Attr) (len : Nat)
    (attrs : List Attr) : Prop :=
  match attrs.find? (·.isNamed (bytes "src")) with
  | none => True
  | some a =>
    if cfg.convertcid.isSome && a.isCid then
      LinksFit cfg rule name false 0 len attrs
    else
      (∀ b, b ∈ beforeSrc attrs → b.isOn = false) ∧
        match hrefText cfg (a.link cfg) with
        | none => False
        | some p =>
          a.value.Takes p ∧ Clean p ∧ chr '"' ∉ p ∧
            len - a.value.text.length + p.length < tagLimit ∧
            rule.image a

theorem isOn_of_isSrc {a : Attr} (hNamed : a.isNamed (bytes "src") = true) : a.isOn = false := by
  unfold Attr.isNamed at hNamed
  unfold Attr.isOn
  rw [List.map_take, of_decide_eq_true hNamed]
  have hOther : ((bytes "src").map tolower).take 2 ≠ bytes "on" := by decide
  simp only [decide_eq_false hOther, Bool.and_false]

/- The `SRC` of an image in the tag without event handlers. -/
theorem findIdx_src (hKept : ∀ i, i ∈ items → i.kept = true) :
    (items.map Item.hushed).findIdx? (·.isNamed (bytes "src")) =
      items.findIdx? (·.attr.isNamed (bytes "src")) := by
  induction items with
  | nil => rfl
  | cons i rest ih =>
    have hMore := ih (fun j hMem => hKept j (List.mem_cons_of_mem i hMem))
    have hHere : i.hushed.isNamed (bytes "src") = i.attr.isNamed (bytes "src") := by
      unfold Item.isNamed Item.hushed
      cases hNamed : i.attr.isNamed (bytes "src") with
      | true =>
        rw [Bool.and_true, isOn_of_isSrc hNamed]
        rfl
      | false => exact Bool.and_false _
    rw [List.map_cons, List.findIdx?_cons, List.findIdx?_cons, hHere, hMore]

/- The output for an image. -/
def imageText (value alt : List Byte) : List Byte :=
  bytes "<A TARGET=\"_blank\" HREF=\"" ++ value ++ bytes "\">" ++ alt ++ bytes "</A>"

/- A name by itself. -/
def plainItem (gap name : List Byte) (value : AttrValue) : Item where
  gap := gap
  attr := ⟨name, value⟩
  kept := true

theorem textSafe_closing (policy : Policy cfg) : TextSafe policy (bytes "</A>") := by
  have hLaid : Laid [plainItem [] (bytes "/A") .none] [] :=
    ⟨blank_nil, ⟨List.all_eq_true.mp (by decide), trivial, Or.inl (by decide)⟩,
      fun _ hHead => absurd hHead (by simp), blank_nil⟩
  have hKept : ∀ i, i ∈ [plainItem [] (bytes "/A") .none] → i.kept = true := by
    intro i hMem
    rw [List.mem_singleton.mp hMem]
    rfl
  have hClean : Clean (layout [plainItem [] (bytes "/A") .none] []) :=
    List.all_eq_true.mp (by decide)
  have hTag := tagText_layout hLaid rfl rfl ⟨⟨chr '/', [chr 'A'], rfl, by decide⟩, by decide⟩ hClean
  exact textSafe_tag hTag (tagSafe_layout hLaid hKept hClean
    (by decide) (fun _ hMem => absurd hMem List.not_mem_nil))

theorem textSafe_image (policy : Policy cfg) {value alt : List Byte} (hValue : Clean value)
    (hQuote : chr '"' ∉ value) (hAlt : chr '<' ∉ alt)
    (hPair : policy.pair (bytes "HREF") value) : TextSafe policy (imageText value alt) := by
  have hOpen : TextSafe policy (bytes "<A TARGET=\"_blank\" HREF=\"" ++ value ++ bytes "\">") := by
    have hLink : (AttrValue.quoted (chr '"') value true).Ok := ⟨by decide, hQuote⟩
    have hName : (∀ b, b ∈ bytes "HREF" → inName b = true) ∧ bytes "HREF" ≠ [] :=
      ⟨List.all_eq_true.mp (by decide), by decide⟩
    have hGap : Blank [chr ' '] := by
      intro b hMem
      rw [List.mem_singleton.mp hMem]
      decide
    have hLaid : Laid [plainItem [] (bytes "A") .none, plainItem [chr ' '] (bytes "TARGET")
          (.quoted (chr '"') (bytes "_blank") true),
        plainItem [chr ' '] (bytes "HREF") (.quoted (chr '"') value true)] [] := by
      refine ⟨blank_nil, ⟨List.all_eq_true.mp (by decide), trivial, Or.inl (by decide)⟩, ?_, hGap,
        ⟨List.all_eq_true.mp (by decide), ⟨by decide, by decide⟩, Or.inl (by decide)⟩,
        trivial, hGap, ⟨hName.1, hLink, Or.inl hName.2⟩,
        trivial, blank_nil⟩
      intro i hHead
      cases hHead
      exact List.cons_ne_nil _ _
    have hText : layout [plainItem [] (bytes "A") .none,
        plainItem [chr ' '] (bytes "TARGET") (.quoted (chr '"') (bytes "_blank") true),
        plainItem [chr ' '] (bytes "HREF") (.quoted (chr '"') value true)] [] =
          bytes "A TARGET=\"_blank\" HREF=\"" ++ (value ++ bytes "\"") := by
      have hSplit : bytes "A TARGET=\"_blank\" HREF=\"" =
          bytes "A" ++ (chr ' ' :: (bytes "TARGET" ++ (chr '=' :: chr '"' :: (bytes "_blank" ++
              (chr '"' :: chr ' ' :: (bytes "HREF" ++ [chr '=', chr '"'])))))) := by
        decide
      have hEnd : bytes "\"" = [chr '"'] := by decide
      simp [layout, Item.render, Attr.render, AttrValue.render, plainItem, hSplit, hEnd]
    have hKept : ∀ i, i ∈ [plainItem [] (bytes "A") .none,
        plainItem [chr ' '] (bytes "TARGET") (.quoted (chr '"') (bytes "_blank") true),
        plainItem [chr ' '] (bytes "HREF") (.quoted (chr '"') value true)] → i.kept = true := by
      intro i hMem
      simp only [List.mem_cons, List.not_mem_nil, or_false] at hMem
      rcases hMem with hSame | hSame | hSame
      · rw [hSame]
        rfl
      · rw [hSame]
        rfl
      · rw [hSame]
        rfl
    have hFront : Clean (bytes "A TARGET=\"_blank\" HREF=\"") := List.all_eq_true.mp (by decide)
    have hBack : Clean (bytes "\"") := List.all_eq_true.mp (by decide)
    have hClean := hFront.append (hValue.append hBack)
    rw [← hText] at hClean
    have hTag := tagText_layout hLaid rfl rfl ⟨⟨chr 'A', [], rfl, by decide⟩, by decide⟩ hClean
    have hSafe : TagSafe policy _ := tagSafe_layout hLaid hKept hClean (by decide) (by
        intro i hMem
        simp only [List.mem_cons, List.not_mem_nil, or_false] at hMem
        rcases hMem with hSame | hSame
        · rw [hSame]
          exact policy.imageWindow
        · rw [hSame]
          exact hPair)
    have hWhole := textSafe_tag hTag hSafe
    rw [hText] at hWhole
    have hStart : bytes "<A TARGET=\"_blank\" HREF=\"" =
        chr '<' :: bytes "A TARGET=\"_blank\" HREF=\"" := by
      decide
    have hLast : bytes "\">" = bytes "\"" ++ [chr '>'] := by decide
    rw [hStart, hLast]
    simpa only [List.append_assoc, List.cons_append] using hWhole
  exact (hOpen.append (textSafe_plain policy hAlt)).append (textSafe_closing policy)

/- The value that is printed is that of the attribute there. -/
theorem printedValue_eq (front : List Item) (hHolds : s.Holds (front ++ i :: rest) final)
    (hKept : i.kept = true) (hValue : i.attr.value ≠ .none) :
    s.printedValue front.length = some i.attr.value.text := by
  have hText := hHolds.valueText hKept s.tagbufsize
  rcases hHolds.around hKept with ⟨more, hBuffer⟩
  have hLength := congrArg List.length hBuffer
  rw [List.length_append, ← startOf_eq, List.length_append,
    Attr.render, List.length_append] at hLength
  unfold Filter.printedValue
  rw [hHolds.attr]
  simp only []
  unfold Filter.valueText at hText
  unfold Attr.record at hText ⊢
  cases hCase : i.attr.value with
  | none => exact absurd hCase hValue
  | bare run =>
    simp only [AttrValue.start, Option.map_some, AttrValue.text, List.length_nil, if_true]
  | quoted q text closed =>
    rw [hCase] at hText hLength
    simp only [AttrValue.start, Option.map_some, AttrValue.text] at hText ⊢
    by_cases hNil : text.length = 0
    · rw [if_pos hNil, List.length_eq_zero_iff.mp hNil]
    · rw [if_neg hNil, if_pos, hText]
      refine ⟨trivial, ?_⟩
      unfold AttrValue.render at hLength
      simp only [List.length_cons, List.length_append] at hLength
      omega

/- The link of an image is written and printed. -/
theorem imageLink_eq {p : List Byte} (hHolds : s.HoldsTag first (done ++ i :: rest) final)
    (hDone : ∀ j, j ∈ done → j.kept = true) (hKept : i.kept = true)
    (hText : hrefText cfg (i.attr.link cfg) = some p) (hTakes : i.attr.value.Takes p)
    (hClean : Clean p)
    (hLength : writtenLength (first :: (done ++ i :: rest)) final
      i p < tagLimit) (alt : Option (List Byte)) :
    ∃ s', s.imageLink cfg (done.length + 1) (recordOf s first done i) alt =
        some (s', imageText (i.attr.write p).value.text (match alt with
            | some alt => alt
            | none => [chr '['] ++ i.attr.link cfg ++ [chr ']'])) ∧
      s.SameMode s' ∧ 256 ∣ s'.tagbufsize ∧
      s'.tagbufsize ≤ tagLimit := by
  rcases hHolds.at_item.replacelink hKept hTakes hClean hLength with ⟨s', hReplaced, hNew, hMode⟩
  rcases compact_tag (i := i.write p) hHolds.2 hKept done rest final with ⟨gap, final', hCompact⟩
  have hFront := attrs_compact [] done []
  rw [keptAttrs_of_kept hDone] at hFront
  have hCount := congrArg List.length hFront
  rw [List.length_map, List.length_map] at hCount
  rw [List.cons_append] at hNew
  rw [hCompact] at hNew
  dsimp only at hNew
  have hValue : (i.write p).attr.value ≠ .none := by
    unfold Item.write Attr.write AttrValue.write
    intro hSame
    cases hCase : i.attr.value with
    | none =>
      rw [hCase] at hTakes
      exact hTakes
    | bare run =>
      simp only [hCase] at hSame
      cases hSame
    | quoted q text closed =>
      simp only [hCase] at hSame
      cases hSame
  have hPrinted := printedValue_eq (first :: (compact [] done []).1)
    (i := ⟨gap, (i.write p).attr, true⟩) hNew rfl hValue
  rw [List.length_cons, hCount] at hPrinted
  rw [List.length_cons] at hReplaced
  have hLink : s.linkOf cfg (recordOf s first done i) = i.attr.link cfg := hHolds.linkOf hKept
  refine ⟨s', ?_, hMode, hNew.multiple, hNew.size⟩
  unfold Filter.imageLink
  simp only [hLink]
  refine (congrArg (Option.bind · _) (hrefText_replacelink cfg s
    (done.length + 1) (i.attr.link cfg))).trans ?_
  rw [hText, Option.bind_some, hReplaced, Option.bind_some, hPrinted, Option.map_some]
  rfl

theorem mem_linkByte (text : List Byte) : chr '<' ∉ text.takeWhile linkByte := by
  intro hMem
  have hByte := forall_takeWhile linkByte text _ hMem
  cases hByte

/- The value is what was written, or it is empty. -/
theorem write_text (a : Attr) (p : List Byte) : (a.write p).value.text ⊆ p := by
  unfold Attr.write AttrValue.write
  intro b hMem
  cases hValue : a.value with
  | none =>
    rw [hValue] at hMem
    cases hMem
  | bare run =>
    rw [hValue] at hMem
    cases hMem
  | quoted q text closed =>
    rw [hValue] at hMem
    exact hMem

/- The text that is printed for an image. -/
theorem not_mem_altText (hHolds : s.HoldsTag first rest final) (a : Attr) :
    chr '<' ∉ (match (s.findTag (bytes "alt")).bind fun l =>
        (s.tagattr[l]?).map s.valueText with
      | some alt => alt
      | none => [chr '['] ++ a.link cfg ++ [chr ']']) := by
  cases hAlt : (s.findTag (bytes "alt")).bind fun l => (s.tagattr[l]?).map s.valueText with
  | none =>
    unfold Attr.link
    simp only [List.mem_append, List.mem_singleton, not_or]
    exact ⟨⟨by decide, mem_linkByte _⟩, by decide⟩
  | some alt =>
    intro hMem
    exact (tagByte_ne (alt_clean hHolds hAlt _ hMem)).2.1 rfl

theorem map_hushed (hKept : ∀ i, i ∈ items → i.kept = true)
    (hQuiet : ∀ i, i ∈ items → i.attr.isOn = false) : items.map Item.hushed = items := by
  conv_rhs => rw [← List.map_id items]
  apply List.map_congr_left
  intro i hMem
  exact Item.hushed_of_quiet (hKept i hMem) (hQuiet i hMem)

theorem length_layout_hushed (items : List Item) (final : List Byte) :
    (layout (items.map Item.hushed) final).length = (layout items final).length := by
  induction items with
  | nil => rfl
  | cons i rest ih =>
    rw [List.map_cons, layout, layout, List.length_append,
      List.length_append, ih, length_render, length_render]
    rfl

/- An image is handled like another tag, or it becomes a link. -/
theorem image_safe (policy : Policy cfg) (hHolds : s.HoldsTag first (items.map Item.hushed) final)
    (hKept : ∀ i, i ∈ items → i.kept = true)
    (hFits : ImageFits cfg policy.rule first.attr
      (layout (first :: items) final).length
      (items.map Item.attr)) :
    (s.image cfg = some (s, [], true) ∧
        LinksFit cfg policy.rule first.attr false 0 (layout (first :: items) final).length
          (items.map Item.attr)) ∨
      ∃ s' out, s.image cfg = some (s', out, false) ∧ s.SameMode s' ∧ 256 ∣ s'.tagbufsize ∧
        s'.tagbufsize ≤ tagLimit ∧ TextSafe policy out := by
  have hFound := hHolds.findTag (l := bytes "src") (by decide)
  rw [findIdx_src hKept] at hFound
  cases hIndex : items.findIdx? (·.attr.isNamed (bytes "src")) with
  | none =>
    right
    rw [hIndex] at hFound
    refine ⟨s, [], ?_, ⟨rfl, rfl⟩, hHolds.1.multiple,
      hHolds.1.size, textSafe_plain policy List.not_mem_nil⟩
    unfold Filter.image
    rw [hFound]
    rfl
  | some k =>
    rcases split_findIdx hIndex with ⟨front, i, back, hSplit, hLength, hNamed, hOthers⟩
    have hOn : i.attr.isOn = false := isOn_of_isSrc hNamed
    have hHere : i.kept = true := hKept i (by
      rw [hSplit]
      exact List.mem_append_right _ List.mem_cons_self)
    have hFind : (items.map Item.attr).find? (·.isNamed (bytes "src")) = some i.attr := by
      rw [List.find?_eq_some_iff_append]
      refine ⟨hNamed, front.map Item.attr, back.map Item.attr, ?_, ?_⟩
      · rw [hSplit, List.map_append, List.map_cons]
      · intro a hMem
        rcases List.mem_map.mp hMem with ⟨j, hItem, hSame⟩
        rw [← hSame, hOthers j hItem]
        rfl
    unfold ImageFits at hFits
    rw [hFind] at hFits
    simp only [] at hFits
    have hMapped : items.map Item.hushed = front.map Item.hushed ++ i :: back.map Item.hushed := by
      rw [hSplit, List.map_append, List.map_cons, Item.hushed_of_quiet hHere hOn]
    have hTag := hHolds
    rw [hMapped] at hTag
    have hAttr : s.tagattr[(front.map Item.hushed).length + 1]? =
        some (recordOf s first (front.map Item.hushed) i) :=
      hTag.at_item.attr
    have hCid : s.isCid (recordOf s first (front.map Item.hushed) i) = i.attr.isCid := by
      have hValue := hTag.at_item.valueText hHere s.tagbufsize
      unfold Filter.isCid Attr.isCid recordOf
      rw [hValue]
    have hCount : (front.map Item.hushed).length = k := by rw [List.length_map, hLength]
    rw [hCount] at hAttr
    rw [hIndex, Option.map_some] at hFound
    have hImage : s.image cfg =
        if cfg.convertcid.isSome && i.attr.isCid then
          some (s, [], true)
        else
          (s.imageLink cfg (k + 1)
            (recordOf s first (front.map Item.hushed) i)
            ((s.findTag (bytes "alt")).bind fun l =>
              (s.tagattr[l]?).map s.valueText)).map
                fun r => (r.1, r.2, false) := by
      unfold Filter.image
      rw [hFound, Option.bind_some, hAttr]
      simp only [Option.map_some, hCid]
    rw [hImage]
    by_cases hPart : (cfg.convertcid.isSome && i.attr.isCid) = true
    · left
      rw [if_pos hPart] at hFits ⊢
      exact ⟨rfl, hFits⟩
    · right
      rw [if_neg hPart] at hFits ⊢
      rcases hFits with ⟨hQuiet, hFits⟩
      cases hText : hrefText cfg (i.attr.link cfg) with
      | none =>
        rw [hText] at hFits
        exact hFits.elim
      | some p =>
        rw [hText] at hFits
        rcases hFits with ⟨hTakes, hClean, hNoQuote, hShort, hRule⟩
        have hFrontKept : ∀ j, j ∈ front → j.kept = true := by
          intro j hMem
          apply hKept
          rw [hSplit]
          exact List.mem_append_left _ hMem
        have hFrontQuiet : ∀ j, j ∈ front → j.attr.isOn = false := by
          intro j hMem
          apply hQuiet
          unfold beforeSrc
          rw [hSplit, List.map_append, List.takeWhile_append_of_pos]
          · exact List.mem_append_left _ (List.mem_map_of_mem hMem)
          · intro a hItem
            rcases List.mem_map.mp hItem with ⟨m, hM, hSame⟩
            rw [← hSame, hOthers m hM]
            rfl
        have hSameFront := map_hushed hFrontKept hFrontQuiet
        rw [hSameFront] at hTag hCount ⊢
        have hWritten : writtenLength (first :: (front ++ i :: back.map Item.hushed)) final
              i p < tagLimit := by
          have hSame := length_layout_hushed items final
          rw [hMapped, hSameFront] at hSame
          unfold writtenLength
          rw [layout, List.length_append] at hShort ⊢
          rw [hSame]
          exact hShort
        rcases imageLink_eq hTag hFrontKept hHere hText hTakes
          hClean hWritten ((s.findTag (bytes "alt")).bind fun l =>
            (s.tagattr[l]?).map s.valueText) with
            ⟨s', hLink, hMode, hMultiple, hSize⟩
        rw [hLength] at hLink
        rw [hLink]
        refine ⟨s', _, rfl, hMode, hMultiple, hSize, ?_⟩
        apply textSafe_image policy
        · intro b hMem
          exact hClean b (write_text i.attr p hMem)
        · intro hMem
          exact hNoQuote (write_text i.attr p hMem)
        · exact not_mem_altText hHolds i.attr
        · exact policy.imageLink i.attr p hRule hText

/-
  A tag that the filter can handle: it fits the buffer, and if
  it is printed its links can be written.
-/
def TagFits (cfg : Config) (rule : LinkRule) (styled : Bool) (tag : List Byte) : Prop :=
  tag.length < tagLimit ∧
    match attrsOf (seenText tag) with
    | [] => True
    | name :: attrs =>
      isPrinted name.name = true → styled = false →
        if name.isNamed (bytes "IMG") then
          ImageFits cfg rule name (seenText tag).length attrs
        else
          LinksFit cfg rule name false 0 (seenText tag).length attrs

/- There are no more attributes than characters. -/
theorem length_le_layout (hLaid : Laid items final) :
    items.length ≤ (layout items final).length := by
  induction items with
  | nil => exact Nat.zero_le _
  | cons i rest ih =>
    have hMore := ih hLaid.2.2.2
    rcases hLaid.2.1.head with ⟨b, more, hRender, _⟩
    rw [layout, List.length_append, length_render, hRender, List.length_cons, List.length_cons]
    omega

/- What is left of the tag after the loop over its attributes. -/
theorem wash_safe (policy : Policy cfg)
    (hHolds : s.HoldsTag first (items.map Item.hushed) final) (hGap : first.gap = [])
    (hName : first.attr.NamesTag) (hPrinted : isPrinted first.attr.name = true)
    (hLength : (layout (first :: items) final).length < tagLimit)
    (hFits : LinksFit cfg policy.rule first.attr false 0
      (layout (first :: items) final).length
      (items.map Item.attr)) :
    ∃ s' out, (s.washAttrs cfg tagbufLimit 1 false).bind
        (fun w => w.1.printTag w.2) = some (s', out) ∧
      s.SameMode s' ∧ 256 ∣ s'.tagbufsize ∧
      s'.tagbufsize ≤ tagLimit ∧ TextSafe policy out := by
  have hLen := length_layout_hushed items final
  have hSame : (layout (first :: items.map Item.hushed)
      final).length = (layout (first :: items) final).length := by
    rw [layout, layout, List.length_append, List.length_append, hLen]
  have hWashing : Washing cfg policy.rule policy.fine first s 1 false
      [] (items.map Item.hushed) final := by
    constructor
    · exact hHolds
    · intro i hMem
      rcases List.mem_map.mp hMem with ⟨j, _, hItem⟩
      rw [← hItem]
      rfl
    · intro a hMem
      cases hMem
    · exact Or.inl rfl
    · rw [List.nil_append, hSame, List.map_map]
      exact hFits
  have hCount := length_le_layout hHolds.1.laid
  rw [hSame, List.length_cons] at hCount
  have hFuel : (items.map Item.hushed).length < tagbufLimit := by
    unfold tagLimit at hLength
    unfold tagbufLimit
    omega
  rcases hWashing.run (policy.ruleFine first.attr) tagbufLimit hFuel
    with ⟨s', window, others, last, hRun, hLast, hFine, hMode⟩
  refine ⟨s', _, ?_, hMode, hLast.1.multiple, hLast.1.size,
    printed_safe hLast hGap hName hPrinted hFine⟩
  rw [hRun, Option.bind_some]
  unfold Filter.printTag
  rw [hLast.1.tagString]
  rfl

theorem any_isHtmltag (hHolds : s.HoldsTag first rest final)
    (hDropped : droppedTags.any s.isHtmltag = false)
    (hStyle : s.isHtmltag (bytes "STYLE") = false)
    (hEnd : s.isHtmltag (bytes "/STYLE") = false) : isPrinted first.attr.name = true := by
  have hSame : s.isHtmltag = first.attr.isNamed := by
    funext l
    exact hHolds.isHtmltag l
  rw [hSame] at hDropped hStyle hEnd
  have hNamed : first.attr.isNamed = fun l =>
      decide (first.attr.name.map tolower = l.map tolower) := rfl
  unfold isPrinted
  rw [← hNamed, List.any_append, hDropped, Bool.false_or,
    List.any_cons, List.any_cons, List.any_nil, hStyle, hEnd]
  rfl

/- A tag that the filter can handle leaves safe text. -/
theorem filteredTag_safe (policy : Policy cfg) (hWritten : s.Written tag)
    (hSize : s.tagbufsize ≤ tagLimit) (hTag : TagText tag)
    (hFits : TagFits cfg policy.rule (s.instyletag ≠ 0) tag) :
    ∃ s' out, s.filteredTag cfg = some (s', out) ∧ s'.curState = s.curState ∧ 256 ∣ s'.tagbufsize ∧
      s'.tagbufsize ≤ tagLimit ∧ TextSafe policy out := by
  rcases hFits with ⟨hLength, hFits⟩
  rcases hTag.laid with ⟨first, rest, final, hLayout, hLaid, hGap, hKept⟩
  rcases parse_tag hWritten hSize hLength hTag.last hLayout hLaid
    hKept with ⟨s₁, hParsed, hHolds, hMode⟩
  have hSilent : TextSafe policy [] := textSafe_plain policy List.not_mem_nil
  unfold Filter.filteredTag
  rw [hParsed, Option.bind_some]
  split
  · exact ⟨s₁, [], rfl, hMode.1, hHolds.1.multiple, hHolds.1.size, hSilent⟩
  rename_i hDropped
  split
  · exact ⟨_, [], rfl, hMode.1, hHolds.1.multiple, hHolds.1.size, hSilent⟩
  rename_i hStyle
  split
  · exact ⟨_, [], rfl, hMode.1, hHolds.1.multiple, hHolds.1.size, hSilent⟩
  rename_i hEnd
  split
  · exact ⟨s₁, [], rfl, hMode.1, hHolds.1.multiple, hHolds.1.size, hSilent⟩
  rename_i hStyled
  rw [Bool.not_eq_true] at hDropped hStyle hEnd
  have hPrinted := any_isHtmltag hHolds hDropped hStyle hEnd
  have hPlain : decide (s.instyletag ≠ 0) = false := by
    rw [← hMode.2]
    exact decide_eq_false hStyled
  have hName := namesTag_seen hTag hLayout hLaid hHolds.2 hGap
  have hAttrs := attrsOf_layout hLaid hKept
  have hShort := length_seenText tag
  rw [hLayout] at hAttrs
  rw [hAttrs, List.map_cons] at hFits
  have hCase := hFits hPrinted hPlain
  rw [← hLayout] at hCase hShort
  have hRest : ∀ i, i ∈ rest → i.kept = true := by
    intro i hMem
    exact hKept i (List.mem_cons_of_mem first hMem)
  rcases blankOn_holds hHolds hRest with ⟨hHushed, hHushedMode⟩
  have hAll := hMode.trans hHushedMode
  have hLess := Nat.lt_of_le_of_lt hShort hLength
  unfold Filter.rebuildTag
  simp only [hHushed.isHtmltag]
  by_cases hImg : first.attr.isNamed (bytes "IMG") = true
  · rw [if_pos hImg] at hCase ⊢
    rcases image_safe policy hHushed hRest hCase with
      ⟨hImage, hLinks⟩ | ⟨s₂, out, hImage, hImageMode, hMultiple, hSmall, hSafe⟩
    · rw [hImage, Option.bind_some, if_pos rfl]
      rcases wash_safe policy hHushed hGap hName hPrinted hLess
        hLinks with ⟨s₂, out, hRun, hLast, hMultiple, hSmall, hSafe⟩
      exact ⟨s₂, out, hRun, (hAll.trans hLast).1, hMultiple, hSmall, hSafe⟩
    · rw [hImage, Option.bind_some]
      exact ⟨s₂, out, rfl, (hAll.trans hImageMode).1, hMultiple, hSmall, hSafe⟩
  · rw [if_neg hImg] at hCase ⊢
    rw [Option.bind_some, if_pos rfl]
    rcases wash_safe policy hHushed hGap hName hPrinted hLess
      hCase with ⟨s₂, out, hRun, hLast, hMultiple, hSmall, hSafe⟩
    exact ⟨s₂, out, hRun, (hAll.trans hLast).1, hMultiple, hSmall, hSafe⟩

end Wmail.Sqwebmail
