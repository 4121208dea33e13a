import Wmail.Sqwebmail.HtmlTokens

/-
  What the filter's operations do to the attributes of a tag.

  The buffer holds the text of a tag, and the array the
  records that the parser made of it.  An operation of the
  filter on a record is then an operation on the attribute.

  Key theorems include:
    * `Filter.Holds.blank`
    * `Filter.Holds.replacelink`
-/

namespace Wmail.Sqwebmail

/-
  The buffer has `front` in it, unless it has reached its
  limit.
-/
structure Filter.Written (s : Filter) (front : List Byte) : Prop where
  multiple : 256 ∣ s.tagbufsize
  text : s.tagbufsize < tagbufLimit → s.tagbuf.take s.tagbuflen = front ∧ s.tagbuflen = front.length

variable {s : Filter}

/- A character is put behind what the buffer has. -/
theorem addtagbuf_front {front : List Byte} (hLess : s.tagbufsize < tagbufLimit)
    (hText : s.tagbuf.take s.tagbuflen = front ∧ s.tagbuflen = front.length) (c : Byte) :
    (s.addtagbuf c).tagbuf.take (s.addtagbuf c).tagbuflen = front ++ [c] ∧
      (s.addtagbuf c).tagbuflen = (front ++ [c]).length := by
  rcases hText with ⟨hFront, hLength⟩
  unfold Filter.addtagbuf
  rw [if_neg (Nat.not_le.mpr hLess)]
  simp only [hFront]
  constructor
  · rw [hLength, List.take_append, List.take_of_length_le
      (Nat.le_succ front.length), Nat.add_sub_cancel_left]
    rfl
  · rw [hLength, List.length_append, List.length_singleton]

theorem Filter.Written.addtagbuf {front : List Byte} (hWritten : s.Written front)
    (c : Byte) : (s.addtagbuf c).Written (front ++ [c]) := by
  by_cases hLimit : tagbufLimit ≤ s.tagbufsize
  · have hSame : s.addtagbuf c = s := by
      unfold Filter.addtagbuf
      rw [if_pos hLimit]
    rw [hSame]
    refine ⟨hWritten.multiple, ?_⟩
    intro hLess
    exact absurd hLess (Nat.not_lt.mpr hLimit)
  · have hLess := Nat.not_le.mp hLimit
    have hMultiple := hWritten.multiple
    refine ⟨?_, fun _ => addtagbuf_front hLess (hWritten.text hLess) c⟩
    unfold Filter.addtagbuf
    rw [if_neg hLimit]
    simp only []
    split
    · omega
    · exact hMultiple

theorem Filter.Written.foldl {front : List Byte} (hWritten : s.Written front)
    (chars : List Byte) : (chars.foldl Filter.addtagbuf s).Written (front ++ chars) := by
  induction chars generalizing s front with
  | nil =>
    rw [List.append_nil]
    exact hWritten
  | cons c chars ih =>
    have hMore := ih (hWritten.addtagbuf c)
    rw [List.append_assoc] at hMore
    exact hMore

/- A text with its end in the buffer. -/
theorem Filter.Written.ended {front : List Byte} (hWritten : s.Written front)
    (hLess : (s.addtagbuf 0).tagbufsize < tagbufLimit) :
    ∃ more, (s.addtagbuf 0).tagbuf = front ++ 0 :: more := by
  rcases (hWritten.addtagbuf 0).text hLess with ⟨hText, _⟩
  refine ⟨(s.addtagbuf 0).tagbuf.drop (s.addtagbuf 0).tagbuflen, ?_⟩
  conv_lhs =>
    rw [← List.take_append_drop (s.addtagbuf 0).tagbuflen (s.addtagbuf 0).tagbuf, hText]
  rw [List.append_assoc, List.singleton_append]

/- The longest text that the buffer can hold with its end. -/
def tagLimit : Nat :=
  768

/- The limit is not reached by a short text. -/
theorem Filter.Written.small {front : List Byte} (hWritten : s.Written front)
    (hSize : s.tagbufsize ≤ tagLimit) (hLength : front.length < tagLimit) (c : Byte) :
    (s.addtagbuf c).tagbufsize ≤ tagLimit := by
  have hMultiple := hWritten.multiple
  unfold tagLimit at hSize hLength ⊢
  have hLess : s.tagbufsize < tagbufLimit := by
    unfold tagbufLimit
    omega
  rcases hWritten.text hLess with ⟨_, hEnd⟩
  unfold Filter.addtagbuf
  rw [if_neg (Nat.not_le.mpr hLess)]
  simp only []
  split
  · omega
  · exact hSize

theorem Filter.Written.small_foldl {front : List Byte} (hWritten : s.Written front)
    (hSize : s.tagbufsize ≤ tagLimit) (chars : List Byte)
    (hLength : front.length + chars.length ≤ tagLimit) :
    (chars.foldl Filter.addtagbuf s).tagbufsize ≤ tagLimit := by
  induction chars generalizing s front with
  | nil => exact hSize
  | cons c chars ih =>
    rw [List.length_cons] at hLength
    apply ih (hWritten.addtagbuf c)
    · exact hWritten.small hSize (by omega) c
    · rw [List.length_append, List.length_singleton]
      omega

------------
-- The Tag in the Buffer
------------

/- A byte that a tag can have in the buffer. -/
def tagByte (b : Byte) : Bool :=
  b ≠ 0 && b ≠ chr '<' && b ≠ chr '>'

/- Every byte of a text is such a byte. -/
def Clean (text : List Byte) : Prop :=
  ∀ b, b ∈ text → tagByte b = true

theorem Clean.append {front rest : List Byte} (hFront : Clean front) (hRest : Clean rest) :
    Clean (front ++ rest) := by
  intro b hMem
  rcases List.mem_append.mp hMem with hHere | hThere
  · exact hFront b hHere
  · exact hRest b hThere

theorem Clean.left {front rest : List Byte} (hClean : Clean (front ++ rest)) : Clean front := by
  intro b hMem
  exact hClean b (List.mem_append_left rest hMem)

theorem Clean.right {front rest : List Byte} (hClean : Clean (front ++ rest)) : Clean rest := by
  intro b hMem
  exact hClean b (List.mem_append_right front hMem)

theorem clean_blanks (n : Nat) : Clean (List.replicate n (chr ' ')) := by
  intro b hMem
  rw [List.eq_of_mem_replicate hMem]
  decide

variable {text : List Byte}

theorem Clean.nul (hClean : Clean text) : 0 ∉ text := by
  intro hMem
  have hByte := hClean 0 hMem
  cases hByte

theorem Clean.end_tag (hClean : Clean text) : chr '>' ∉ text := by
  intro hMem
  have hByte := hClean (chr '>') hMem
  cases hByte

theorem tagByte_ne {b : Byte} (hByte : tagByte b = true) : b ≠ 0 ∧ b ≠ chr '<' ∧ b ≠ chr '>' := by
  unfold tagByte at hByte
  simp only [Bool.and_eq_true, decide_eq_true_eq] at hByte
  exact ⟨hByte.1.1, hByte.1.2, hByte.2⟩

/-
  The tag in the buffer is `items`, and the array has the
  records of its attributes.
-/
structure Filter.Holds (s : Filter) (items : List Item) (final : List Byte) : Prop where
  text : ∃ more, s.tagbuf = layout items final ++ 0 :: more
  clean : Clean (layout items final)
  laid : Laid items final
  attrs : ∃ stale, s.tagattr = records s.tagbufsize 0 items ++ stale
  count : s.tagattrlen = items.length
  multiple : 256 ∣ s.tagbufsize
  size : s.tagbufsize ≤ tagLimit

/- The text of the buffer up to its end. -/
theorem tagString_text {text more : List Byte} (hText : s.tagbuf = text ++ 0 :: more)
    (hNul : 0 ∉ text) : s.tagString = some text := by
  have hEnd : s.tagbuf.contains 0 = true := by
    rw [hText, List.contains_iff_mem]
    exact List.mem_append_right text List.mem_cons_self
  unfold Filter.tagString
  rw [if_pos hEnd, hText]
  have hFront := takeWhile_quoted hNul more
  rw [hFront]

variable {final : List Byte}

theorem Filter.Holds.tagString {items : List Item} (hHolds : s.Holds items final) :
    s.tagString = some (layout items final) := by
  rcases hHolds.text with ⟨more, hText⟩
  exact tagString_text hText hHolds.clean.nul

/- The text of a tag as the parser sees it. -/
def parsedText (text : List Byte) : List Byte :=
  text.map fun b => if b = chr '<' then chr ' ' else b

theorem parsedText_of_clean (hClean : Clean text) : parsedText text = text := by
  unfold parsedText
  conv_rhs => rw [← List.map_id text]
  apply List.map_congr_left
  intro b hMem
  rw [if_neg (tagByte_ne (hClean b hMem)).2.1]
  rfl

theorem clean_parsedText (hNul : 0 ∉ text) (hEnd : chr '>' ∉ text) : Clean (parsedText text) := by
  intro b hMem
  rcases List.mem_map.mp hMem with ⟨c, hText, hByte⟩
  by_cases hOpen : c = chr '<'
  · rw [if_pos hOpen] at hByte
    rw [← hByte]
    decide
  · rw [if_neg hOpen] at hByte
    rw [← hByte]
    unfold tagByte
    simp only [Bool.and_eq_true, decide_eq_true_eq]
    refine ⟨⟨?_, hOpen⟩, ?_⟩
    · intro hSame
      exact hNul (hSame ▸ hText)
    · intro hSame
      exact hEnd (hSame ▸ hText)

/- What a tag does not change before its end. -/
def Filter.SameMode (s s' : Filter) : Prop :=
  s'.curState = s.curState ∧ s'.instyletag = s.instyletag

theorem Filter.SameMode.trans {s s' s'' : Filter} (hFirst : s.SameMode s')
    (hSecond : s'.SameMode s'') : s.SameMode s'' :=
  ⟨hSecond.1.trans hFirst.1, hSecond.2.trans hFirst.2⟩

theorem sameMode_addtagbuf (s : Filter) (c : Byte) : s.SameMode (s.addtagbuf c) := by
  unfold Filter.addtagbuf
  split
  · exact ⟨rfl, rfl⟩
  · exact ⟨rfl, rfl⟩

theorem sameMode_foldl (chars : List Byte) (s : Filter) :
    s.SameMode (chars.foldl Filter.addtagbuf s) := by
  induction chars generalizing s with
  | nil => exact ⟨rfl, rfl⟩
  | cons c chars ih => exact (sameMode_addtagbuf s c).trans (ih (s.addtagbuf c))

/- The parser on a text that ends in the buffer. -/
theorem parsetagbuf_holds {text more : List Byte} {items : List Item}
    (hText : s.tagbuf = text ++ 0 :: more) (hNul : 0 ∉ text) (hEnd : chr '>' ∉ text)
    (hMultiple : 256 ∣ s.tagbufsize) (hSize : s.tagbufsize ≤ tagLimit)
    (hLayout : layout items final = parsedText text) (hLaid : Laid items final)
    (hKept : ∀ i, i ∈ items → i.kept = true) :
    ∃ s', s.parsetagbuf = some s' ∧ s'.Holds items final ∧ s.SameMode s' := by
  have hParsed := parseattr_layout hLaid hKept s.tagbufsize 0
  have hLength : (parsedText text).length = text.length := List.length_map _
  have hDrop : s.tagbuf.drop (parsedText text).length = 0 :: more := by
    rw [hLength, hText, List.drop_left]
  unfold Filter.parsetagbuf
  rw [tagString_text hText hNul]
  refine ⟨_, rfl, ?_, ⟨rfl, rfl⟩⟩
  constructor
  · refine ⟨more, ?_⟩
    rw [hLayout]
    exact congrArg (parsedText text ++ ·) hDrop
  · rw [hLayout]
    exact clean_parsedText hNul hEnd
  · exact hLaid
  · refine ⟨s.tagattr.drop (parseattr s.tagbufsize 0 (parsedText text)).length, ?_⟩
    rw [← hLayout, hParsed, ← hParsed, hLayout]
    rfl
  · rw [← length_records s.tagbufsize 0 items, ← hParsed, hLayout]
    rfl
  · exact hMultiple
  · exact hSize

theorem slice_at {front part rest : List Byte} (hText : s.tagbuf = front ++ (part ++ rest)) :
    s.slice front.length part.length = part := by
  unfold Filter.slice
  rw [hText, List.drop_left, List.take_left]

variable {front rest : List Item} {i : Item}

/- The attribute at an index. -/
theorem Filter.Holds.attr (hHolds : s.Holds (front ++ i :: rest) final) :
    s.tagattr[front.length]? = some (i.attr.record (startOf front i) s.tagbufsize) := by
  rcases hHolds.attrs with ⟨stale, hAttrs⟩
  have hLess : front.length < (records s.tagbufsize 0 (front ++ i :: rest)).length := by
    rw [length_records, List.length_append, List.length_cons]
    omega
  rw [hAttrs, List.getElem?_append_left hLess, records_getElem?]

/- The text around an attribute that is kept. -/
theorem Filter.Holds.around (hHolds : s.Holds (front ++ i :: rest) final)
    (hKept : i.kept = true) :
    ∃ more, s.tagbuf = (layout front [] ++ i.gap) ++
      (i.attr.render ++ (layout rest final ++ 0 :: more)) := by
  rcases hHolds.text with ⟨more, hText⟩
  refine ⟨more, ?_⟩
  rw [hText, layout_append, layout, Item.render, if_pos hKept]
  simp only [List.append_assoc]

theorem startOf_eq (front : List Item) (i : Item) :
    startOf front i = (layout front [] ++ i.gap).length :=
  List.length_append.symm

theorem Filter.Holds.name (hHolds : s.Holds (front ++ i :: rest) final) (hKept : i.kept = true) :
    s.slice (startOf front i) i.attr.name.length = i.attr.name := by
  rcases hHolds.around hKept with ⟨more, hText⟩
  have hSplit := hText
  rw [Attr.render, List.append_assoc i.attr.name] at hSplit
  rw [startOf_eq]
  exact slice_at hSplit

theorem Filter.Holds.valueText (hHolds : s.Holds (front ++ i :: rest) final)
    (hKept : i.kept = true) (bufsize : Nat) :
    s.valueText (i.attr.record (startOf front i) bufsize) = i.attr.value.text := by
  rcases hHolds.around hKept with ⟨more, hText⟩
  rw [Attr.render] at hText
  unfold Filter.valueText Attr.record
  cases hValue : i.attr.value with
  | none => rfl
  | bare run => exact List.take_zero
  | quoted q text closed =>
    have hSplit : s.tagbuf = (layout front [] ++ i.gap ++ i.attr.name ++ [chr '=', q]) ++
          (text ++ ((if closed then [q] else []) ++ (layout rest final ++ 0 :: more))) := by
      rw [hText, hValue]
      simp [AttrValue.render]
    have hSlice := slice_at hSplit
    rw [List.length_append, List.length_append, ← startOf_eq] at hSlice
    exact hSlice

/- A name, whatever its case. -/
def Attr.isNamed (a : Attr) (l : List Byte) : Bool :=
  a.name.map tolower = l.map tolower

theorem Filter.Holds.isAttr (hHolds : s.Holds (front ++ i :: rest) final)
    (hKept : i.kept = true) (bufsize : Nat) (l : List Byte) :
    s.isAttr (i.attr.record (startOf front i) bufsize) l = i.attr.isNamed l := by
  unfold Filter.isAttr Attr.isNamed Attr.record
  simp only [hHolds.name hKept]
  by_cases hSame : i.attr.name.map tolower = l.map tolower
  · have hLength := congrArg List.length hSame
    rw [List.length_map, List.length_map] at hLength
    simp only [hLength, hSame, decide_true, Bool.and_self]
  · simp only [decide_eq_false hSame, Bool.and_false]

/- A name that a blank text does not have. -/
def isWord (l : List Byte) : Bool :=
  match l.map tolower with
  | [] => false
  | b :: _ => b ≠ chr ' '

theorem slice_blanked {front rest : List Byte} {n k : Nat}
    (hText : s.tagbuf = front ++ (List.replicate n (chr ' ') ++ rest)) (hLess : k ≤ n) :
    s.slice front.length k = List.replicate k (chr ' ') := by
  unfold Filter.slice
  rw [hText, List.drop_left, List.take_append_of_le_length,
    List.take_replicate, Nat.min_eq_left hLess]
  rw [List.length_replicate]
  exact hLess

/- A blanked attribute has no name. -/
theorem Filter.Holds.isAttr_blanked (hHolds : s.Holds (front ++ i :: rest) final)
    (hBlanked : i.kept = false) (bufsize : Nat) {l : List Byte} (hWord : isWord l = true) :
    s.isAttr (i.attr.record (startOf front i) bufsize) l = false := by
  rcases hHolds.text with ⟨more, hText⟩
  have hKept : ¬ i.kept = true := Bool.eq_false_iff.mp hBlanked
  have hSplit : s.tagbuf = (layout front [] ++ i.gap) ++
      (List.replicate i.attr.render.length (chr ' ') ++ (layout rest final ++ 0 :: more)) := by
    rw [hText, layout_append, layout, Item.render, if_neg hKept]
    simp only [List.append_assoc]
  have hLess : i.attr.name.length ≤ i.attr.render.length := by
    rw [Attr.render, List.length_append]
    exact Nat.le_add_right _ _
  have hSlice := slice_blanked hSplit hLess
  rw [← startOf_eq] at hSlice
  unfold Filter.isAttr Attr.record
  simp only [hSlice]
  unfold isWord at hWord
  cases l with
  | nil => cases hWord
  | cons b l =>
    cases hLength : i.attr.name.length with
    | zero => rfl
    | succ n =>
      have hBlank : ¬ (List.replicate (n + 1) (chr ' ')).map tolower = (b :: l).map tolower := by
        intro hSame
        rw [List.replicate_succ, List.map_cons, List.map_cons, List.cons.injEq] at hSame
        have hFirst : tolower b ≠ chr ' ' := by simpa using hWord
        exact hFirst hSame.1.symm
      rw [decide_eq_false hBlank, Bool.and_false]

------------
-- Writing an Attribute
------------

/- Only the gap of what comes next matters. -/
theorem Attr.Joined.congr {a : Attr} {rest others : List Item}
    (hGap : rest.head?.map Item.gap = others.head?.map Item.gap)
    (hJoined : a.Joined rest final) : a.Joined others final := by
  have hNext : (∀ i, rest.head? = some i → i.gap ≠ []) →
      ∀ i, others.head? = some i → i.gap ≠ [] := by
    intro hSome i hHead
    rw [hHead, Option.map_some, Option.map_eq_some_iff] at hGap
    rcases hGap with ⟨j, hFirst, hSame⟩
    rw [← hSame]
    exact hSome j hFirst
  unfold Attr.Joined at hJoined ⊢
  cases hValue : a.value with
  | none =>
    rw [hValue] at hJoined
    exact hNext hJoined
  | bare run =>
    rw [hValue] at hJoined
    exact hNext hJoined
  | quoted q text closed =>
    rw [hValue] at hJoined
    cases closed with
    | true => trivial
    | false =>
      rcases hJoined with ⟨hRest, hFinal⟩
      rw [hRest] at hGap
      cases others with
      | nil => exact ⟨rfl, hFinal⟩
      | cons j others => cases hGap

/- An attribute in place of another one. -/
theorem Laid.replace {i j : Item} (hLaid : Laid (front ++ i :: rest) final)
    (hGap : j.gap = i.gap) (hOk : i.attr.Ok → j.attr.Ok)
    (hJoined : i.attr.Joined rest final → j.attr.Joined rest final) :
    Laid (front ++ j :: rest) final := by
  induction front with
  | nil =>
    rcases hLaid with ⟨hBlank, hAttr, hNext, hRest⟩
    refine ⟨?_, hOk hAttr, hJoined hNext, hRest⟩
    rw [hGap]
    exact hBlank
  | cons k front ih =>
    rcases hLaid with ⟨hBlank, hAttr, hNext, hRest⟩
    refine ⟨hBlank, hAttr, hNext.congr ?_, ih hRest⟩
    cases front with
    | nil => exact congrArg some hGap.symm
    | cons m front => rfl

/- The attribute after it has been blanked out. -/
def Item.blanked (i : Item) : Item :=
  { i with kept := false }

theorem layout_blanked (front rest : List Item) (i : Item) (final : List Byte) :
    layout (front ++ i.blanked :: rest) final = (layout front [] ++ i.gap) ++
        (List.replicate i.attr.render.length (chr ' ') ++ layout rest final) := by
  rw [layout_append, layout]
  simp only [Item.render, Item.blanked, Bool.false_eq_true, if_false, List.append_assoc]

/- An attribute that is kept is blanked out. -/
theorem Filter.Holds.blank (hHolds : s.Holds (front ++ i :: rest) final) (hKept : i.kept = true) :
    (s.blank (i.attr.record (startOf front i) s.tagbufsize)).Holds
        (front ++ i.blanked :: rest) final := by
  rcases hHolds.around hKept with ⟨more, hText⟩
  have hClean := hHolds.clean
  rw [layout_append, layout, Item.render, if_pos hKept,
    List.append_assoc i.gap, ← List.append_assoc] at hClean
  have hLength : i.attr.render.length = (List.replicate i.attr.render.length (chr ' ')).length :=
    List.length_replicate.symm
  constructor
  · refine ⟨more, ?_⟩
    unfold Filter.blank Attr.record
    simp only [startOf_eq]
    rw [hText, List.take_left, ← List.drop_drop, List.drop_left, List.drop_left, layout_blanked]
    simp only [List.append_assoc]
  · rw [layout_blanked]
    exact hClean.left.append ((clean_blanks _).append hClean.right.right)
  · exact hHolds.laid.replace rfl id id
  · rcases hHolds.attrs with ⟨stale, hAttrs⟩
    refine ⟨stale, hAttrs.trans (congrArg (· ++ stale) ?_)⟩
    apply records_congr
    rw [List.map_append, List.map_append]
    rfl
  · rw [List.length_append]
    exact hHolds.count.trans List.length_append
  · exact hHolds.multiple
  · exact hHolds.size

/- A value that is written into an attribute. -/
def AttrValue.write (v : AttrValue) (p : List Byte) : AttrValue :=
  match v with
  | .none => .none
  | .bare run => .bare (run ++ p)
  | .quoted q _ closed => .quoted q p closed

def Attr.write (a : Attr) (p : List Byte) : Attr :=
  { a with value := a.value.write p }

/-
  What can be written into an attribute.  A bare value must go
  on to be one, and a quoted one must not end early.
-/
def AttrValue.Takes (v : AttrValue) (p : List Byte) : Prop :=
  match v with
  | .none => False
  | .bare run =>
    (∀ b, b ∈ p → inValue b = true) ∧ (run = [] → ∀ b, p.head? = some b → isQuote b = false)
  | .quoted q _ _ => q ∉ p

theorem Attr.Ok.write {a : Attr} {p : List Byte} (hOk : a.Ok) (hTakes : a.value.Takes p) :
    (a.write p).Ok := by
  rcases a with ⟨name, value⟩
  cases value with
  | none => exact hTakes.elim
  | bare run =>
    rcases hTakes with ⟨hRun, hFirst⟩
    rcases hOk.value with ⟨hOld, hHead⟩
    refine ⟨hOk.name, ⟨?_, ?_⟩, Or.inr ?_⟩
    · intro b hMem
      rcases List.mem_append.mp hMem with hHere | hThere
      · exact hOld b hHere
      · exact hRun b hThere
    · intro b hFront
      cases run with
      | nil => exact hFirst rfl b hFront
      | cons c run => exact hHead b hFront
    · intro hSame
      cases hSame
  | quoted q text closed =>
    refine ⟨hOk.name, ⟨hOk.value.1, hTakes⟩, Or.inr ?_⟩
    intro hSame
    cases hSame

theorem Attr.Joined.write {a : Attr} {rest : List Item} (hJoined : a.Joined rest final)
    (p : List Byte) : (a.write p).Joined rest final := by
  rcases a with ⟨name, value⟩
  cases value with
  | none => exact hJoined
  | bare run => exact hJoined
  | quoted q text closed =>
    cases closed with
    | true => trivial
    | false => exact hJoined

/- The text around the value that is replaced. -/
theorem AttrValue.cut_render {v : AttrValue} {p : List Byte} (hTakes : v.Takes p) :
    ∃ n front rest, v.start = some n ∧ front.length = n ∧ v.render = front ++ (v.text ++ rest) ∧
      (v.write p).render = front ++ (p ++ rest) := by
  cases v with
  | none => exact hTakes.elim
  | bare run =>
    refine ⟨_, chr '=' :: run, [], rfl, ?_, ?_, ?_⟩
    · rw [List.length_cons, Nat.add_comm]
    · simp [AttrValue.render, AttrValue.text]
    · simp [AttrValue.render, AttrValue.write]
  | quoted q text closed =>
    refine ⟨_, [chr '=', q], if closed then [q] else [], rfl, rfl, ?_, ?_⟩
    · simp [AttrValue.render, AttrValue.text]
    · simp [AttrValue.render, AttrValue.write]

/- The item with a new value. -/
def Item.write (i : Item) (p : List Byte) : Item :=
  { i with attr := i.attr.write p }

/- The length of the text with the new value in it. -/
def writtenLength (items : List Item) (final : List Byte) (i : Item) (p : List Byte) : Nat :=
  (layout items final).length - i.attr.value.text.length + p.length

/- A link is written into an attribute that can take it. -/
theorem Filter.Holds.replacelink {final p : List Byte}
    (hHolds : s.Holds (front ++ i :: rest) final) (hKept : i.kept = true)
    (hTakes : i.attr.value.Takes p) (hClean : Clean p)
    (hLength : writtenLength (front ++ i :: rest) final i p < tagLimit) :
    ∃ s', s.replacelink front.length p = some s' ∧
      s'.Holds (compact [] (front ++ i.write p :: rest) final).1
        (compact [] (front ++ i.write p :: rest) final).2 ∧
      s.SameMode s' := by
  rcases AttrValue.cut_render hTakes with ⟨n, before, after, hStart, hBefore, hOld, hNew⟩
  have hText : layout (front ++ i :: rest) final =
      (layout front [] ++ i.gap ++ i.attr.name ++ before) ++
        (i.attr.value.text ++ (after ++ layout rest final)) := by
    rw [layout_append, layout, Item.render, if_pos hKept, Attr.render, hOld]
    simp only [List.append_assoc]
  have hWritten : layout (front ++ i.write p :: rest) final =
      (layout front [] ++ i.gap ++ i.attr.name ++ before) ++
        (p ++ (after ++ layout rest final)) := by
    have hKeep : (i.write p).kept = true := hKept
    have hValue : (i.write p).attr.render = i.attr.name ++ (i.attr.value.write p).render := rfl
    have hGap : (i.write p).gap = i.gap := rfl
    rw [layout_append, layout, Item.render, if_pos hKeep, hValue, hNew, hGap]
    simp only [List.append_assoc]
  have hPlace : startOf front i + i.attr.name.length + n =
      (layout front [] ++ i.gap ++ i.attr.name ++ before).length := by
    rw [List.length_append, List.length_append, ← startOf_eq, hBefore]
  generalize hFront : layout front [] ++ i.gap ++ i.attr.name ++ before = first
    at hText hWritten hPlace
  generalize after ++ layout rest final = last at hText hWritten
  have hOldClean := hHolds.clean
  rw [hText] at hOldClean
  have hNewClean : Clean (first ++ (p ++ last)) :=
    hOldClean.left.append (hClean.append hOldClean.right.right)
  have hShort : (first ++ (p ++ last)).length < tagLimit := by
    unfold writtenLength at hLength
    rw [hText] at hLength
    simp only [List.length_append] at hLength ⊢
    omega
  have hEmpty : Filter.Written { s with tagbuflen := 0 } [] :=
    ⟨hHolds.multiple, fun _ => ⟨rfl, rfl⟩⟩
  have hFolded := hEmpty.foldl (first ++ (p ++ last))
  have hSmall := hEmpty.small_foldl hHolds.size (first ++ (p ++ last)) (by
      rw [List.length_nil, Nat.zero_add]
      exact Nat.le_of_lt hShort)
  rw [List.nil_append] at hFolded
  have hEnded := hFolded.addtagbuf 0
  have hEndSmall := hFolded.small hSmall hShort 0
  have hLess : ((((first ++ (p ++ last)).foldl Filter.addtagbuf
      { s with tagbuflen := 0 }).addtagbuf 0).tagbufsize < tagbufLimit) :=
    Nat.lt_of_le_of_lt hEndSmall (by decide)
  rcases hFolded.ended hLess with ⟨more, hBuffer⟩
  have hLaid := hHolds.laid.replace (j := i.write p) rfl
    (fun hOk => hOk.write hTakes) (fun hJoined => hJoined.write p)
  have hLayout : layout (compact [] (front ++ i.write p :: rest) final).1
      (compact [] (front ++ i.write p :: rest) final).2 = parsedText (first ++ (p ++ last)) := by
    rw [layout_compact, List.nil_append, hWritten, parsedText_of_clean hNewClean]
  have hMode := (sameMode_foldl (first ++ (p ++ last))
    { s with tagbuflen := 0 }).trans (sameMode_addtagbuf _ 0)
  rcases parsetagbuf_holds hBuffer hNewClean.nul hNewClean.end_tag hEnded.multiple hEndSmall hLayout
    (hLaid.compact blank_nil) (kept_compact _ _ _) with
      ⟨s', hParsed, hResult, hSame⟩
  refine ⟨s', ?_, hResult, hMode.trans hSame⟩
  have hValue : (i.attr.record (startOf front i) s.tagbufsize).tagvalue = some first.length := by
    unfold Attr.record
    rw [hStart, ← hPlace]
    rfl
  have hLen : (i.attr.record (startOf front i)
      s.tagbufsize).tagvaluelen = i.attr.value.text.length := rfl
  unfold Filter.replacelink
  rw [hHolds.attr, hHolds.tagString, hText]
  simp only [hValue, hLen]
  rw [List.take_left, ← List.drop_drop, List.drop_left, List.drop_left, List.append_assoc]
  exact hParsed

end Wmail.Sqwebmail
