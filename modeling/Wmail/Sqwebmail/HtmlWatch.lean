import Wmail.Sqwebmail.HtmlRuns

/-
  A watch beside the filter.

  It goes through the input and knows which tag is read and
  whether it is read between `STYLE` and `/STYLE`.  From it
  follows what is to be put out: text and comments as they are,
  except for `>`, and for a tag what the filter makes of it.

  Key theorems include:
    * `filteredTag_mode`
    * `Follows.own_iff`
-/

------------
-- The Watch
------------

namespace Wmail.Sqwebmail

/- The name of a tag. -/
def tagName (tag : List Byte) : List Byte :=
  ((parsedText tag).dropWhile isspace).takeWhile inName

/- A tag has a name, whatever its case. -/
def isTag (l tag : List Byte) : Bool :=
  (tagName tag).map tolower = l.map tolower

/- What is read after a tag is a stylesheet. -/
def styledBy (styled : Bool) (tag : List Byte) : Bool :=
  if isTag (bytes "STYLE") tag then
    true
  else if isTag (bytes "/STYLE") tag then
    false
  else
    styled

/- The tags `STYLE` and `/STYLE` alternate. -/
def Alternate : Bool → List (List Byte) → Prop
  | _, [] => True
  | styled, tag :: tags =>
    (isTag (bytes "STYLE") tag = true → styled = false) ∧
      (isTag (bytes "/STYLE") tag = true → styled = true) ∧
      Alternate (styledBy styled tag) tags

/-
  The reader of the input, whether it is in a stylesheet, and
  all that has been read since the last `<` of the text.
-/
structure Watch where
  reader : Reader
  styled : Bool
  opened : List Byte

/- One character of the input. -/
def Watch.step (w : Watch) (c : Byte) : Watch where
  reader := (w.reader.step c).1
  styled := (w.reader.step c).2.foldl styledBy w.styled
  opened :=
    if w.reader.curState = .intext then [c] else w.opened ++ [c]

def Watch.read (w : Watch) (text : List Byte) : Watch :=
  text.foldl Watch.step w

/- The watch in front of the input. -/
def newWatch : Watch where
  reader := newReader
  styled := false
  opened := []

/- The tags that end at a character. -/
def Watch.ended (w : Watch) (c : Byte) : List (List Byte) :=
  (w.reader.step c).2

/-
  What is to be put out for a character, when the filter puts
  out `said` for one that is neither in text nor in a comment.
-/
def Watch.piece (w : Watch) (c : Byte) (said : List Byte) : List Byte :=
  if w.styled then
    []
  else
    match w.reader.curState with
    | .intext =>
      if c = chr '<' then
        []
      else if c = chr '>' then
        bytes "&nbsp;"
      else
        [c]
    | .seenltbangdash => if c = chr '-' then w.opened ++ [c] else said
    | .incomment | .incommentseendash | .incommentseendashdash => [c]
    | .seenlt | .seenltbang | .intag => said

/- What the filter puts out when it reads a character. -/
def Filter.said (cfg : Config) (s : Filter) (c : Byte) : List Byte :=
  match s.pendStep cfg [] c with
  | none => []
  | some r => r.2.2

/- What is to be put out for an input. -/
def wanted (cfg : Config) : List Byte → Filter → Watch → List Byte
  | [], _, _ => []
  | c :: rest, s, w =>
    w.piece c (s.said cfg c) ++
      match s.next cfg c with
      | none => []
      | some s => wanted cfg rest s (w.step c)

/-
  The tag is in the buffer, with its end behind it, and is
  what the parser reads there.
-/
def OwnTag (s : Filter) (tag : List Byte) : Prop :=
  (s.addtagbuf 0).tagbuf.take (s.addtagbuf 0).tagbuflen = tag ++ [0] ∧
    (s.addtagbuf 0).tagString = some tag

/- So far, what is put out is what is to be put out. -/
def TextKept (cfg : Config) (s : Filter) (html : List Byte) : Prop :=
  ∀ front s', front <+: html → (s.htmlfilter cfg front).2 = some s' →
      (s.htmlfilter cfg front).1 = wanted cfg front s newWatch

/- Every tag is analysed on its own characters. -/
def TagsOwn (cfg : Config) (s : Filter) (html : List Byte) : Prop :=
  ∀ front c s' tag, front ++ [c] <+: html → (s.htmlfilter cfg front).2 = some s' →
      tag ∈ (newWatch.read front).ended c → OwnTag s' tag

/-
  A character that the filter reads as it is to: in a
  stylesheet no `>` is read in text, outside of one nothing is
  between the `<` and the `!--` of a comment, and a tag without
  a zero byte ends while the buffer is below its limit.
-/
structure StepFine (s : Filter) (w : Watch) (c : Byte) : Prop where
  stray : w.reader.curState = .intext → c = chr '>' → w.styled = false
  comment : w.reader.curState = .seenltbangdash → c = chr '-' →
    w.styled = false → w.opened = bytes "<!-"
  tag : ∀ tag, tag ∈ w.ended c → s.tagbufsize < tagbufLimit ∧ 0 ∉ tag

/- Every character of the input is read so. -/
def StepsFine (cfg : Config) (s : Filter) (html : List Byte) : Prop :=
  ∀ front c s', front ++ [c] <+: html → (s.htmlfilter cfg front).2 = some s' →
      StepFine s' (newWatch.read front) c

/- The first record of a text is of its name. -/
theorem head_parseattr (bufsize : Nat) (text : List Byte) :
    (text.dropWhile isspace = [] ∧ parseattr bufsize 0 text = []) ∨
      ∃ t more, parseattr bufsize 0 text = t :: more ∧ t.tagname = (text.takeWhile isspace).length ∧
        t.tagnamelen = ((text.dropWhile isspace).takeWhile inName).length := by
  have hSplit := congrArg List.length (List.takeWhile_append_dropWhile (p := isspace) (l := text))
  rw [List.length_append] at hSplit
  unfold parseattr
  split
  · rename_i hNone
    exact Or.inl ⟨hNone, rfl⟩
  · rename_i b rest hSome
    refine Or.inr ⟨_, _, rfl, ?_, ?_⟩
    · rw [hSome] at hSplit
      unfold parseone
      simp only []
      split
      · simp only []
        omega
      · simp only []
        omega
    · rw [hSome]
      unfold parseone
      simp only []
      split
      · rfl
      · rfl

/- The name that the parser finds is the one of the tag. -/
theorem isHtmltag_parsed {s s' : Filter} {tag l : List Byte} (hTag : s.tagString = some tag)
    (hParsed : s.parsetagbuf = some s') (hName : l ≠ []) : s'.isHtmltag l = isTag l tag := by
  unfold Filter.parsetagbuf at hParsed
  rw [hTag, Option.map_some, Option.some.injEq] at hParsed
  have hMap : l.map tolower ≠ [] := by
    rw [ne_eq, List.map_eq_nil_iff]
    exact hName
  rcases head_parseattr s.tagbufsize (parsedText tag) with
    ⟨hNone, hAttrs⟩ | ⟨t, more, hAttrs, hStart, hLength⟩
  · unfold parsedText at hAttrs
    unfold isTag tagName Filter.isHtmltag
    rw [← hParsed, hNone]
    simp only [hAttrs, List.length_nil, Nat.lt_irrefl, decide_false, Bool.false_and,
      List.takeWhile_nil, List.map_nil, decide_eq_false (Ne.symm hMap)]
  · have hText : s'.tagbuf = (parsedText tag).takeWhile isspace ++
          ((parsedText tag).dropWhile isspace ++ s.tagbuf.drop (parsedText tag).length) := by
      rw [← List.append_assoc, List.takeWhile_append_dropWhile, ← hParsed]
      rfl
    have hSlice : s'.slice t.tagname t.tagnamelen = tagName tag := by
      rcases List.takeWhile_prefix (l :=
        (parsedText tag).dropWhile isspace) inName with ⟨rest, hRest⟩
      unfold Filter.slice tagName
      rw [hText, hStart, hLength, List.drop_left]
      nth_rewrite 2 [← hRest]
      rw [List.append_assoc, List.take_left]
    have hLength : t.tagnamelen = (tagName tag).length := hLength
    unfold parsedText at hAttrs
    unfold Filter.isHtmltag
    rw [← hParsed] at hSlice ⊢
    simp only [hAttrs, List.cons_append, List.length_cons,
      Nat.succ_pos, decide_true, Bool.true_and, List.head?_cons]
    unfold Filter.isAttr isTag
    simp only [hAttrs, List.cons_append, List.length_cons] at hSlice
    rw [hSlice, hLength]
    by_cases hSame : (tagName tag).map tolower = l.map tolower
    · have hEqual := congrArg List.length hSame
      rw [List.length_map, List.length_map] at hEqual
      simp only [hEqual, hSame, decide_true, Bool.and_self]
    · simp only [decide_eq_false hSame, Bool.and_false]

------------
-- What a Tag Does not Change
------------

theorem Filter.SameMode.refl (s : Filter) : s.SameMode s :=
  ⟨rfl, rfl⟩

theorem sameMode_blank (s : Filter) (t : TagAttr) : s.SameMode (s.blank t) :=
  ⟨rfl, rfl⟩

theorem sameMode_parsetagbuf {s s' : Filter} (hParsed : s.parsetagbuf = some s') :
    s.SameMode s' := by
  rcases Option.map_eq_some_iff.mp hParsed with ⟨text, _, hSame⟩
  rw [← hSame]
  exact ⟨rfl, rfl⟩

theorem sameMode_blankOn (s : Filter) : s.SameMode s.blankOn := by
  unfold Filter.blankOn
  generalize List.range' 1 (s.tagattrlen - 1) = ls
  induction ls generalizing s with
  | nil => exact Filter.SameMode.refl s
  | cons l ls ih =>
    rw [List.foldl_cons]
    refine Filter.SameMode.trans ?_ (ih _)
    split
    · exact Filter.SameMode.refl s
    · split
      · exact sameMode_blank s _
      · exact Filter.SameMode.refl s

variable {l : Nat}

theorem sameMode_replacelink {s s' : Filter} {p : List Byte}
    (hLink : s.replacelink l p = some s') : s.SameMode s' := by
  unfold Filter.replacelink at hLink
  split at hLink
  · split at hLink
    · cases hLink
    · have hStart : s.SameMode { s with tagbuflen := 0 } := ⟨rfl, rfl⟩
      exact hStart.trans ((sameMode_foldl _ _).trans ((sameMode_addtagbuf _ 0).trans
          (sameMode_parsetagbuf hLink)))
  · cases hLink

theorem sameMode_dowashlink {s s' : Filter} {washlink value : List Byte}
    (hLink : s.dowashlink washlink l value = some s') : s.SameMode s' := by
  rcases Option.bind_eq_some_iff.mp hLink with ⟨url, _, hUrl⟩
  exact sameMode_replacelink hUrl

variable {cfg : Config}

/- The link of an attribute, through the server or not. -/
theorem sameMode_replaced {s s' : Filter} {q : List Byte}
    (hLink : (match cfg.washlink with
      | some washlink => s.dowashlink washlink l q
      | none => s.replacelink l q) = some s') : s.SameMode s' := by
  split at hLink
  · exact sameMode_dowashlink hLink
  · exact sameMode_replacelink hLink

theorem sameMode_dowashcid {s s' : Filter} {convertcid : Option (List Byte → List Byte)}
    {link : List Byte} (hLink : s.dowashcid convertcid l link = some s') : s.SameMode s' := by
  unfold Filter.dowashcid at hLink
  split at hLink
  · exact sameMode_replacelink hLink
  · exact sameMode_replacelink hLink

theorem sameMode_dowashlinkmailto {s s' : Filter} {washlinkmailto : Option (List Byte)}
    {mailtolink : List Byte} (hLink : s.dowashlinkmailto washlinkmailto l mailtolink = some s') :
    s.SameMode s' := by
  rcases Option.bind_eq_some_iff.mp hLink with ⟨front, _, hFront⟩
  exact sameMode_replacelink hFront

variable {s : Filter} {open_window : Bool}

theorem sameMode_washLink {t : TagAttr} {r : Filter × Bool}
    (hWash : s.washLink cfg l t open_window = some r) : s.SameMode r.1 := by
  unfold Filter.washLink at hWash
  simp only [] at hWash
  split at hWash
  · cases hWash
    exact sameMode_blank s t
  split at hWash
  · rcases Option.map_eq_some_iff.mp hWash with ⟨s', hLink, hSame⟩
    rw [← hSame]
    exact sameMode_dowashcid hLink
  split at hWash
  · rcases Option.map_eq_some_iff.mp hWash with ⟨s', hLink, hSame⟩
    rw [← hSame]
    exact sameMode_replaced hLink
  split at hWash
  · rcases Option.map_eq_some_iff.mp hWash with ⟨s', hLink, hSame⟩
    rw [← hSame]
    exact sameMode_dowashlinkmailto hLink
  split at hWash
  · cases hWash
    exact Filter.SameMode.refl s
  · cases hWash
    exact sameMode_blank s t

theorem sameMode_washAttr {t : TagAttr} {r : Filter × Bool}
    (hWash : s.washAttr cfg l t open_window = some r) : s.SameMode r.1 := by
  have hRemoved : s.SameMode (if s.isRemoved t then s.blank t else s) := by
    split
    · exact sameMode_blank s t
    · exact Filter.SameMode.refl s
  unfold Filter.washAttr at hWash
  simp only [] at hWash
  refine hRemoved.trans ?_
  generalize (if s.isRemoved t then s.blank t else s) = s at hWash
  split at hWash
  · exact sameMode_washLink hWash
  · cases hWash
    exact Filter.SameMode.refl s

theorem sameMode_washAttrs {fuel : Nat} {r : Filter × Bool}
    (hWash : s.washAttrs cfg fuel l open_window = some r) : s.SameMode r.1 := by
  induction fuel generalizing s l open_window with
  | zero => cases hWash
  | succ fuel ih =>
    rw [Filter.washAttrs] at hWash
    split at hWash
    · cases hWash
      exact Filter.SameMode.refl s
    · split at hWash
      · cases hWash
      · rcases Option.bind_eq_some_iff.mp hWash with ⟨w, hFirst, hRest⟩
        exact (sameMode_washAttr hFirst).trans (ih hRest)

theorem sameMode_image {r : Filter × List Byte × Bool} (hImage : s.image cfg = some r) :
    s.SameMode r.1 := by
  unfold Filter.image at hImage
  split at hImage
  · cases hImage
    exact Filter.SameMode.refl s
  · split at hImage
    · cases hImage
      exact Filter.SameMode.refl s
    · rcases Option.map_eq_some_iff.mp hImage with ⟨w, hLink, hSame⟩
      rcases Option.bind_eq_some_iff.mp hLink with ⟨s', hReplaced, hPrinted⟩
      rcases Option.map_eq_some_iff.mp hPrinted with ⟨value, _, hBoth⟩
      rw [← hSame, ← hBoth]
      exact sameMode_replaced hReplaced

variable {r : Filter × List Byte}

theorem sameMode_rebuildTag (hRebuild : s.rebuildTag cfg = some r) : s.SameMode r.1 := by
  unfold Filter.rebuildTag at hRebuild
  rcases Option.bind_eq_some_iff.mp hRebuild with ⟨found, hStart, hRest⟩
  refine (sameMode_blankOn s).trans ?_
  have hFound : s.blankOn.SameMode found.1 := by
    split at hStart
    · exact sameMode_image hStart
    · cases hStart
      exact Filter.SameMode.refl _
  refine hFound.trans ?_
  split at hRest
  · rcases Option.bind_eq_some_iff.mp hRest with ⟨w, hWash, hPrint⟩
    rcases Option.map_eq_some_iff.mp hPrint with ⟨text, _, hSame⟩
    rw [← hSame]
    exact sameMode_washAttrs hWash
  · cases hRest
    exact Filter.SameMode.refl _

/- The counter of a filter that is in a stylesheet or not. -/
def styleCount (styled : Bool) : UInt32 :=
  if styled then 1 else 0

/- A tag is not named like one that is dropped. -/
theorem not_dropped {tag l : List Byte} (hTag : isTag l tag = true)
    (hOther : ∀ d, d ∈ droppedTags →
      d.map tolower ≠ l.map tolower) : droppedTags.any (fun d => isTag d tag) = false := by
  rw [List.any_eq_false]
  intro d hMem hSame
  unfold isTag at hTag hSame
  rw [decide_eq_true_eq] at hTag hSame
  exact hOther d hMem (hSame.symm.trans hTag)

/-
  A tag that is analysed on its own characters goes into a
  stylesheet, or leaves it, as its name tells.
-/
theorem filteredTag_mode {tag : List Byte} {styled : Bool} (hOwn : OwnTag s tag)
    (hStyle : s.instyletag = styleCount styled)
    (hStart : isTag (bytes "STYLE") tag = true → styled = false)
    (hEnd : isTag (bytes "/STYLE") tag = true → styled = true)
    (hFiltered : s.filteredTag cfg = some r) :
    r.1.curState = s.curState ∧ r.1.instyletag = styleCount (styledBy styled tag) := by
  rcases Option.bind_eq_some_iff.mp hFiltered with ⟨s', hParsed, hTag⟩
  have hMode := (sameMode_addtagbuf s 0).trans (sameMode_parsetagbuf hParsed)
  have hName : ∀ l, l ≠ [] → s'.isHtmltag l = isTag l tag :=
    fun l hSome => isHtmltag_parsed hOwn.2 hParsed hSome
  have hDropped : droppedTags.any s'.isHtmltag = droppedTags.any (fun d => isTag d tag) := by
    rw [Bool.eq_iff_iff, List.any_eq_true, List.any_eq_true]
    have hNamed : ∀ d, d ∈ droppedTags → d ≠ [] := by decide
    constructor
    · rintro ⟨d, hMem, hSame⟩
      exact ⟨d, hMem, by rw [← hName d (hNamed d hMem), hSame]⟩
    · rintro ⟨d, hMem, hSame⟩
      exact ⟨d, hMem, by rw [hName d (hNamed d hMem), hSame]⟩
  rw [hDropped, hName _ (by decide), hName _ (by decide)] at hTag
  by_cases hFirst : isTag (bytes "STYLE") tag = true
  · rw [not_dropped hFirst (by decide), if_neg Bool.false_ne_true, if_pos hFirst] at hTag
    cases hTag
    refine ⟨hMode.1, ?_⟩
    unfold styledBy
    simp only [hMode.2, hStyle, hStart hFirst, if_pos hFirst]
    rfl
  by_cases hLast : isTag (bytes "/STYLE") tag = true
  · rw [not_dropped hLast (by decide), if_neg Bool.false_ne_true,
      if_neg hFirst, if_pos hLast] at hTag
    cases hTag
    refine ⟨hMode.1, ?_⟩
    unfold styledBy
    simp only [hMode.2, hStyle, hEnd hLast, if_neg hFirst, if_pos hLast]
    rfl
  have hSame : styledBy styled tag = styled := by
    unfold styledBy
    rw [if_neg hFirst, if_neg hLast]
  rw [if_neg hFirst, if_neg hLast] at hTag
  rw [hSame, ← hStyle]
  split at hTag
  · cases hTag
    exact hMode
  split at hTag
  · cases hTag
    exact hMode
  · exact hMode.trans (sameMode_rebuildTag hTag)

/- In a stylesheet a tag leaves nothing. -/
theorem filteredTag_styled (hStyle : s.instyletag ≠ 0)
    (hFiltered : s.filteredTag cfg = some r) : r.2 = [] := by
  rcases Option.bind_eq_some_iff.mp hFiltered with ⟨s', hParsed, hTag⟩
  have hMode := (sameMode_addtagbuf s 0).trans (sameMode_parsetagbuf hParsed)
  have hInside : s'.instyletag ≠ 0 := by
    rw [hMode.2]
    exact hStyle
  split at hTag
  · cases hTag
    rfl
  split at hTag
  · cases hTag
    rfl
  split at hTag
  · cases hTag
    rfl
  · cases hTag
    rfl

/-
  The filter is where the watch is.  In a tag it has the tag in
  its buffer, unless the buffer has reached its limit.
-/
structure Follows (s : Filter) (w : Watch) : Prop where
  state : w.reader.curState = s.curState
  style : s.instyletag = styleCount w.styled
  short : s.curState.textual = false → s.tagbuflen ≤ w.reader.tag.length
  text : s.curState.textual = false → s.tagbufsize < tagbufLimit →
      s.tagbuf.take s.tagbuflen = w.reader.tag ∧ s.tagbuflen = w.reader.tag.length

theorem follows_new (s : Filter) : Follows s.htmlfilterInit newWatch := by
  refine ⟨rfl, rfl, ?_, ?_⟩
  · intro hTag
    cases hTag
  · intro hTag
    cases hTag

theorem size_addtagbuf (s : Filter) (c : Byte) : s.tagbufsize ≤ (s.addtagbuf c).tagbufsize := by
  unfold Filter.addtagbuf
  split
  · exact Nat.le_refl _
  · simp only []
    split
    · exact Nat.le_add_right _ _
    · exact Nat.le_refl _

/- A character of the tag goes into the buffer. -/
theorem Follows.added {w : Watch} {c : Byte} (state : HtmlState) (hFollows : Follows s w)
    (hTag : s.curState.textual = false)
    (hNext : w.reader.step c = (⟨state, w.reader.tag ++ [c]⟩, [])) :
    Follows { s.addtagbuf c with curState := state } (w.step c) := by
  have hMode := sameMode_addtagbuf s c
  unfold Watch.step
  rw [hNext]
  refine ⟨rfl, hMode.2.trans hFollows.style, ?_, ?_⟩
  · intro _
    have hShort := hFollows.short hTag
    simp only [List.length_append, List.length_singleton]
    unfold Filter.addtagbuf
    split
    · exact Nat.le_succ_of_le hShort
    · exact Nat.succ_le_succ hShort
  · intro _ hLess
    have hBefore := Nat.lt_of_le_of_lt (size_addtagbuf s c) hLess
    exact addtagbuf_front hBefore (hFollows.text hTag hBefore) c

/- The tag is analysed on its own characters, or is not. -/
theorem Follows.own_iff {w : Watch} (hFollows : Follows s w) (hTag : s.curState.textual = false) :
    OwnTag s w.reader.tag ↔ s.tagbufsize < tagbufLimit ∧ 0 ∉ w.reader.tag := by
  constructor
  · rintro ⟨hText, hString⟩
    constructor
    · by_contra hLimit
      have hSame : s.addtagbuf 0 = s := by
        unfold Filter.addtagbuf
        rw [if_pos (Nat.not_lt.mp hLimit)]
      have hLength := congrArg List.length hText
      have hShort := hFollows.short hTag
      rw [hSame, List.length_take, List.length_append, List.length_singleton] at hLength
      omega
    · intro hMem
      unfold Filter.tagString at hString
      split at hString
      · rw [Option.some.injEq] at hString
        rw [← hString] at hMem
        exact not_mem_takeWhile_separator 0 _ hMem
      · cases hString
  · rintro ⟨hLess, hNul⟩
    have hText := (addtagbuf_front hLess (hFollows.text hTag hLess) 0).1
    refine ⟨hText, ?_⟩
    have hSplit := List.take_append_drop (s.addtagbuf 0).tagbuflen (s.addtagbuf 0).tagbuf
    rw [hText, List.append_assoc] at hSplit
    unfold Filter.tagString
    rw [← hSplit, if_pos]
    · rw [List.takeWhile_append_of_pos]
      · simp
      · intro b hMem
        have hOther : b ≠ 0 := by
          intro hZero
          exact hNul (hZero ▸ hMem)
        simpa using hOther
    · simp

end Wmail.Sqwebmail
