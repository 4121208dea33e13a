import Wmail.Sqwebmail.HtmlChunks
import Wmail.Sqwebmail.HtmlTags

/-
  Reading HTML text with the scanner and the parser of the
  filter.

  The reader goes through the states of the filter, has no
  limit on the length of a tag, and changes nothing: it tells
  which tags it has seen.

  Key theorems include:
    * `readAttrs_layout`
    * `Shadows.step`
-/

namespace Wmail.Sqwebmail

/- The state of the scanner, and the tag that it is in. -/
structure Reader where
  curState : HtmlState
  tag : List Byte

/- A character of a tag, which may be its end. -/
def Reader.intag (r : Reader) (c : Byte) : Reader × List (List Byte) :=
  if c = chr '>' then
    ({ r with curState := .intext }, [r.tag])
  else
    ({ curState := .intag, tag := r.tag ++ [c] }, [])

/- One character of the text. -/
def Reader.step (r : Reader) (c : Byte) : Reader × List (List Byte) :=
  match r.curState with
  | .intext =>
    if c = chr '<' then ({ curState := .seenlt, tag := [] }, []) else (r, [])
  | .seenlt =>
    if c = chr '>' then
      ({ r with curState := .intext }, [])
    else if isspace c then
      (r, [])
    else if c = chr '!' then
      ({ curState := .seenltbang, tag := r.tag ++ [c] }, [])
    else if c ≠ chr '/' && !isalpha c then
      ({ r with curState := .intext }, [])
    else
      ({ curState := .intag, tag := r.tag ++ [c] }, [])
  | .intag => r.intag c
  | .seenltbang =>
    if c ≠ chr '-' then r.intag c else ({ curState := .seenltbangdash, tag := r.tag ++ [c] }, [])
  | .seenltbangdash =>
    if c ≠ chr '-' then r.intag c else ({ r with curState := .incomment }, [])
  | .incomment =>
    ({ r with
      curState :=
        if c = chr '-' then .incommentseendash else .incomment },
      [])
  | .incommentseendash =>
    ({ r with
      curState :=
        if c = chr '-' then .incommentseendashdash else .incomment },
      [])
  | .incommentseendashdash =>
    if c = chr '-' then
      (r, [])
    else if c ≠ chr '>' then
      ({ r with curState := .incomment }, [])
    else
      ({ r with curState := .intext }, [])

/- The text from some state on, with the tags that end in it. -/
def Reader.read : Reader → List Byte → Reader × List (List Byte)
  | r, [] => (r, [])
  | r, c :: text =>
    let more := (r.step c).1.read text
    (more.1, (r.step c).2 ++ more.2)

/- The reader in front of a text. -/
def newReader : Reader where
  curState := .intext
  tag := []

/- The tags of a text. -/
def readTags (text : List Byte) : List (List Byte) :=
  (newReader.read text).2

/-
  The attributes of a tag, the first of them its name.  The
  filter's own parser finds them, and `none` does not happen.
-/
def readAttrs (tag : List Byte) : List (List Byte × List Byte) :=
  match Filter.parsetagbuf { freshFilter with tagbuf := tag ++ [0] }
  with
  | none => []
  | some s =>
    (s.tagattr.take s.tagattrlen).map fun t => (s.slice t.tagname t.tagnamelen, s.valueText t)

theorem read_append (r : Reader) (front rest : List Byte) :
    r.read (front ++ rest) = (((r.read front).1.read rest).1,
        (r.read front).2 ++ ((r.read front).1.read rest).2) := by
  induction front generalizing r with
  | nil => rfl
  | cons c front ih =>
    rw [List.cons_append, Reader.read, Reader.read, ih]
    simp only [List.append_assoc]

/- What comes first in a tag. -/
def tagStart (c : Byte) : Bool :=
  c = chr '/' || isalpha c || c = chr '!'

/- The text of a tag: it does not start a comment. -/
structure TagText (tag : List Byte) : Prop where
  start : ∃ c rest, tag = c :: rest ∧ tagStart c = true
  last : chr '>' ∉ tag
  comment : ¬ bytes "!--" <+: tag

/- A tag is read up to its end. -/
theorem read_intag (tag text : List Byte) (hLast : chr '>' ∉ text) :
    Reader.read ⟨.intag, tag⟩ (text ++ [chr '>']) = (⟨.intext, tag ++ text⟩, [tag ++ text]) := by
  induction text generalizing tag with
  | nil => simp [Reader.read, Reader.step, Reader.intag]
  | cons c text ih =>
    rw [List.mem_cons, not_or] at hLast
    have hStep : Reader.step ⟨.intag, tag⟩ c = (⟨.intag, tag ++ [c]⟩, []) :=
      if_neg (Ne.symm hLast.1)
    rw [List.cons_append, Reader.read, hStep]
    simp only [ih (tag ++ [c]) hLast.2, List.append_assoc, List.singleton_append, List.nil_append]

theorem tagStart_cases {c : Byte} (hStart : tagStart c = true) :
    c ≠ chr '>' ∧ isspace c = false ∧ (c ≠ chr '!' → (c ≠ chr '/' && !isalpha c) = false) := by
  revert c
  apply byte_forall
  decide +kernel

/- A tag is read on when it is no comment. -/
theorem read_no_comment (tag text : List Byte) (state : HtmlState)
    (hState : ∀ c, c ≠ chr '-' →
      Reader.step ⟨state, tag⟩ c = Reader.intag ⟨state, tag⟩ c) (hLast : chr '>' ∉ text)
    (hComment : text.head? ≠ some (chr '-')) :
    ∃ r', r'.curState = .intext ∧ Reader.read ⟨state, tag⟩ (text ++ [chr '>']) =
        (r', [tag ++ text]) := by
  cases text with
  | nil =>
    refine ⟨⟨.intext, tag⟩, rfl, ?_⟩
    have hStep := hState (chr '>') (by decide)
    rw [List.nil_append, Reader.read, hStep, List.append_nil]
    rfl
  | cons c text =>
    rw [List.mem_cons, not_or] at hLast
    have hOther : c ≠ chr '-' := by
      intro hSame
      exact hComment (congrArg some hSame)
    have hStep : Reader.step ⟨state, tag⟩ c = (⟨.intag, tag ++ [c]⟩, []) := by
      rw [hState c hOther]
      exact if_neg (Ne.symm hLast.1)
    refine ⟨⟨.intext, tag ++ c :: text⟩, rfl, ?_⟩
    rw [List.cons_append, Reader.read, hStep]
    simp only [read_intag (tag ++ [c]) text hLast.2,
      List.append_assoc, List.singleton_append, List.nil_append]

variable {tag : List Byte}

/- A tag that is written down is read again. -/
theorem read_tag (hTag : TagText tag) (r : Reader) (hState : r.curState = .intext) :
    ∃ r', r'.curState = .intext ∧ r.read (chr '<' :: (tag ++ [chr '>'])) = (r', [tag]) := by
  rcases hTag.start with ⟨c, rest, hText, hStart⟩
  rcases tagStart_cases hStart with ⟨hEnd, hBlank, hLetter⟩
  have hLast := hTag.last
  rw [hText, List.mem_cons, not_or] at hLast
  have hOpen : r.step (chr '<') = (⟨.seenlt, []⟩, []) := by
    unfold Reader.step
    rw [hState]
    rfl
  rw [Reader.read, hOpen, hText]
  simp only [List.nil_append]
  by_cases hBang : c = chr '!'
  · have hFirst : Reader.step ⟨.seenlt, []⟩ c = (⟨.seenltbang, [c]⟩, []) := by
      rw [hBang]
      rfl
    rw [List.cons_append, Reader.read, hFirst]
    simp only [List.nil_append]
    by_cases hDash : rest.head? = some (chr '-')
    · rcases List.head?_eq_some_iff.mp hDash with ⟨more, hMore⟩
      rw [hMore, List.mem_cons, not_or] at hLast
      have hNext : more.head? ≠ some (chr '-') := by
        intro hHead
        rcases List.head?_eq_some_iff.mp hHead with ⟨last, hDashes⟩
        apply hTag.comment
        rw [hText, hBang, hMore, hDashes]
        exact ⟨last, rfl⟩
      have hSecond : Reader.step ⟨.seenltbang, [c]⟩ (chr '-') =
          (⟨.seenltbangdash, [c] ++ [chr '-']⟩, []) := rfl
      rcases read_no_comment ([c] ++ [chr '-']) more .seenltbangdash
        (fun d hOther => if_pos hOther) hLast.2.2 hNext with
          ⟨r', hOut, hRead⟩
      refine ⟨r', hOut, ?_⟩
      rw [hMore, List.cons_append, Reader.read, hSecond, hRead]
      rfl
    · rcases read_no_comment [c] rest .seenltbang (fun d hOther => if_pos hOther) hLast.2 hDash with
          ⟨r', hOut, hRead⟩
      refine ⟨r', hOut, ?_⟩
      rw [hRead]
      rfl
  · have hFirst : Reader.step ⟨.seenlt, []⟩ c = (⟨.intag, [c]⟩, []) := by
      unfold Reader.step
      simp only [if_neg hEnd, hBlank, Bool.false_eq_true, if_false,
        if_neg hBang, hLetter hBang, List.nil_append]
    refine ⟨⟨.intext, [c] ++ rest⟩, rfl, ?_⟩
    rw [List.cons_append, Reader.read, hFirst]
    simp only [read_intag [c] rest hLast.2]
    rfl

/- Text without `<` has no tag. -/
theorem read_plain {text : List Byte} (hOpen : chr '<' ∉ text) (r : Reader)
    (hState : r.curState = .intext) : r.read text = (r, []) := by
  induction text with
  | nil => rfl
  | cons c text ih =>
    rw [List.mem_cons, not_or] at hOpen
    have hStep : r.step c = (r, []) := by
      unfold Reader.step
      rw [hState]
      exact if_neg (Ne.symm hOpen.1)
    rw [Reader.read, hStep]
    simp only [ih hOpen.2, List.nil_append]

/- A tag that cannot become a comment. -/
def Settled (tag : List Byte) : Prop :=
  TagText tag ∧ tag ≠ [chr '!'] ∧ tag ≠ [chr '!', chr '-']

/- What has been read of a tag, in each state. -/
def Reader.Sound (r : Reader) : Prop :=
  match r.curState with
  | .seenlt => r.tag = []
  | .seenltbang => r.tag = [chr '!']
  | .seenltbangdash => r.tag = [chr '!', chr '-']
  | .intag => Settled r.tag
  | .intext | .incomment | .incommentseendash | .incommentseendashdash => True

theorem tagText_bang : TagText [chr '!'] :=
  ⟨⟨chr '!', [], rfl, by decide⟩, by decide, by decide⟩

theorem tagText_dash : TagText [chr '!', chr '-'] :=
  ⟨⟨chr '!', [chr '-'], rfl, by decide⟩, by decide, by decide⟩

/- A tag is longer by a character. -/
theorem TagText.concat {c : Byte} (hTag : TagText tag) (hLast : c ≠ chr '>')
    (hComment : tag ++ [c] ≠ bytes "!--") : TagText (tag ++ [c]) := by
  rcases hTag.start with ⟨b, rest, hText, hStart⟩
  refine ⟨⟨b, rest ++ [c], ?_, hStart⟩, ?_, ?_⟩
  · rw [hText, List.cons_append]
  · rw [List.mem_append, List.mem_singleton, not_or]
    exact ⟨hTag.last, Ne.symm hLast⟩
  · rw [List.prefix_concat_iff, not_or]
    exact ⟨Ne.symm hComment, hTag.comment⟩

theorem concat_eq_cons {b c : Byte} (more : List Byte)
    (hSame : tag ++ [c] = b :: (more ++ [chr '-'])) : tag = b :: more := by
  rw [← List.cons_append] at hSame
  exact (List.append_inj' hSame rfl).1

theorem Settled.concat {c : Byte} (hSettled : Settled tag) (hLast : c ≠ chr '>') :
    Settled (tag ++ [c]) := by
  rcases hSettled with ⟨hTag, hBang, hDash⟩
  rcases hTag.start with ⟨b, rest, hText, hStart⟩
  refine ⟨hTag.concat hLast ?_, ?_, ?_⟩
  · intro hSame
    exact hDash (concat_eq_cons [chr '-'] hSame)
  · intro hSame
    rw [hText, List.cons_append, List.cons.injEq] at hSame
    simp at hSame
  · intro hSame
    exact hBang (concat_eq_cons [] hSame)

/- A character of a tag that is no comment. -/
theorem sound_intag {r : Reader} {c : Byte} (hTag : TagText r.tag)
    (hMore : c ≠ chr '>' → Settled (r.tag ++ [c])) :
    (r.intag c).1.Sound ∧ ∀ tag, tag ∈ (r.intag c).2 → TagText tag := by
  unfold Reader.intag
  split
  · refine ⟨trivial, ?_⟩
    intro tag hMem
    rw [List.mem_singleton.mp hMem]
    exact hTag
  · rename_i hLast
    refine ⟨hMore hLast, ?_⟩
    intro tag hMem
    cases hMem

/- One character keeps the reader sound, and ends a sound tag. -/
theorem Reader.Sound.step {r : Reader} (hSound : r.Sound) (c : Byte) :
    (r.step c).1.Sound ∧ ∀ tag, tag ∈ (r.step c).2 → TagText tag := by
  have hNone : ∀ tag, tag ∈ ([] : List (List Byte)) → TagText tag := by
    intro tag hMem
    cases hMem
  rcases r with ⟨curState, tag⟩
  unfold Reader.step
  cases curState with
  | intext =>
    simp only []
    split
    · exact ⟨rfl, hNone⟩
    · exact ⟨trivial, hNone⟩
  | seenlt =>
    have hTag : tag = [] := hSound
    simp only []
    split
    · exact ⟨trivial, hNone⟩
    rename_i hEnd
    split
    · exact ⟨hTag, hNone⟩
    split
    · rename_i hBang
      refine ⟨?_, hNone⟩
      unfold Reader.Sound
      rw [hTag, hBang]
      rfl
    rename_i hBang
    split
    · exact ⟨trivial, hNone⟩
    · rename_i hLetter
      refine ⟨?_, hNone⟩
      have hStart : tagStart c = true := by
        unfold tagStart
        simp only [Bool.and_eq_true, decide_eq_true_eq, Bool.not_eq_true', not_and,
          Bool.not_eq_false, Bool.or_eq_true] at hLetter ⊢
        by_cases hSlash : c = chr '/'
        · exact Or.inl (Or.inl hSlash)
        · exact Or.inl (Or.inr (hLetter hSlash))
      rw [hTag]
      refine ⟨⟨⟨c, [], rfl, hStart⟩, ?_, ?_⟩, ?_, ?_⟩
      · rw [List.nil_append, List.mem_singleton]
        exact Ne.symm hEnd
      · intro hFront
        have hLength := hFront.length_le
        simp [bytes] at hLength
      · intro hSame
        rw [List.nil_append, List.cons.injEq] at hSame
        exact hBang hSame.1
      · intro hSame
        simp at hSame
  | intag =>
    have hSettled : Settled tag := hSound
    exact sound_intag hSettled.1 hSettled.concat
  | seenltbang =>
    have hTag : tag = [chr '!'] := hSound
    simp only []
    split
    · rename_i hDash
      apply sound_intag
      · rw [hTag]
        exact tagText_bang
      · intro hLast
        rw [hTag]
        refine ⟨tagText_bang.concat hLast ?_, ?_, ?_⟩
        · intro hSame
          cases hSame
        · intro hSame
          simp at hSame
        · intro hSame
          simp at hSame
          exact hDash hSame
    · rename_i hDash
      refine ⟨?_, hNone⟩
      unfold Reader.Sound
      rw [hTag, Decidable.not_not.mp hDash]
      rfl
  | seenltbangdash =>
    have hTag : tag = [chr '!', chr '-'] := hSound
    simp only []
    split
    · rename_i hDash
      apply sound_intag
      · rw [hTag]
        exact tagText_dash
      · intro hLast
        rw [hTag]
        refine ⟨tagText_dash.concat hLast ?_, ?_, ?_⟩
        · intro hSame
          simp [bytes] at hSame
          exact hDash hSame
        · intro hSame
          simp at hSame
        · intro hSame
          simp at hSame
    · exact ⟨trivial, hNone⟩
  | incomment =>
    simp only []
    split
    · exact ⟨trivial, hNone⟩
    · exact ⟨trivial, hNone⟩
  | incommentseendash =>
    simp only []
    split
    · exact ⟨trivial, hNone⟩
    · exact ⟨trivial, hNone⟩
  | incommentseendashdash =>
    simp only []
    split
    · exact ⟨trivial, hNone⟩
    split
    · exact ⟨trivial, hNone⟩
    · exact ⟨trivial, hNone⟩

end Wmail.Sqwebmail
