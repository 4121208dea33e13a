import Wmail.Sqwebmail.HtmlTags

/-
  What becomes of the attributes of a tag.

  The last loop of the filter decides about one attribute
  after another.  When it writes a link the attributes are
  parsed again, and the blanked ones are gone: the loop goes
  on with its old index, past as many attributes as were
  blanked before.

  Key theorems include:
    * `Washing.step`
    * `Washing.run`
-/

namespace Wmail.Sqwebmail

/- An event handler. -/
def Attr.isOn (a : Attr) : Bool :=
  2 < a.name.length && (a.name.take 2).map tolower = bytes "on"

/- The attributes that are removed in a tag of some kind. -/
def Attr.isRemoved (blockquote : Bool) (a : Attr) : Bool :=
  a.isNamed (bytes "target") || a.isNamed (bytes "code") ||
    a.isNamed (bytes "language") || a.isNamed (bytes "action") ||
    (a.isNamed (bytes "type") && !blockquote) ||
    a.isNamed (bytes "codetype")

/- The attributes that have a link. -/
def Attr.isLink (a : Attr) : Bool :=
  a.isNamed (bytes "href") || a.isNamed (bytes "src") || a.isNamed (bytes "lowsrc")

/- The link, joined with the base. -/
def Attr.link (cfg : Config) (a : Attr) : List Byte :=
  (Rfc2045.appendUrl cfg.contentbase a.value.text).takeWhile
    linkByte

/- What is written for a link to another site. -/
def hrefText (cfg : Config) (q : List Byte) : Option (List Byte) :=
  match cfg.washlink with
  | some washlink => (redirectencode q).map (washlink ++ ·)
  | none => some q

/- What is written for a part of the message. -/
def cidText (cfg : Config) (q : List Byte) : List Byte :=
  match cfg.convertcid with
  | none => []
  | some convert => convert (q.drop 4)

/-
  What becomes of an attribute, and whether its tag, if it is
  `A`, opens a window.
-/
inductive Fate where
  | stays (window : Bool)
  | blanked
  | written (p : List Byte) (window : Bool)
  | undefined

/- The links that stay as they are. -/
def isOther (q : List Byte) : Bool :=
  isValuestart q (bytes "ftp:") || isValuestart q (bytes "gopher:") ||
    isValuestart q (bytes "wais:") || isValuestart q (bytes "telnet:")

/- The links to another site. -/
def isHttp (q : List Byte) : Bool :=
  isValuestart q (bytes "http:") || isValuestart q (bytes "https:")

/- What becomes of a link. -/
def Attr.linkFate (cfg : Config) (a : Attr) : Fate :=
  let q := a.link cfg
  if !q.contains (chr ':') then
    .blanked
  else if isValuestart q (bytes "cid:") then
    .written (cidText cfg q) false
  else if isHttp q && a.isNamed (bytes "href") then
    match hrefText cfg q with
    | none => .undefined
    | some p => .written p true
  else if isValuestart q (bytes "mailto:") then
    match cfg.washlinkmailto with
    | none => .undefined
    | some front => .written (front ++ questionToAmp ((q.dropWhile (· ≠ chr ':')).drop 1)) false
  else if isOther q then
    .stays true
  else
    .blanked

/- What becomes of an attribute that is no event handler. -/
def Attr.fate (cfg : Config) (blockquote : Bool) (a : Attr) : Fate :=
  if a.isRemoved blockquote then
    .blanked
  else if a.isLink then
    a.linkFate cfg
  else
    .stays false

------------
-- One Turn
------------

/- The tag in the buffer, with its name in front. -/
def Filter.HoldsTag (s : Filter) (first : Item) (items : List Item) (final : List Byte) : Prop :=
  s.Holds (first :: items) final ∧ first.kept = true

theorem Filter.HoldsTag.isHtmltag {s : Filter} {first : Item} {items : List Item}
    {final : List Byte} (hHolds : s.HoldsTag first items final) (l : List Byte) :
    s.isHtmltag l = first.attr.isNamed l := by
  rcases hHolds with ⟨hTag, hKept⟩
  have hFront : s.Holds ([] ++ first :: items) final := hTag
  have hAttr := hFront.attr
  have hName := hFront.isAttr hKept s.tagbufsize l
  have hCount : decide (0 < s.tagattrlen) = true := by
    rw [hTag.count]
    exact decide_eq_true (Nat.succ_pos _)
  rw [List.length_nil, ← List.head?_eq_getElem?] at hAttr
  unfold Filter.isHtmltag
  rw [hCount, hAttr, Bool.true_and]
  exact hName

variable {cfg : Config} {s : Filter} {first i : Item} {done rest : List Item} {final : List Byte}

/- The attributes in front of the one at hand. -/
theorem Filter.HoldsTag.at_item (hHolds : s.HoldsTag first (done ++ i :: rest) final) :
    s.Holds ((first :: done) ++ i :: rest) final :=
  hHolds.1

/- The record of the attribute at hand. -/
def recordOf (s : Filter) (first : Item) (done : List Item) (i : Item) : TagAttr :=
  i.attr.record (startOf (first :: done) i) s.tagbufsize

theorem Filter.HoldsTag.linkOf (hHolds : s.HoldsTag first (done ++ i :: rest) final)
    (hKept : i.kept = true) : s.linkOf cfg (recordOf s first done i) = i.attr.link cfg := by
  unfold Filter.linkOf Attr.link recordOf
  rw [hHolds.at_item.valueText hKept]

theorem Filter.HoldsTag.isRemoved (hHolds : s.HoldsTag first (done ++ i :: rest) final)
    (hKept : i.kept = true) :
    s.isRemoved (recordOf s first done i) =
      i.attr.isRemoved (first.attr.isNamed (bytes "BLOCKQUOTE")) := by
  unfold Filter.isRemoved Attr.isRemoved recordOf
  rw [hHolds.isHtmltag]
  simp only [hHolds.at_item.isAttr hKept]

theorem Filter.HoldsTag.isLink (hHolds : s.HoldsTag first (done ++ i :: rest) final)
    (hKept : i.kept = true) : s.isLink (recordOf s first done i) = i.attr.isLink := by
  unfold Filter.isLink Attr.isLink recordOf
  simp only [hHolds.at_item.isAttr hKept]

theorem Filter.HoldsTag.blank (hHolds : s.HoldsTag first (done ++ i :: rest) final)
    (hKept : i.kept = true) :
    (s.blank (recordOf s first done i)).HoldsTag first (done ++ i.blanked :: rest) final :=
  ⟨hHolds.at_item.blank hKept, hHolds.2⟩

/- A blanked attribute is left alone. -/
theorem Filter.HoldsTag.isLink_blanked (hHolds : s.HoldsTag first (done ++ i :: rest) final)
    (hBlanked : i.kept = false) (bufsize : Nat) :
    s.isLink (i.attr.record (startOf (first :: done) i) bufsize) = false := by
  unfold Filter.isLink
  rw [hHolds.at_item.isAttr_blanked hBlanked _ (by decide),
    hHolds.at_item.isAttr_blanked hBlanked _ (by decide),
    hHolds.at_item.isAttr_blanked hBlanked _ (by decide)]
  rfl

theorem Filter.HoldsTag.isRemoved_blanked
    (hHolds : s.HoldsTag first (done ++ i :: rest) final) (hBlanked : i.kept = false)
    (bufsize : Nat) :
    s.isRemoved (i.attr.record (startOf (first :: done) i) bufsize) = false := by
  unfold Filter.isRemoved
  rw [hHolds.at_item.isAttr_blanked hBlanked _ (by decide),
    hHolds.at_item.isAttr_blanked hBlanked _ (by decide),
    hHolds.at_item.isAttr_blanked hBlanked _ (by decide),
    hHolds.at_item.isAttr_blanked hBlanked _ (by decide),
    hHolds.at_item.isAttr_blanked hBlanked _ (by decide),
    hHolds.at_item.isAttr_blanked hBlanked _ (by decide)]
  rfl

theorem washAttr_gone (hHolds : s.HoldsTag first (done ++ i :: rest) final)
    (hBlanked : i.kept = false) (l : Nat) (window : Bool) :
    s.washAttr cfg l (recordOf s first done i) window = some (s, window) := by
  unfold Filter.washAttr recordOf
  rw [hHolds.isRemoved_blanked hBlanked]
  simp only [Bool.false_eq_true, if_false, hHolds.isLink_blanked hBlanked]

/- What a fate does to the tag in the buffer. -/
def Filter.meet (s : Filter) (l : Nat) (t : TagAttr) (window : Bool) : Fate → Option (Filter × Bool)
  | .stays opens => some (s, window || (opens && s.isHtmltag (bytes "A")))
  | .blanked => some (s.blank t, window)
  | .written p opens =>
    (s.replacelink l p).map fun s' => (s', window || (opens && s'.isHtmltag (bytes "A")))
  | .undefined => none

theorem hrefText_replacelink (cfg : Config) (s : Filter) (l : Nat) (q : List Byte) :
    (match cfg.washlink with
      | some washlink => s.dowashlink washlink l q
      | none => s.replacelink l q) =
      (hrefText cfg q).bind (s.replacelink l) := by
  unfold hrefText Filter.dowashlink
  cases cfg.washlink with
  | none => rfl
  | some washlink =>
    cases redirectencode q with
    | none => rfl
    | some url => rfl

theorem cidText_replacelink (s : Filter) (l : Nat) (q : List Byte) :
    s.dowashcid cfg.convertcid l q = s.replacelink l (cidText cfg q) := by
  unfold Filter.dowashcid cidText
  cases cfg.convertcid with
  | none => rfl
  | some convert => rfl

/- A link meets its fate. -/
theorem washLink_eq (hHolds : s.HoldsTag first (done ++ i :: rest) final)
    (hKept : i.kept = true) (l : Nat) (window : Bool) :
    s.washLink cfg l (recordOf s first done i) window =
      s.meet l (recordOf s first done i) window (i.attr.linkFate cfg) := by
  have hHref := hHolds.at_item.isAttr hKept s.tagbufsize (bytes "href")
  have hLink : s.linkOf cfg (recordOf s first done i) = i.attr.link cfg := hHolds.linkOf hKept
  unfold Filter.washLink Attr.linkFate
  rw [hLink]
  generalize i.attr.link cfg = q
  have hName : s.isAttr (recordOf s first done i) (bytes "href") =
      i.attr.isNamed (bytes "href") := hHref
  simp only [hName, cidText_replacelink]
  have hHttp : (isValuestart q (bytes "http:") || isValuestart q (bytes "https:")) = isHttp q := rfl
  have hOther : (isValuestart q (bytes "ftp:") ||
      isValuestart q (bytes "gopher:") || isValuestart q (bytes "wais:") ||
          isValuestart q (bytes "telnet:")) = isOther q := rfl
  rw [hHttp, hOther]
  by_cases hColon : (!q.contains (chr ':')) = true
  · rw [if_pos hColon, if_pos hColon]
    rfl
  rw [if_neg hColon, if_neg hColon]
  by_cases hCid : isValuestart q (bytes "cid:") = true
  · rw [if_pos hCid, if_pos hCid]
    unfold Filter.meet
    simp only [Bool.false_and, Bool.or_false]
  rw [if_neg hCid, if_neg hCid]
  by_cases hSite : (isHttp q && i.attr.isNamed (bytes "href")) = true
  · rw [if_pos hSite, if_pos hSite]
    refine (congrArg (Option.map _) (hrefText_replacelink cfg s l q)).trans ?_
    cases hrefText cfg q with
    | none => rfl
    | some p =>
      unfold Filter.meet
      simp only [Bool.true_and, Option.bind_some]
  rw [if_neg hSite, if_neg hSite]
  by_cases hMailto : isValuestart q (bytes "mailto:") = true
  · rw [if_pos hMailto, if_pos hMailto]
    unfold Filter.dowashlinkmailto
    cases cfg.washlinkmailto with
    | none => rfl
    | some front =>
      unfold Filter.meet
      simp only [Bool.false_and, Bool.or_false, Option.bind_some]
  rw [if_neg hMailto, if_neg hMailto]
  split
  · unfold Filter.meet
    simp only [Bool.true_and]
  · rfl

/- An attribute meets its fate. -/
theorem washAttr_eq (cfg : Config) (hHolds : s.HoldsTag first (done ++ i :: rest) final)
    (hKept : i.kept = true) (l : Nat) (window : Bool) :
    s.washAttr cfg l (recordOf s first done i) window =
      s.meet l (recordOf s first done i) window (i.attr.fate cfg
          (first.attr.isNamed (bytes "BLOCKQUOTE"))) := by
  unfold Filter.washAttr Attr.fate
  rw [hHolds.isRemoved hKept]
  by_cases hRemoved : i.attr.isRemoved (first.attr.isNamed (bytes "BLOCKQUOTE")) = true
  · have hNoLink := (hHolds.blank hKept).isLink_blanked rfl s.tagbufsize
    simp only [if_pos hRemoved]
    exact if_neg (by
      rw [Bool.not_eq_true]
      exact hNoLink)
  · simp only [if_neg hRemoved]
    rw [hHolds.isLink hKept]
    split
    · exact washLink_eq hHolds hKept l window
    · unfold Filter.meet
      simp only [Bool.false_and, Bool.or_false]

------------
-- The Loop
------------

/-
  What is asked of an attribute that stays as it is and has a
  link, of one that a link is written into while a window is
  to be opened or not, and of the `SRC` of an image.
-/
structure LinkRule where
  stays : Attr → Prop
  takes : Bool → Attr → Prop
  image : Attr → Prop

/- The attributes without the event handlers. -/
def quietAttrs (attrs : List Attr) : List Attr :=
  attrs.filter fun a => !a.isOn

theorem length_quietAttrs (attrs : List Attr) : (quietAttrs attrs).length ≤ attrs.length :=
  List.length_filter_le _ attrs

/-
  The links of the attributes that are left can be written.
  `gone` attributes were blanked since the tag was parsed, so
  that as many are passed over when it is parsed again, and
  `len` is the length of the tag.
-/
def LinksFit (cfg : Config) (rule : LinkRule) (name : Attr) (window : Bool) (gone len : Nat)
    (attrs : List Attr) : Prop :=
  match attrs with
  | [] => True
  | a :: rest =>
    if a.isOn then
      LinksFit cfg rule name window (gone + 1) len rest
    else
      match a.fate cfg (name.isNamed (bytes "BLOCKQUOTE")) with
      | .stays opens =>
        (a.isLink = true → rule.stays a) ∧
          LinksFit cfg rule name (window || (opens && name.isNamed (bytes "A"))) gone len rest
      | .blanked => LinksFit cfg rule name window (gone + 1) len rest
      | .written p opens =>
        let written := len - a.value.text.length + p.length
        let later := quietAttrs rest
        a.value.Takes p ∧ Clean p ∧ written < tagLimit ∧ rule.takes window a ∧
          (∀ b, b ∈ later.take gone → b.isLink = true → rule.stays b) ∧
          LinksFit cfg rule name (window || (opens && name.isNamed (bytes "A")))
            0 written (later.drop gone)
      | .undefined => False
termination_by attrs.length
decreasing_by
  all_goals
    have hFilter := length_quietAttrs rest
    simp only [List.length_drop, List.length_cons]
    omega

/- A value that is not an open quote. -/
def AttrValue.Closed (v : AttrValue) : Prop :=
  ∀ q text, v ≠ .quoted q text false

/- An attribute with another one behind it is closed. -/
theorem Laid.closed (front : List Item) (hLaid : Laid (front ++ i :: rest) final) :
    ∀ j, j ∈ front → j.attr.value.Closed := by
  induction front with
  | nil =>
    intro j hMem
    cases hMem
  | cons k front ih =>
    rcases hLaid with ⟨_, _, hJoined, hRest⟩
    intro j hMem
    rcases List.mem_cons.mp hMem with hSame | hLater
    · intro q text hValue
      rw [← hSame] at hJoined
      unfold Attr.Joined at hJoined
      rw [hValue] at hJoined
      have hNil := hJoined.1
      simp at hNil
    · exact ih hRest j hLater

theorem keptAttrs_append (front rest : List Item) :
    keptAttrs (front ++ rest) = keptAttrs front ++ keptAttrs rest := by
  unfold keptAttrs
  rw [List.filter_append, List.map_append]

theorem keptAttrs_single_kept (hKept : i.kept = true) : keptAttrs [i] = [i.attr] := by
  unfold keptAttrs
  rw [List.filter_cons_of_pos hKept]
  rfl

theorem keptAttrs_single_blanked (hBlanked : i.kept = false) : keptAttrs [i] = [] := by
  have hKept : ¬ i.kept = true := Bool.eq_false_iff.mp hBlanked
  unfold keptAttrs
  rw [List.filter_cons_of_neg hKept]
  rfl

theorem keptAttrs_of_kept {items : List Item} (hKept : ∀ i, i ∈ items → i.kept = true) :
    keptAttrs items = items.map Item.attr := by
  unfold keptAttrs
  rw [List.filter_eq_self.mpr hKept]

/- How many attributes have been blanked. -/
def goneOf (items : List Item) : Nat :=
  (items.filter fun i => !i.kept).length

theorem length_keptAttrs (items : List Item) :
    (keptAttrs items).length + goneOf items = items.length := by
  unfold keptAttrs goneOf
  rw [List.length_map]
  exact (List.length_eq_length_filter_add Item.kept).symm

variable {rule : LinkRule} {Fine : Bool → Attr → Prop}

/-
  The loop at an attribute: `done` is behind it, and nothing
  but the event handlers is blanked of what is left.
-/
structure Washing (cfg : Config) (rule : LinkRule) (Fine : Bool → Attr → Prop)
    (first : Item) (s : Filter) (l : Nat) (window : Bool) (done rest : List Item)
    (final : List Byte) :
    Prop where
  holds : s.HoldsTag first (done ++ rest) final
  fresh : ∀ i, i ∈ rest → i.kept = !i.attr.isOn
  fine : ∀ a, a ∈ keptAttrs done → Fine window a
  index : l = done.length + 1 ∨ (rest = [] ∧ done.length + 1 ≤ l)
  fit : LinksFit cfg rule first.attr window (goneOf done)
    (layout (first :: (done ++ rest)) final).length
    (rest.map Item.attr)

/- What is fine about an attribute, for the rule at hand. -/
structure RuleFine (cfg : Config) (rule : LinkRule) (Fine : Bool → Attr → Prop) (name : Attr) :
    Prop where
  stays : ∀ a window, a.isOn = false → (a.isLink = true → rule.stays a) → Fine window a
  takes : ∀ a window p opens, a.isOn = false → a.fate cfg (name.isNamed (bytes "BLOCKQUOTE")) =
      .written p opens → rule.takes window a →
        Fine (window || (opens && name.isNamed (bytes "A"))) (a.write p)
  closed : ∀ a window opens, a.value.Closed → Fine window a → Fine opens a

variable {l : Nat} {window : Bool}

/- The attributes that are done stay fine. -/
theorem Washing.done_fine (hRule : RuleFine cfg rule Fine first.attr) (hWashing :
      Washing cfg rule Fine first s l window done (i :: rest) final) (opens : Bool) :
    ∀ a, a ∈ keptAttrs done → Fine opens a := by
  intro a hMem
  have hFine := hWashing.fine a hMem
  rcases List.mem_map.mp hMem with ⟨j, hKept, hAttr⟩
  have hClosed := Laid.closed (first :: done) hWashing.holds.1.laid j
    (List.mem_cons_of_mem first (List.mem_of_mem_filter hKept))
  rw [hAttr] at hClosed
  exact hRule.closed a window opens hClosed hFine

/- The index of an attribute that is left. -/
theorem Washing.at_index (hWashing :
      Washing cfg rule Fine first s l window done (i :: rest) final) :
    l = done.length + 1 := by
  rcases hWashing.index with hIndex | ⟨hNil, _⟩
  · exact hIndex
  · cases hNil

/- What the rest of the loop is to hold after a turn. -/
def Turned (cfg : Config) (rule : LinkRule) (Fine : Bool → Attr → Prop) (first : Item)
    (s : Filter) (l n : Nat) (found : Option (Filter × Bool)) : Prop :=
  ∃ s' window done rest final, found = some (s', window) ∧
      Washing cfg rule Fine first s' (l + 1) window done rest final ∧
      rest.length ≤ n ∧ s.SameMode s'

/- The loop is behind an attribute, which has become `j`. -/
theorem Washing.turn {j : Item} {s' : Filter} {opens : Bool} {found : Option (Filter × Bool)}
    (hWashing : Washing cfg rule Fine first s l window done (i :: rest) final)
    (hFound : found = some (s', opens)) (hHolds : s'.HoldsTag first (done ++ j :: rest) final)
    (hFine : ∀ a, a ∈ keptAttrs (done ++ [j]) → Fine opens a)
    (hFit : LinksFit cfg rule first.attr opens (goneOf (done ++ [j]))
      (layout (first :: (done ++ j :: rest)) final).length (rest.map Item.attr))
    (hMode : s.SameMode s') : Turned cfg rule Fine first s l rest.length found := by
  rw [List.append_cons done j rest] at hHolds hFit
  refine ⟨s', opens, done ++ [j], rest, final, hFound, ⟨hHolds, fun k hMem => ?_, hFine, ?_, hFit⟩,
    Nat.le_refl _, hMode⟩
  · exact hWashing.fresh k (List.mem_cons_of_mem i hMem)
  · left
    rw [hWashing.at_index, List.length_append, List.length_singleton]

/- An event handler is passed over. -/
theorem Washing.step_gone (hWashing : Washing cfg rule Fine first s l window done (i :: rest) final)
    (hOn : i.attr.isOn = true) :
    Turned cfg rule Fine first s l rest.length
      (s.washAttr cfg l (recordOf s first done i) window) := by
  have hBlanked : i.kept = false := by
    rw [hWashing.fresh i List.mem_cons_self, hOn]
    rfl
  have hFit := hWashing.fit
  rw [List.map_cons, LinksFit, if_pos hOn] at hFit
  have hGone : goneOf (done ++ [i]) = goneOf done + 1 := by simp [goneOf, hBlanked]
  refine hWashing.turn (washAttr_gone hWashing.holds hBlanked l window) hWashing.holds ?_
    (hGone ▸ hFit) ⟨rfl, rfl⟩
  rw [keptAttrs_append, keptAttrs_single_blanked hBlanked, List.append_nil]
  exact hWashing.fine

/- An attribute that is not a handler is there. -/
theorem Washing.kept (hWashing : Washing cfg rule Fine first s l window done (i :: rest) final)
    (hOn : i.attr.isOn = false) : i.kept = true := by
  rw [hWashing.fresh i List.mem_cons_self, hOn]
  rfl

/- An attribute stays as it is. -/
theorem Washing.step_stays (hRule : RuleFine cfg rule Fine first.attr)
    (hWashing : Washing cfg rule Fine first s l window done (i :: rest) final)
    (hOn : i.attr.isOn = false) {opens : Bool}
    (hFate : i.attr.fate cfg (first.attr.isNamed (bytes "BLOCKQUOTE")) = .stays opens) :
    Turned cfg rule Fine first s l rest.length
      (s.washAttr cfg l (recordOf s first done i) window) := by
  have hKept := hWashing.kept hOn
  have hNotOn : ¬ i.attr.isOn = true := Bool.eq_false_iff.mp hOn
  have hFit := hWashing.fit
  rw [List.map_cons, LinksFit, if_neg hNotOn, hFate] at hFit
  rcases hFit with ⟨hStays, hRest⟩
  have hTurn := washAttr_eq cfg hWashing.holds hKept l window
  rw [hFate] at hTurn
  unfold Filter.meet at hTurn
  simp only [hWashing.holds.isHtmltag] at hTurn
  have hGone : goneOf (done ++ [i]) = goneOf done := by simp [goneOf, hKept]
  refine hWashing.turn hTurn hWashing.holds ?_ (hGone ▸ hRest) ⟨rfl, rfl⟩
  rw [keptAttrs_append, keptAttrs_single_kept hKept]
  intro a hMem
  rcases List.mem_append.mp hMem with hDone | hHere
  · exact hWashing.done_fine hRule _ a hDone
  · rw [List.mem_singleton.mp hHere]
    exact hRule.stays i.attr _ hOn hStays

theorem length_layout_congr {j : Item} (front rest : List Item) (final : List Byte)
    (hGap : j.gap = i.gap) (hLength : j.attr.render.length = i.attr.render.length) :
    (layout (front ++ j :: rest) final).length = (layout (front ++ i :: rest) final).length := by
  rw [layout_append, layout_append, layout, layout]
  simp only [List.length_append, length_render, hGap, hLength]

/- An attribute is blanked. -/
theorem Washing.step_blanked (hRule : RuleFine cfg rule Fine first.attr)
    (hWashing : Washing cfg rule Fine first s l window done (i :: rest) final)
    (hOn : i.attr.isOn = false)
    (hFate : i.attr.fate cfg (first.attr.isNamed (bytes "BLOCKQUOTE")) = .blanked) :
    Turned cfg rule Fine first s l rest.length
      (s.washAttr cfg l (recordOf s first done i) window) := by
  have hKept := hWashing.kept hOn
  have hNotOn : ¬ i.attr.isOn = true := Bool.eq_false_iff.mp hOn
  have hFit := hWashing.fit
  rw [List.map_cons, LinksFit, if_neg hNotOn, hFate] at hFit
  have hTurn := washAttr_eq cfg hWashing.holds hKept l window
  rw [hFate] at hTurn
  have hGone : goneOf (done ++ [i.blanked]) = goneOf done + 1 := by simp [goneOf, Item.blanked]
  have hLength := length_layout_congr (j := i.blanked) (i := i) (first :: done) rest final rfl rfl
  rw [List.cons_append, List.cons_append] at hLength
  refine hWashing.turn hTurn (hWashing.holds.blank hKept) ?_ ?_ ⟨rfl, rfl⟩
  · rw [keptAttrs_append, keptAttrs_single_blanked rfl, List.append_nil]
    exact hWashing.done_fine hRule window
  · rw [hGone, hLength]
    exact hFit

/- The length of the tag with a new value in it. -/
theorem length_layout_write {p : List Byte} (hTakes : i.attr.value.Takes p)
    (front rest : List Item) (final : List Byte) :
    (layout (front ++ i.write p :: rest) final).length =
      writtenLength (front ++ i :: rest) final i p := by
  rcases AttrValue.cut_render hTakes with ⟨n, before, after, _, _, hOld, hNew⟩
  have hOldLength : i.attr.render.length = i.attr.name.length +
      (before.length + (i.attr.value.text.length + after.length)) := by
    rw [Attr.render, hOld]
    simp only [List.length_append]
  have hNewLength : (i.write p).attr.render.length = i.attr.name.length +
        (before.length + (p.length + after.length)) := by
    have hRender : (i.write p).attr.render = i.attr.name ++ (i.attr.value.write p).render := rfl
    rw [hRender, hNew]
    simp only [List.length_append]
  have hGap : (i.write p).gap = i.gap := rfl
  unfold writtenLength
  rw [layout_append, layout_append, layout, layout]
  simp only [List.length_append, length_render, hOldLength, hNewLength, hGap]
  omega

/- The attributes that are left are kept without the handlers. -/
theorem keptAttrs_fresh (hFresh : ∀ i, i ∈ rest → i.kept = !i.attr.isOn) :
    keptAttrs rest = quietAttrs (rest.map Item.attr) := by
  have hFilter : rest.filter Item.kept = rest.filter ((fun a => !a.isOn) ∘ Item.attr) := by
    apply List.filter_congr
    intro i hMem
    exact hFresh i hMem
  unfold keptAttrs quietAttrs
  rw [List.filter_map, hFilter]

theorem quiet_of_mem (attrs : List Attr) {a : Attr} (hMem : a ∈ quietAttrs attrs) :
    a.isOn = false := by
  have hQuiet := (List.mem_filter.mp hMem).2
  simpa using hQuiet

/- The attributes of a tag that is parsed again. -/
theorem compact_tag (hFirst : first.kept = true) (hKept : i.kept = true)
    (done rest : List Item) (final : List Byte) :
    ∃ gap final', compact [] (first :: (done ++ i :: rest)) final =
        (first :: ((compact [] done []).1 ++
          ⟨gap, i.attr, true⟩ :: (compact [] rest final).1),
          final') := by
  have hSame : (⟨[] ++ first.gap, first.attr, true⟩ : Item) = first := by
    rw [← hFirst]
    rfl
  refine ⟨(compact [] done []).2 ++ i.gap, (compact [] rest final).2, ?_⟩
  rw [compact, if_pos hFirst, compact_append [] done rest final hKept, hSame]

/- A link is written. -/
theorem Washing.step_written (hRule : RuleFine cfg rule Fine first.attr)
    (hWashing : Washing cfg rule Fine first s l window done (i :: rest) final)
    (hOn : i.attr.isOn = false) {p : List Byte} {opens : Bool}
    (hFate : i.attr.fate cfg (first.attr.isNamed (bytes "BLOCKQUOTE")) = .written p opens) :
    Turned cfg rule Fine first s l rest.length
      (s.washAttr cfg l (recordOf s first done i) window) := by
  have hKept := hWashing.kept hOn
  have hNotOn : ¬ i.attr.isOn = true := Bool.eq_false_iff.mp hOn
  have hFirst := hWashing.holds.2
  have hFit := hWashing.fit
  rw [List.map_cons, LinksFit, if_neg hNotOn, hFate] at hFit
  rcases hFit with ⟨hTakes, hClean, hLength, hInto, hPassed, hRest⟩
  have hFreshRest : ∀ j, j ∈ rest → j.kept = !j.attr.isOn := by
    intro j hMem
    exact hWashing.fresh j (List.mem_cons_of_mem i hMem)
  rcases hWashing.holds.at_item.replacelink hKept hTakes hClean
    hLength with ⟨s', hReplaced, hHolds, hMode⟩
  rcases compact_tag (i := i.write p) hFirst hKept done rest final with ⟨gap, final', hCompact⟩
  have hLayout := layout_compact [] (first :: (done ++ i.write p :: rest)) final
  have hWritten := length_layout_write hTakes (first :: done) rest final
  have hAllKept := kept_compact [] (first :: (done ++ i.write p :: rest)) final
  rw [List.cons_append] at hHolds hWritten
  rw [hCompact] at hHolds hLayout hAllKept
  dsimp only at hHolds hLayout hAllKept
  rw [List.nil_append] at hLayout
  rw [← hLayout] at hWritten
  have hTurn := washAttr_eq cfg hWashing.holds hKept l window
  rw [hFate] at hTurn
  unfold Filter.meet at hTurn
  have hIndex := hWashing.at_index
  rw [hIndex] at hTurn ⊢
  have hHoldsTag : s'.HoldsTag first ((compact [] done []).1 ++
      ⟨gap, (i.write p).attr, true⟩ :: (compact [] rest final).1)
      final' := ⟨hHolds, hFirst⟩
  rw [List.length_cons] at hReplaced
  simp only [hReplaced, Option.map_some, hHoldsTag.isHtmltag] at hTurn
  have hDoneAttrs := attrs_compact [] done []
  have hRestAttrs := attrs_compact [] rest final
  rw [keptAttrs_fresh hFreshRest] at hRestAttrs
  have hDoneLength := length_keptAttrs done
  rw [← hDoneAttrs, List.length_map] at hDoneLength
  generalize hMore : (compact [] rest final).1 = more at hHoldsTag hRestAttrs hWritten hAllKept
  generalize (compact [] done []).1 = before at hHoldsTag hDoneAttrs hDoneLength hWritten hAllKept
  have hSplit : before ++ ⟨gap, (i.write p).attr, true⟩ :: more =
      (before ++ ⟨gap, (i.write p).attr, true⟩ ::
        more.take (goneOf done)) ++ more.drop (goneOf done) := by
    rw [List.append_assoc, List.cons_append, List.take_append_drop]
  have hNewKept : ∀ j, j ∈ before ++ ⟨gap, (i.write p).attr, true⟩ :: more → j.kept = true := by
    intro j hMem
    exact hAllKept j (List.mem_cons_of_mem first hMem)
  rw [hSplit] at hHoldsTag hNewKept
  refine ⟨s', _, _, _, final', hTurn, ⟨hHoldsTag, ?_, ?_, ?_, ?_⟩, ?_, hMode⟩
  · intro j hMem
    have hQuiet : j.attr.isOn = false := by
      apply quiet_of_mem (rest.map Item.attr)
      rw [← hRestAttrs]
      exact List.mem_map_of_mem (List.mem_of_mem_drop hMem)
    rw [hQuiet]
    exact hNewKept j (List.mem_append_right _ hMem)
  · intro a hMem
    rw [keptAttrs_of_kept (fun j hItem =>
      hNewKept j (List.mem_append_left _ hItem)), List.map_append,
      List.map_cons, List.map_take, hDoneAttrs, hRestAttrs] at hMem
    rcases List.mem_append.mp hMem with hDone | hLater
    · exact hWashing.done_fine hRule _ a hDone
    rcases List.mem_cons.mp hLater with hHere | hSkipped
    · rw [hHere]
      exact hRule.takes i.attr window p opens hOn hFate hInto
    · exact hRule.stays a _ (quiet_of_mem _ (List.mem_of_mem_take hSkipped)) (hPassed a hSkipped)
  · rw [List.length_append, List.length_cons, List.length_take]
    by_cases hLess : goneOf done < more.length
    · left
      rw [Nat.min_eq_left (Nat.le_of_lt hLess)]
      omega
    · right
      constructor
      · exact List.drop_of_length_le (Nat.not_lt.mp hLess)
      · rw [Nat.min_eq_right (Nat.not_lt.mp hLess)]
        omega
  · have hGone : goneOf (before ++ ⟨gap, (i.write p).attr, true⟩ ::
          more.take (goneOf done)) = 0 := by
      have hAll := length_keptAttrs (before ++
        ⟨gap, (i.write p).attr, true⟩ :: more.take (goneOf done))
      rw [keptAttrs_of_kept (fun j hItem =>
        hNewKept j (List.mem_append_left _ hItem)),
        List.length_map] at hAll
      omega
    rw [hGone, ← hSplit, hWritten, List.map_drop, hRestAttrs]
    exact hRest
  · have hQuiet := length_quietAttrs (rest.map Item.attr)
    rw [← hRestAttrs, List.length_map, List.length_map] at hQuiet
    rw [List.length_drop]
    omega

/- A turn of the loop. -/
theorem Washing.step (hRule : RuleFine cfg rule Fine first.attr)
    (hWashing : Washing cfg rule Fine first s l window done (i :: rest) final) :
    Turned cfg rule Fine first s l rest.length
      (s.washAttr cfg l (recordOf s first done i) window) := by
  cases hOn : i.attr.isOn with
  | true => exact hWashing.step_gone hOn
  | false =>
    cases hFate : i.attr.fate cfg (first.attr.isNamed (bytes "BLOCKQUOTE")) with
    | stays opens => exact hWashing.step_stays hRule hOn hFate
    | blanked => exact hWashing.step_blanked hRule hOn hFate
    | written p opens => exact hWashing.step_written hRule hOn hFate
    | undefined =>
      have hNotOn : ¬ i.attr.isOn = true := Bool.eq_false_iff.mp hOn
      have hFit := hWashing.fit
      rw [List.map_cons, LinksFit, if_neg hNotOn, hFate] at hFit
      exact hFit.elim

/- The loop leaves fine attributes. -/
theorem Washing.run (hRule : RuleFine cfg rule Fine first.attr) (fuel : Nat) (hWashing :
      Washing cfg rule Fine first s l window done rest final) (hFuel : rest.length < fuel) :
    ∃ s' window' items final', s.washAttrs cfg fuel l window = some (s', window') ∧
        s'.HoldsTag first items final' ∧
        (∀ a, a ∈ keptAttrs items → Fine window' a) ∧
        s.SameMode s' := by
  induction fuel generalizing s l window done rest final with
  | zero => exact absurd hFuel (Nat.not_lt_zero _)
  | succ fuel ih =>
    have hCount := hWashing.holds.1.count
    rw [List.length_cons, List.length_append] at hCount
    cases rest with
    | nil =>
      have hHolds := hWashing.holds
      rw [List.append_nil] at hHolds
      have hEnd : s.tagattrlen ≤ l := by
        rw [List.length_nil] at hCount
        rcases hWashing.index with hIndex | ⟨_, hIndex⟩
        · omega
        · omega
      refine ⟨s, window, done, final, ?_, hHolds, hWashing.fine, rfl, rfl⟩
      rw [Filter.washAttrs, if_pos hEnd]
    | cons i rest =>
      have hIndex := hWashing.at_index
      have hMore : ¬ s.tagattrlen ≤ l := by
        rw [List.length_cons] at hCount
        omega
      have hAttr := hWashing.holds.at_item.attr
      rw [List.length_cons, ← hIndex] at hAttr
      rcases hWashing.step hRule with
        ⟨s', window', done', rest', final', hTurn, hNext, hLess, hMode⟩
      rw [List.length_cons] at hFuel
      rcases ih hNext (by omega) with ⟨last, opens, items, final'', hRun, hHolds, hFine, hLast⟩
      refine ⟨last, opens, items, final'', ?_, hHolds, hFine, hMode.trans hLast⟩
      rw [Filter.washAttrs, if_neg hMore, hAttr]
      unfold recordOf at hTurn
      simp only [hTurn, Option.bind_some]
      exact hRun

end Wmail.Sqwebmail
