import Wmail.Sqwebmail.HtmlRuns

/-
  What the filter lets through.

  No event handler and no tag that is to be dropped is found
  when the output is read again, and every link is of a known
  kind or written by the filter, in a run in which the filter
  can write its links into the tags.

  Key theorems include:
    * `handlers_filtered`
    * `links_filtered`
-/

------------
-- Deciding the Condition
------------

namespace Wmail.Sqwebmail

instance (v : AttrValue) (p : List Byte) : Decidable (v.Takes p) :=
  match v with
  | .none => inferInstanceAs (Decidable False)
  | .bare run =>
    decidable_of_iff (p.all inValue = true ∧ (run = [] → p.head?.all (!isQuote ·) = true)) (by
        unfold AttrValue.Takes
        rw [List.all_eq_true]
        cases p with
        | nil => simp
        | cons b p => simp)
  | .quoted q _ _ => inferInstanceAs (Decidable (q ∉ p))

instance (text : List Byte) : Decidable (Clean text) :=
  decidable_of_iff (text.all tagByte = true) List.all_eq_true

/- The attributes that are passed over have no link to ask for. -/
instance decPassed (rule : LinkRule) [DecidablePred rule.stays] (attrs : List Attr) :
    Decidable (∀ b, b ∈ attrs → b.isLink = true → rule.stays b) :=
  decidable_of_iff (attrs.all fun b => !b.isLink || decide (rule.stays b))
    (by simp [List.all_eq_true, imp_iff_not_or])

/- The recursion is on a bound for the attributes that are left. -/
@[reducible]
def decLinksFit (cfg : Config) (rule : LinkRule) [DecidablePred rule.stays]
    [∀ window, DecidablePred (rule.takes window)] (name : Attr) (n : Nat) (window : Bool)
    (gone len : Nat) (attrs : List Attr) (hBound : attrs.length ≤ n) :
    Decidable (LinksFit cfg rule name window gone len attrs) :=
  match n, attrs with
  | _, [] => .isTrue (by rw [LinksFit]; trivial)
  | 0, _ :: _ => absurd hBound (Nat.not_succ_le_zero _)
  | n + 1, a :: rest =>
    have hRest : rest.length ≤ n := Nat.le_of_succ_le_succ hBound
    if hOn : a.isOn = true then
      have := decLinksFit cfg rule name n window (gone + 1) len rest hRest
      decidable_of_iff (LinksFit cfg rule name window (gone + 1) len rest)
        (by rw [LinksFit, if_pos hOn])
    else
      match hFate : a.fate cfg (name.isNamed (bytes "BLOCKQUOTE")) with
      | .stays opens =>
        have := decLinksFit cfg rule name n (window || (opens && name.isNamed (bytes "A")))
          gone len rest hRest
        decidable_of_iff ((a.isLink = true → rule.stays a) ∧ LinksFit cfg rule name
              (window || (opens && name.isNamed (bytes "A")))
              gone len rest)
          (by rw [LinksFit, if_neg hOn, hFate])
      | .blanked =>
        have := decLinksFit cfg rule name n window (gone + 1) len rest hRest
        decidable_of_iff (LinksFit cfg rule name window (gone + 1) len rest)
          (by rw [LinksFit, if_neg hOn, hFate])
      | .written p opens =>
        have := decLinksFit cfg rule name n (window || (opens && name.isNamed (bytes "A"))) 0
          (len - a.value.text.length + p.length)
          ((quietAttrs rest).drop gone)
          (Nat.le_trans (List.drop_sublist _ _).length_le
            (Nat.le_trans (length_quietAttrs rest) hRest))
        decidable_of_iff (a.value.Takes p ∧ Clean p ∧
            len - a.value.text.length + p.length < tagLimit ∧
            rule.takes window a ∧
            (∀ b, b ∈ (quietAttrs rest).take gone → b.isLink = true → rule.stays b) ∧
            LinksFit cfg rule name (window || (opens && name.isNamed (bytes "A"))) 0
              (len - a.value.text.length + p.length)
              ((quietAttrs rest).drop gone))
          (by rw [LinksFit, if_neg hOn, hFate])
      | .undefined =>
        .isFalse (by
          rw [LinksFit, if_neg hOn, hFate]
          exact id)

variable {rule : LinkRule} [DecidablePred rule.stays]
variable [∀ window, DecidablePred (rule.takes window)] [DecidablePred rule.image]

instance (cfg : Config) (name : Attr) (window : Bool) (gone len : Nat) (attrs : List Attr) :
    Decidable (LinksFit cfg rule name window gone len attrs) :=
  decLinksFit cfg rule name attrs.length window gone len attrs (Nat.le_refl _)

instance (cfg : Config) (name : Attr) (len : Nat) (attrs : List Attr) :
    Decidable (ImageFits cfg rule name len attrs) :=
  match hFind : attrs.find? (·.isNamed (bytes "src")) with
  | none =>
    .isTrue (by
      unfold ImageFits
      rw [hFind]
      trivial)
  | some a =>
    if hCid : (cfg.convertcid.isSome && a.isCid) = true then
      decidable_of_iff (LinksFit cfg rule name false 0 len attrs) (by
          unfold ImageFits
          rw [hFind]
          simp only [if_pos hCid])
    else
      match hText : hrefText cfg (a.link cfg) with
      | none =>
        .isFalse (by
          unfold ImageFits
          rw [hFind]
          simp only [if_neg hCid, hText]
          exact fun hBoth => hBoth.2)
      | some p =>
        decidable_of_iff ((∀ b, b ∈ beforeSrc attrs → b.isOn = false) ∧
            a.value.Takes p ∧ Clean p ∧ chr '"' ∉ p ∧
            len - a.value.text.length + p.length < tagLimit ∧
            rule.image a)
          (by
            unfold ImageFits
            rw [hFind]
            simp only [if_neg hCid, hText])

instance (cfg : Config) (styled : Bool) (tag : List Byte) :
    Decidable (TagFits cfg rule styled tag) :=
  match hAttrs : attrsOf (seenText tag) with
  | [] =>
    decidable_of_iff (tag.length < tagLimit) (by
        unfold TagFits
        rw [hAttrs]
        exact (and_iff_left trivial).symm)
  | name :: attrs =>
    decidable_of_iff (tag.length < tagLimit ∧ (isPrinted name.name = true → styled = false →
          if name.isNamed (bytes "IMG") then
            ImageFits cfg rule name (seenText tag).length attrs
          else
            LinksFit cfg rule name false 0 (seenText tag).length attrs))
      (by
        unfold TagFits
        rw [hAttrs])

instance decRunFits (cfg : Config) : (input : List Byte) → (s : Filter) → (r : Reader) →
      Decidable (RunFits cfg rule input s r)
  | [], _, _ => inferInstanceAs (Decidable True)
  | c :: rest, s, r =>
    have : Decidable (match s.next cfg c with
        | none => True
        | some s => RunFits cfg rule rest s (r.step c).1) :=
      match s.next cfg c with
      | none => inferInstanceAs (Decidable True)
      | some s => decRunFits cfg rest s (r.step c).1
    inferInstanceAs (Decidable ((∀ tag, tag ∈ (r.step c).2 →
      TagFits cfg rule (s.instyletag ≠ 0) tag) ∧ _))

/- The tags that are not to be in the output. -/
def bannedTags : List (List Byte) :=
  [bytes "SCRIPT", bytes "/SCRIPT", bytes "IFRAME",
    bytes "/IFRAME", bytes "FRAME", bytes "/FRAME",
    bytes "OBJECT", bytes "/OBJECT", bytes "APP", bytes "/APP",
    bytes "APPLET", bytes "/APPLET", bytes "SERVER",
    bytes "/SERVER", bytes "META", bytes "LINK", bytes "TITLE",
    bytes "/TITLE", bytes "HTML", bytes "/HTML", bytes "HEAD",
    bytes "/HEAD", bytes "BODY", bytes "/BODY", bytes "STYLE",
    bytes "/STYLE"]

/- The name of an event handler. -/
def isHandler (name : List Byte) : Bool :=
  2 < name.length && (name.take 2).map tolower = bytes "on"

/- A tag of the output that is not banned and has no handler. -/
def handlerFree (tag : List Byte) : Bool :=
  match readAttrs tag with
  | [] => false
  | name :: attrs =>
    !bannedTags.any (fun l => name.1.map tolower = l.map tolower) &&
      !attrs.any (fun a => isHandler a.1)

/- Nothing more is asked than that the links can be written. -/
def anyLink : LinkRule where
  stays := fun _ => True
  takes := fun _ _ => True
  image := fun _ => True

theorem handlers_ruleFine (cfg : Config) (name : Attr) :
    RuleFine cfg anyLink (fun _ a => a.isOn = false) name where
  stays := fun _ _ hOn _ => hOn
  takes := fun _ _ _ _ hOn _ _ => hOn
  closed := fun _ _ _ _ hOn => hOn

/- No attribute is an event handler. -/
def handlerPolicy (cfg : Config) : Policy cfg where
  rule := anyLink
  fine := fun _ a => a.isOn = false
  pair := fun name _ => isHandler name = false
  ruleFine := handlers_ruleFine cfg
  shown := fun _ _ hOn => hOn
  extended := fun _ _ _ _ hOn _ => hOn
  window := by decide
  windowRest := by decide
  imageWindow := by decide
  imageLink := fun _ _ _ _ => by decide

theorem banned_of_printed {name : List Byte} (hPrinted : isPrinted name = true) :
    bannedTags.any (fun l => name.map tolower = l.map tolower) = false := by
  have hAll : bannedTags.all (fun l =>
      (droppedTags ++ [bytes "STYLE", bytes "/STYLE"]).contains l) = true := by
    decide
  unfold isPrinted at hPrinted
  rw [Bool.not_eq_true', List.any_eq_false] at hPrinted
  rw [List.any_eq_false]
  intro l hMem
  have hContains := List.all_eq_true.mp hAll l hMem
  exact hPrinted l (List.contains_iff_mem.mp hContains)

variable {cfg : Config}

theorem handlerFree_of_safe {tag : List Byte} (hSafe : TagSafe (handlerPolicy cfg) tag) :
    handlerFree tag = true := by
  rcases hSafe with ⟨name, value, attrs, hRead, hPrinted, hPairs⟩
  unfold handlerFree
  rw [hRead]
  simp only [banned_of_printed hPrinted, Bool.not_false,
    Bool.true_and, Bool.not_eq_true', List.any_eq_false]
  intro a hMem
  have hName : isHandler a.1 = false := hPairs a hMem
  rw [hName]
  exact Bool.false_ne_true

/-
  The output read again has no banned tag and no event handler
  if every link that the filter writes fits its place.
-/
theorem handlers_filtered (cfg : Config) (chunks : List (List Byte))
    (hFits : RunFits cfg anyLink chunks.flatten
      freshFilter.htmlfilterInit newReader) :
    ∀ tag, tag ∈ readTags (htmlfilterAll cfg chunks (some freshFilter.htmlfilterInit)) →
      handlerFree tag = true := by
  intro tag hMem
  exact handlerFree_of_safe (runFits_safe (handlerPolicy cfg) chunks hFits tag hMem)

instance : DecidablePred anyLink.stays :=
  fun _ => inferInstanceAs (Decidable True)

instance (window : Bool) : DecidablePred (anyLink.takes window) :=
  fun _ => inferInstanceAs (Decidable True)

instance : DecidablePred anyLink.image :=
  fun _ => inferInstanceAs (Decidable True)

/- A link with a handler, and a script. -/
theorem handlers_filtered_script : (readTags (htmlfilterAll plainConfig
        [bytes "<A HREF=\"http://h/\" ONC", bytes "LICK=x><SCRIPT>"]
        (some freshFilter.htmlfilterInit))).all handlerFree =
      true :=
  List.all_eq_true.mpr (handlers_filtered plainConfig
      [bytes "<A HREF=\"http://h/\" ONC", bytes "LICK=x><SCRIPT>"]
      (by decide +kernel))

/- A handler in front of the `SRC` of an image. -/
def handlerImage : List Byte :=
  bytes "<IMG ONX=1 SRC=\"http://a/b\" ALT='\" onclick=\"x'>"

/-
  When the tag is parsed again the value of `ALT` is where the
  `SRC` was, and it is printed as the link.
-/
theorem handlers_pass : htmlfilterAll plainConfig [handlerImage] (some freshFilter.htmlfilterInit) =
      bytes "<A TARGET=\"_blank\" HREF=\"\" onclick=\"x\">" ++ bytes "\" onclick=\"x</A>" ∧
      bytes "A TARGET=\"_blank\" HREF=\"\" onclick=\"x\"" ∈
        readTags (htmlfilterAll plainConfig [handlerImage] (some freshFilter.htmlfilterInit)) ∧
      handlerFree (bytes "A TARGET=\"_blank\" HREF=\"\" onclick=\"x\"") = false := by
  decide +kernel

------------
-- Links
------------

/- The links that are known, after leading blanks. -/
def isKnown (v : List Byte) : Bool :=
  isHttp v || isOther v

/- The value goes to another site by itself or by the filter. -/
def KnownFront (cfg : Config) (v : List Byte) : Prop :=
  isKnown v = true ∨ (∃ front, cfg.washlink = some front ∧ front <+: v) ∨
    ∃ front, cfg.washlinkmailto = some front ∧ front <+: v

/- The value of a link in the output. -/
def SafeValue (cfg : Config) (v : List Byte) : Prop :=
  KnownFront cfg v ∨ ∃ q, v = cidText cfg q

/- The name of an attribute that has a link. -/
def isLinkName (name : List Byte) : Bool :=
  (Attr.mk name .none).isLink

/- A tag of the output whose links are safe. -/
def LinkSafe (cfg : Config) (tag : List Byte) : Prop :=
  ∃ name attrs, readAttrs tag = name :: attrs ∧
    ∀ a, a ∈ attrs → isLinkName a.1 = true → SafeValue cfg a.2

/- A quoted value. -/
def AttrValue.isQuoted : AttrValue → Bool
  | .quoted _ _ _ => true
  | .none | .bare _ => false

/- A quoted value with its last quote. -/
def AttrValue.isClosed : AttrValue → Bool
  | .quoted _ _ closed => closed
  | .none | .bare _ => true

/-
  A link that stays as it is must be known.  One that is
  written stands in quotes, and for a part of the message the
  last quote must be there if a window is opened, since what
  opens it would be added to the value.  An image has a known
  link if links are not washed.
-/
def knownLink (cfg : Config) : LinkRule where
  stays := fun a => isKnown a.value.text = true
  takes := fun window a =>
    a.value.isQuoted = true ∧ (isValuestart (a.link cfg) (bytes "cid:") = true →
        a.value.isClosed = true ∨ window = false)
  image := fun a => a.value.isQuoted = true ∧ (cfg.washlink = none → isKnown (a.link cfg) = true)

/- What is fine about an attribute with a link. -/
def LinkFine (cfg : Config) (window : Bool) (a : Attr) : Prop :=
  a.isLink = true → SafeValue cfg a.value.text ∧ (window = true → a.value.isClosed = false →
        KnownFront cfg a.value.text)

theorem isValuestart_append {v l : List Byte} (hStart : isValuestart v l = true)
    (hSome : l ≠ []) (more : List Byte) : isValuestart (v ++ more) l = true := by
  unfold isValuestart casePrefix at hStart ⊢
  have hSplit := List.takeWhile_append_dropWhile (p := isspace) (l := v)
  have hFront := forall_takeWhile isspace v
  have hStop := head_dropWhile_stop (P := isspace) (p := v)
  generalize v.takeWhile isspace = front at hSplit hFront
  generalize hRest : v.dropWhile isspace = rest at hStart hSplit hStop
  rw [List.isPrefixOf_iff_prefix] at hStart ⊢
  cases rest with
  | nil =>
    rw [List.map_nil, List.prefix_nil, List.map_eq_nil_iff] at hStart
    exact absurd hStart hSome
  | cons b rest =>
    have hDrop : (v ++ more).dropWhile isspace = (b :: rest) ++ more := by
      rw [← hSplit, List.append_assoc]
      apply dropWhile_run hFront
      intro c hHead
      cases hHead
      exact hStop b rfl
    rw [hDrop, List.map_append]
    exact hStart.trans (List.prefix_append _ _)

theorem isKnown_append {v : List Byte} (hKnown : isKnown v = true) (more : List Byte) :
    isKnown (v ++ more) = true := by
  unfold isKnown isHttp isOther at hKnown ⊢
  simp only [Bool.or_eq_true] at hKnown ⊢
  rcases hKnown with
    (hStart | hStart) | (((hStart | hStart) | hStart) | hStart)
  · exact Or.inl (Or.inl (isValuestart_append hStart (by decide) more))
  · exact Or.inl (Or.inr (isValuestart_append hStart (by decide) more))
  · exact Or.inr (Or.inl (Or.inl (Or.inl (isValuestart_append hStart (by decide) more))))
  · exact Or.inr (Or.inl (Or.inl (Or.inr (isValuestart_append hStart (by decide) more))))
  · exact Or.inr (Or.inl (Or.inr (isValuestart_append hStart (by decide) more)))
  · exact Or.inr (Or.inr (isValuestart_append hStart (by decide) more))

theorem KnownFront.append {v : List Byte} (hFront : KnownFront cfg v) (more : List Byte) :
    KnownFront cfg (v ++ more) := by
  rcases hFront with hKnown | ⟨front, hWash, hPrefix⟩ | ⟨front, hWash, hPrefix⟩
  · exact Or.inl (isKnown_append hKnown more)
  · exact Or.inr (Or.inl ⟨front, hWash, hPrefix.trans (List.prefix_append v more)⟩)
  · exact Or.inr (Or.inr ⟨front, hWash, hPrefix.trans (List.prefix_append v more)⟩)

/- What is written for a link to another site. -/
theorem knownFront_hrefText {q p : List Byte} (hText : hrefText cfg q = some p)
    (hKnown : cfg.washlink = none → isKnown q = true) : KnownFront cfg p := by
  unfold hrefText at hText
  cases hWash : cfg.washlink with
  | none =>
    rw [hWash] at hText
    cases hText
    exact Or.inl (hKnown hWash)
  | some washlink =>
    rw [hWash] at hText
    rcases Option.map_eq_some_iff.mp hText with ⟨url, _, hSame⟩
    refine Or.inr (Or.inl ⟨washlink, hWash, ?_⟩)
    rw [← hSame]
    exact List.prefix_append washlink url

/- What is written is safe, or it is a part of the message. -/
theorem linkFate_written {a : Attr} {p : List Byte} {opens : Bool}
    (hFate : a.linkFate cfg = .written p opens) :
    KnownFront cfg p ∨ (isValuestart (a.link cfg) (bytes "cid:") = true ∧
        opens = false ∧ p = cidText cfg (a.link cfg)) := by
  unfold Attr.linkFate at hFate
  generalize a.link cfg = q at hFate ⊢
  simp only [] at hFate
  split at hFate
  · cases hFate
  split at hFate
  · rename_i hCid
    cases hFate
    exact Or.inr ⟨hCid, rfl, rfl⟩
  split at hFate
  · rename_i hHttp
    rw [Bool.and_eq_true] at hHttp
    left
    cases hText : hrefText cfg q with
    | none =>
      rw [hText] at hFate
      cases hFate
    | some text =>
      rw [hText] at hFate
      cases hFate
      apply knownFront_hrefText hText
      intro _
      unfold isKnown
      rw [hHttp.1, Bool.true_or]
  split at hFate
  · left
    cases hMailto : cfg.washlinkmailto with
    | none =>
      rw [hMailto] at hFate
      cases hFate
    | some front =>
      rw [hMailto] at hFate
      cases hFate
      exact Or.inr (Or.inr ⟨front, hMailto, List.prefix_append _ _⟩)
  split at hFate
  · cases hFate
  · cases hFate

theorem isQuoted_write {a : Attr} (hQuoted : a.value.isQuoted = true) (p : List Byte) :
    (a.write p).value.text = p ∧ (a.write p).value.isClosed = a.value.isClosed := by
  rcases a with ⟨name, value⟩
  cases value with
  | none => cases hQuoted
  | bare run => cases hQuoted
  | quoted q text closed => exact ⟨rfl, rfl⟩

theorem links_ruleFine (cfg : Config) (name : Attr) :
    RuleFine cfg (knownLink cfg) (LinkFine cfg) name := by
  constructor
  · intro a window hOn hStays hLink
    have hKnown : isKnown a.value.text = true := hStays hLink
    exact ⟨Or.inl (Or.inl hKnown), fun _ _ => Or.inl hKnown⟩
  · intro a window p opens hOn hFate hTakes hLink
    rcases hTakes with ⟨hQuoted, hClosed⟩
    rcases isQuoted_write hQuoted p with ⟨hText, hSame⟩
    have hLinkFate : a.linkFate cfg = .written p opens := by
      unfold Attr.fate at hFate
      split at hFate
      · cases hFate
      split at hFate
      · exact hFate
      · cases hFate
    rw [hText, hSame]
    rcases linkFate_written hLinkFate with hFront | ⟨hCid, hOpens, hPart⟩
    · exact ⟨Or.inl hFront, fun _ _ => hFront⟩
    · refine ⟨Or.inr ⟨_, hPart⟩, ?_⟩
      intro hWindow hOpen
      rcases hClosed hCid with hYes | hNo
      · rw [hOpen] at hYes
        cases hYes
      · rw [hOpens, hNo] at hWindow
        cases hWindow
  · intro a window opens hClosed hFine hLink
    refine ⟨(hFine hLink).1, ?_⟩
    intro _ hOpen
    rcases hValue : a.value with _ | run | ⟨q, text, closed⟩
    · rw [hValue] at hOpen
      cases hOpen
    · rw [hValue] at hOpen
      cases hOpen
    · rw [hValue] at hOpen
      have hNot : closed = false := hOpen
      rw [hNot] at hValue
      exact absurd hValue (hClosed q text)

/- Every link is safe. -/
def linkPolicy (cfg : Config) : Policy cfg where
  rule := knownLink cfg
  fine := LinkFine cfg
  pair := fun name value => isLinkName name = true → SafeValue cfg value
  ruleFine := links_ruleFine cfg
  shown := fun a window hFine hLink => (hFine hLink).1
  extended := fun a q text more hFine hValue hLink => by
    have hFront := (hFine hLink).2 rfl (by rw [hValue]; rfl)
    rw [hValue] at hFront
    exact Or.inl (hFront.append more)
  window := fun hLink => absurd hLink (by decide)
  windowRest := fun hLink => absurd hLink (by decide)
  imageWindow := fun hLink => absurd hLink (by decide)
  imageLink := fun a p hImage hText _ => by
    rw [(isQuoted_write hImage.1 p).1]
    exact Or.inl (knownFront_hrefText hText hImage.2)

/-
  The links of the output, read again, are known or written by
  the filter, if every link that the filter writes fits its
  place, every link that it leaves alone is known, and no image
  is without a known link.
-/
theorem links_filtered (cfg : Config) (chunks : List (List Byte))
    (hFits : RunFits cfg (knownLink cfg) chunks.flatten
      freshFilter.htmlfilterInit newReader) :
    ∀ tag, tag ∈ readTags (htmlfilterAll cfg chunks (some freshFilter.htmlfilterInit)) →
      LinkSafe cfg tag := by
  intro tag hMem
  rcases runFits_safe (linkPolicy cfg) chunks hFits tag hMem with
    ⟨name, value, attrs, hRead, _, hPairs⟩
  exact ⟨(name, value), attrs, hRead, hPairs⟩

instance (cfg : Config) : DecidablePred (knownLink cfg).stays :=
  fun a => inferInstanceAs (Decidable (isKnown a.value.text = true))

instance (cfg : Config) (window : Bool) : DecidablePred ((knownLink cfg).takes window) :=
  fun a => inferInstanceAs (Decidable (a.value.isQuoted = true ∧
    (isValuestart (a.link cfg) (bytes "cid:") = true → a.value.isClosed = true ∨ window = false)))

instance (cfg : Config) : DecidablePred (knownLink cfg).image :=
  fun a => inferInstanceAs (Decidable (a.value.isQuoted = true ∧
    (cfg.washlink = none → isKnown (a.link cfg) = true)))

/- A script and a link in one tag. -/
theorem links_filtered_anchor : (readTags (htmlfilterAll plainConfig
        [bytes "<A SRC=\"javascript:x\" HREF=\"http://h/\">"]
        (some freshFilter.htmlfilterInit))).Forall
      (LinkSafe plainConfig) :=
  List.forall_iff_forall_mem.mpr (links_filtered plainConfig
      [bytes "<A SRC=\"javascript:x\" HREF=\"http://h/\">"]
      (by decide +kernel))

/- The link of an image is printed whatever it is. -/
theorem links_pass : readTags (htmlfilterAll plainConfig
        [bytes "<IMG SRC=\"javascript:x\">"]
        (some freshFilter.htmlfilterInit)) =
      [bytes "A TARGET=\"_blank\" HREF=\"javascript:x\"", bytes "/A"] ∧
      ¬ LinkSafe plainConfig (bytes "A TARGET=\"_blank\" HREF=\"javascript:x\"") := by
  constructor
  · decide +kernel
  · intro hSafe
    rcases hSafe with ⟨name, attrs, hRead, hLinks⟩
    have hAttrs : readAttrs (bytes "A TARGET=\"_blank\" HREF=\"javascript:x\"") =
          [(bytes "A", []), (bytes "TARGET", bytes "_blank"),
            (bytes "HREF", bytes "javascript:x")] := by
      decide +kernel
    rw [hAttrs, List.cons.injEq] at hRead
    have hMem : (bytes "HREF", bytes "javascript:x") ∈ attrs := by
      rw [← hRead.2]
      exact List.mem_cons_of_mem _ List.mem_cons_self
    rcases hLinks _ hMem (by decide) with hFront | ⟨q, hPart⟩
    · rcases hFront with hKnown | ⟨_, hNone, _⟩ | ⟨_, hNone, _⟩
      · exact absurd hKnown (by decide)
      · cases hNone
      · cases hNone
    · have hSome : bytes "javascript:x" ≠ [] := by decide
      exact hSome hPart

end Wmail.Sqwebmail
