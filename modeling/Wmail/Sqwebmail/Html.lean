import Wmail.Cgi.Cgi
import Wmail.Rfc2045.Appendurl

/-
  The filter for HTML text of a message (sqwebmail/html.c).

  A C string is the list of its bytes, and a pointer into the
  tag buffer is the distance from its start.  What has never
  been written is not read: a function that would read memory
  that is not its own, or call `strlen` on a null pointer, has
  the result `none`.

  Key definitions include:
    * `decodehtmlchar`
-/

namespace Wmail.Sqwebmail

/-
  The loop over the digits of an entity.  It goes on by two
  characters for each digit, and leaves the string when the
  last one is a digit.
-/
def entityDigits : List Byte → UInt32 → Option (UInt32 × List Byte)
  | [], c => some (c, [])
  | [b], c =>
    if isdigit b then none else some (c, [b])
  | b :: skipped :: p, c =>
    if isdigit b then entityDigits p (c * 10 + (b.toUInt32 - 48)) else some (c, b :: skipped :: p)

/- No digit is put back. -/
theorem length_entityDigits {p : List Byte} {c : UInt32} {found : UInt32 × List Byte}
    (hDigits : entityDigits p c = some found) : found.2.length ≤ p.length := by
  fun_induction entityDigits p c with
  | case1 c =>
    cases hDigits
    exact Nat.le_refl _
  | case2 c b hDigit => cases hDigits
  | case3 c b hDigit =>
    cases hDigits
    exact Nat.le_refl _
  | case4 c b skipped p hDigit ih =>
    have hLess := ih hDigits
    rw [List.length_cons, List.length_cons]
    omega
  | case5 c b skipped p hDigit =>
    cases hDigits
    exact Nat.le_refl _

/-
  A numeric entity: the character, unless it is zero, and the
  text after it.
-/
def numericEntity (p : List Byte) : Option (List Byte × List Byte) :=
  if p.head? = some (chr '#') then
    (entityDigits p.tail 0).map fun found =>
      (if found.1.toUInt8 = 0 then [] else [found.1.toUInt8],
        if found.2.head? = some (chr ';') then found.2.tail else found.2)
  else
    some ([], chr '&' :: p)

/- The character of a named entity. -/
def namedEntity (name : List Byte) : List Byte :=
  let name := name.map tolower
  if name = bytes "&lt;" then
    [chr '<']
  else if name = bytes "&gt;" then
    [chr '>']
  else if name = bytes "&amp;" then
    [chr '&']
  else if name = bytes "&quot;" then
    [chr '"']
  else
    []

/-
  What is left after a numeric entity is looked at at once: a
  name is read from its second character on.
-/
def decodeEntity (p : List Byte) : Option (List Byte × List Byte) :=
  match p with
  | [] => none
  | b :: rest =>
    if (rest.dropWhile isalpha).head? ≠ some (chr ';') then
      some ([b], rest)
    else
      let i := (p.takeWhile (· ≠ chr ';')).length + 1
      some (namedEntity (p.take i), p.drop i)

theorem length_numericEntity {p : List Byte} {found : List Byte × List Byte}
    (hEntity : numericEntity p = some found) : found.2.length ≤ p.length + 1 := by
  unfold numericEntity at hEntity
  split at hEntity
  · rcases Option.map_eq_some_iff.mp hEntity with ⟨digits, hDigits, hFound⟩
    have hLength := length_entityDigits hDigits
    rw [List.length_tail] at hLength
    rw [← hFound]
    simp only []
    split
    · rw [List.length_tail]
      omega
    · omega
  · cases hEntity
    exact Nat.le_refl _

theorem length_decodeEntity {p : List Byte} {found : List Byte × List Byte}
    (hEntity : decodeEntity p = some found) : found.2.length < p.length := by
  cases p with
  | nil => cases hEntity
  | cons b rest =>
    unfold decodeEntity at hEntity
    simp only [] at hEntity
    split at hEntity
    · cases hEntity
      exact Nat.lt_succ_self rest.length
    · cases hEntity
      rw [List.length_drop, List.length_cons]
      omega

/- `decodehtmlchar`. -/
def decodehtmlchar (p : List Byte) : Option (List Byte) :=
  match p with
  | [] => some []
  | b :: rest =>
    if b ≠ chr '&' then
      (decodehtmlchar rest).map (b :: ·)
    else
      match _hNumeric : numericEntity rest with
      | none => none
      | some (number, q) =>
        match _hEntity : decodeEntity q with
        | none => none
        | some (text, q) => (decodehtmlchar q).map (number ++ text ++ ·)
termination_by p.length
decreasing_by
  · exact Nat.lt_succ_self rest.length
  · have hFirst := length_numericEntity _hNumeric
    have hSecond := length_decodeEntity _hEntity
    simp only [] at hFirst hSecond
    rw [List.length_cons]
    omega

/-
  `struct tagattrinfo`, with the size that the tag buffer had
  when the pointers were stored: a larger buffer may have been
  moved.
-/
structure TagAttr where
  tagname : Nat
  tagnamelen : Nat
  tagvalue : Option Nat
  tagvaluelen : Nat
  atagstart : Nat
  ataglen : Nat
  bufsize : Nat
deriving DecidableEq

/- A character of an attribute's name. -/
def inName (b : Byte) : Bool :=
  !(isspace b || b = chr '=')

/- A character of an unquoted value. -/
def inValue (b : Byte) : Bool :=
  !isspace b

/-
  What follows `=`: where the value starts, its length, and
  how many characters it takes.  An unquoted value starts
  where it ends, and is empty.
-/
def parsevalue (p : List Byte) : Nat × Nat × Nat :=
  match p with
  | [] => (0, 0, 0)
  | c :: rest =>
    if c = chr '"' || c = chr '\'' then
      let len := (rest.takeWhile (· ≠ c)).length
      if len < rest.length then (1, len, len + 2) else (1, len, len + 1)
    else
      let len := (p.takeWhile inValue).length
      (len, 0, len)

/- One attribute, from its first character on. -/
def parseone (p : List Byte) (off bufsize : Nat) : TagAttr :=
  let name := (p.takeWhile inName).length
  let value := parsevalue (p.drop (name + 1))
  if (p.drop name).head? = some (chr '=') then
    { tagname := off
      tagnamelen := name
      tagvalue := some (off + name + 1 + value.1)
      tagvaluelen := value.2.1
      atagstart := off
      ataglen := name + 1 + value.2.2
      bufsize }
  else
    { tagname := off
      tagnamelen := name
      tagvalue := none
      tagvaluelen := 0
      atagstart := off
      ataglen := name
      bufsize }

/- An attribute that starts with no blank is not empty. -/
theorem ataglen_parseone_pos {b : Byte} (hBlank : isspace b = false) (p : List Byte)
    (off bufsize : Nat) : 0 < (parseone (b :: p) off bufsize).ataglen := by
  unfold parseone
  simp only []
  split
  · exact Nat.lt_of_lt_of_le (Nat.succ_pos _) (Nat.le_add_right _ _)
  · rename_i hName
    by_cases hEquals : b = chr '='
    · have hStop : ¬ inName b = true := by
        rw [hEquals]
        decide
      rw [List.takeWhile_cons_of_neg hStop] at hName
      exact absurd (congrArg some hEquals) hName
    · have hGo : inName b = true := by
        unfold inName
        rw [hBlank, decide_eq_false hEquals]
        rfl
      rw [List.takeWhile_cons_of_pos hGo]
      exact Nat.succ_pos _

/- `parseattr`, on the text from `off` on. -/
def parseattr (bufsize off : Nat) (p : List Byte) : List TagAttr :=
  match _hText : p.dropWhile isspace with
  | [] => []
  | b :: rest =>
    let off := off + (p.length - (b :: rest).length)
    let tai := parseone (b :: rest) off bufsize
    tai :: parseattr bufsize (off + tai.ataglen) ((b :: rest).drop tai.ataglen)
termination_by p.length
decreasing_by
  have hBlank : isspace b = false := by
    have hHead := List.head?_dropWhile_not isspace p
    rw [_hText] at hHead
    simpa using hHead
  have hSome := ataglen_parseone_pos hBlank rest
  have hRest := (List.dropWhile_suffix (l := p) isspace).length_le
  rw [_hText] at hRest
  rw [List.length_drop]
  exact Nat.lt_of_lt_of_le (Nat.sub_lt (Nat.succ_pos rest.length) (hSome _ _)) hRest

/- `enum htmlstate`. -/
inductive HtmlState where
  | intext
  | seenlt
  | seenltbang
  | seenltbangdash
  | intag
  | incomment
  | incommentseendash
  | incommentseendashdash
deriving DecidableEq

/-
  What the filter remembers.  `tagbuf` is the part of the
  buffer that has been written, and `tagattr` the part of the
  array: entries from `tagattrlen` on are of an earlier tag.
-/
structure Filter where
  curState : HtmlState
  instyletag : UInt32
  tagbuf : List Byte
  tagbufsize : Nat
  tagbuflen : Nat
  tagattr : List TagAttr
  tagattrlen : Nat

/- What the filter was set up with. -/
structure Config where
  washlink : Option (List Byte)
  washlinkmailto : Option (List Byte)
  contentbase : Option (List Byte)
  convertcid : Option (List Byte → List Byte)

/- `htmlfilter_init`. -/
def Filter.htmlfilterInit (s : Filter) : Filter :=
  { s with
    curState := .intext
    instyletag := 0 }

/- The size at which no more is added to the tag buffer. -/
def tagbufLimit : Nat :=
  1024

/- `addtagbuf`. -/
def Filter.addtagbuf (s : Filter) (c : Byte) : Filter :=
  if tagbufLimit ≤ s.tagbufsize then
    s
  else
    { s with
      tagbufsize :=
        if s.tagbufsize ≤ s.tagbuflen then s.tagbufsize + 256 else s.tagbufsize
      tagbuf :=
        s.tagbuf.take s.tagbuflen ++ c :: s.tagbuf.drop (s.tagbuflen + 1)
      tagbuflen := s.tagbuflen + 1 }

/- The tag buffer as a C string, if it has an end. -/
def Filter.tagString (s : Filter) : Option (List Byte) :=
  if s.tagbuf.contains 0 then some (s.tagbuf.takeWhile (· ≠ 0)) else none

/- `parsetagbuf`. -/
def Filter.parsetagbuf (s : Filter) : Option Filter :=
  s.tagString.map fun text =>
    let text := text.map fun b => if b = chr '<' then chr ' ' else b
    let found := parseattr s.tagbufsize 0 text
    { s with
      tagbuf := text ++ s.tagbuf.drop text.length
      tagattr := found ++ s.tagattr.drop found.length
      tagattrlen := found.length }

/- Bytes of the tag buffer. -/
def Filter.slice (s : Filter) (start len : Nat) : List Byte :=
  (s.tagbuf.drop start).take len

/- The value of an attribute, or nothing for a null pointer. -/
def Filter.valueText (s : Filter) (t : TagAttr) : List Byte :=
  match t.tagvalue with
  | none => []
  | some start => s.slice start t.tagvaluelen

/- `is_attr`. -/
def Filter.isAttr (s : Filter) (t : TagAttr) (l : List Byte) : Bool :=
  t.tagnamelen = l.length && (s.slice t.tagname t.tagnamelen).map tolower = l.map tolower

/- `is_htmltag`. -/
def Filter.isHtmltag (s : Filter) (l : List Byte) : Bool :=
  0 < s.tagattrlen &&
    match s.tagattr.head? with
    | none => false
    | some t => s.isAttr t l

/- `find_tag`, where `none` is for no attribute. -/
def Filter.findTag (s : Filter) (tagname : List Byte) : Option Nat :=
  (List.range' 1 (s.tagattrlen - 1)).find? fun l =>
    match s.tagattr[l]? with
    | none => false
    | some t => s.isAttr t tagname

/- The `memset` of a whole attribute. -/
def Filter.blank (s : Filter) (t : TagAttr) : Filter :=
  { s with
    tagbuf :=
      s.tagbuf.take t.atagstart ++ List.replicate t.ataglen (chr ' ') ++
        s.tagbuf.drop (t.atagstart + t.ataglen) }

/- `is_valuestart`. -/
def isValuestart (v l : List Byte) : Bool :=
  casePrefix l (v.dropWhile isspace)

/- `replacelink`. -/
def Filter.replacelink (s : Filter) (l : Nat) (p : List Byte) : Option Filter :=
  match s.tagattr[l]?, s.tagString with
  | some t, some text =>
    match t.tagvalue with
    | none => none
    | some start =>
      let newbuf := text.take start ++ p ++ text.drop (start + t.tagvaluelen)
      ((newbuf.foldl Filter.addtagbuf
        { s with tagbuflen := 0 }).addtagbuf 0).parsetagbuf
  | _, _ => none

/- `redirectencode`. -/
def redirectencode (p : List Byte) : Option (List Byte) :=
  (decodehtmlchar p).map Cgi.cgiurlencode

/- `dowashlink`. -/
def Filter.dowashlink (s : Filter) (washlink : List Byte) (l : Nat) (value : List Byte) :
    Option Filter :=
  (redirectencode value).bind fun url => s.replacelink l (washlink ++ url)

/- The first `?` becomes `&`. -/
def questionToAmp (p : List Byte) : List Byte :=
  p.takeWhile (· ≠ chr '?') ++
    match p.dropWhile (· ≠ chr '?') with
    | [] => []
    | _ :: rest => chr '&' :: rest

/- `dowashlinkmailto`. -/
def Filter.dowashlinkmailto (s : Filter) (washlinkmailto : Option (List Byte)) (l : Nat)
    (mailtolink : List Byte) : Option Filter :=
  washlinkmailto.bind fun front => s.replacelink l (front ++ questionToAmp mailtolink)

/- `dowashcid`. -/
def Filter.dowashcid (s : Filter) (convertcid : Option (List Byte → List Byte)) (l : Nat)
    (link : List Byte) : Option Filter :=
  match convertcid with
  | none => s.replacelink l []
  | some convert => s.replacelink l (convert (link.drop 4))

/- The tags that are dropped. -/
def droppedTags : List (List Byte) :=
  [bytes "TITLE", bytes "/TITLE", bytes "SCRIPT", bytes "/SCRIPT",
    bytes "FRAME", bytes "/FRAME", bytes "IFRAME", bytes "/IFRAME",
    bytes "APP", bytes "/APP", bytes "APPLET", bytes "/APPLET",
    bytes "SERVER", bytes "/SERVER", bytes "OBJECT",
    bytes "/OBJECT", bytes "HTML", bytes "/HTML", bytes "HEAD",
    bytes "/HEAD", bytes "BODY", bytes "/BODY", bytes "LINK",
    bytes "META"]

/- An event handler. -/
def Filter.isOn (s : Filter) (t : TagAttr) : Bool :=
  2 < t.tagnamelen && (s.slice t.tagname 2).map tolower = bytes "on"

/- The first loop over the attributes. -/
def Filter.blankOn (s : Filter) : Filter :=
  (List.range' 1 (s.tagattrlen - 1)).foldl
    (fun s l =>
      match s.tagattr[l]? with
      | none => s
      | some t => if s.isOn t then s.blank t else s) s

/- A link ends at a quote or an angle bracket. -/
def linkByte (b : Byte) : Bool :=
  !(b = chr '"' || b = chr '<' || b = chr '>')

/- The link of an attribute, joined with the base. -/
def Filter.linkOf (cfg : Config) (s : Filter) (t : TagAttr) : List Byte :=
  (Rfc2045.appendUrl cfg.contentbase (s.valueText t)).takeWhile
    linkByte

/- The value is a `cid:` link. -/
def Filter.isCid (s : Filter) (t : TagAttr) : Bool :=
  casePrefix (bytes "cid:") ((s.valueText t).dropWhile isspace)

/-
  The value that is printed for an image.  The index is the
  one from before the attributes were parsed again, and the
  entry may be of the tag before that.
-/
def Filter.printedValue (s : Filter) (l : Nat) : Option (List Byte) :=
  match s.tagattr[l]? with
  | none => none
  | some t =>
    match t.tagvalue with
    | none => some []
    | some start =>
      if t.tagvaluelen = 0 then
        some []
      else if t.bufsize = s.tagbufsize ∧ start + t.tagvaluelen ≤ s.tagbuf.length then
        some (s.slice start t.tagvaluelen)
      else
        none

/- An image becomes a link. -/
def Filter.imageLink (cfg : Config) (s : Filter) (nsrc : Nat) (t : TagAttr)
    (alt : Option (List Byte)) : Option (Filter × List Byte) :=
  let q := s.linkOf cfg t
  let replaced :=
    match cfg.washlink with
    | some washlink => s.dowashlink washlink nsrc q
    | none => s.replacelink nsrc q
  replaced.bind fun s =>
    (s.printedValue nsrc).map fun value =>
      (s, bytes "<A TARGET=\"_blank\" HREF=\"" ++ value ++
        bytes "\">" ++
        (match alt with
          | some alt => alt
          | none => [chr '['] ++ q ++ [chr ']']) ++
        bytes "</A>")

/-
  The branch for images.  The result says whether the tag is
  handled further.
-/
def Filter.image (cfg : Config) (s : Filter) : Option (Filter × List Byte × Bool) :=
  match (s.findTag (bytes "src")).bind (fun l => (s.tagattr[l]?).map (l, ·)) with
  | none => some (s, [], false)
  | some (nsrc, t) =>
    if cfg.convertcid.isSome && s.isCid t then
      some (s, [], true)
    else
      let alt := (s.findTag (bytes "alt")).bind fun l => (s.tagattr[l]?).map s.valueText
      (s.imageLink cfg nsrc t alt).map fun r => (r.1, r.2, false)

/- The attributes that are removed. -/
def Filter.isRemoved (s : Filter) (t : TagAttr) : Bool :=
  s.isAttr t (bytes "target") || s.isAttr t (bytes "code") ||
    s.isAttr t (bytes "language") || s.isAttr t (bytes "action") ||
    (s.isAttr t (bytes "type") &&
      !s.isHtmltag (bytes "BLOCKQUOTE")) ||
    s.isAttr t (bytes "codetype")

/- The attributes that have a link. -/
def Filter.isLink (s : Filter) (t : TagAttr) : Bool :=
  s.isAttr t (bytes "href") || s.isAttr t (bytes "src") || s.isAttr t (bytes "lowsrc")

/-
  What becomes of a link.  The result says whether a window is
  to be opened.
-/
def Filter.washLink (cfg : Config) (s : Filter) (l : Nat) (t : TagAttr)
    (open_window : Bool) : Option (Filter × Bool) :=
  let q := s.linkOf cfg t
  if !q.contains (chr ':') then
    some (s.blank t, open_window)
  else if isValuestart q (bytes "cid:") then
    (s.dowashcid cfg.convertcid l q).map (·, open_window)
  else if (isValuestart q (bytes "http:") ||
      isValuestart q (bytes "https:")) && s.isAttr t (bytes "href") then
    (match cfg.washlink with
      | some washlink => s.dowashlink washlink l q
      | none => s.replacelink l q).map fun s =>
      (s, open_window || s.isHtmltag (bytes "A"))
  else if isValuestart q (bytes "mailto:") then
    (s.dowashlinkmailto cfg.washlinkmailto l
      ((q.dropWhile (· ≠ chr ':')).drop 1)).map (·, open_window)
  else if isValuestart q (bytes "ftp:") || isValuestart q (bytes "gopher:") ||
      isValuestart q (bytes "wais:") ||
      isValuestart q (bytes "telnet:") then
    some (s, open_window || s.isHtmltag (bytes "A"))
  else
    some (s.blank t, open_window)

/- One turn of the last loop over the attributes. -/
def Filter.washAttr (cfg : Config) (s : Filter) (l : Nat) (t : TagAttr)
    (open_window : Bool) : Option (Filter × Bool) :=
  let s := if s.isRemoved t then s.blank t else s
  if s.isLink t then s.washLink cfg l t open_window else some (s, open_window)

/-
  The last loop over the attributes.  There are fewer of them
  than characters in the buffer, so it ends before the fuel
  does.
-/
def Filter.washAttrs (cfg : Config) : Nat → Filter → Nat → Bool → Option (Filter × Bool)
  | 0, _, _, _ => none
  | fuel + 1, s, l, open_window =>
    if s.tagattrlen ≤ l then
      some (s, open_window)
    else
      match s.tagattr[l]? with
      | none => none
      | some t =>
        (s.washAttr cfg l t open_window).bind fun r => r.1.washAttrs cfg fuel (l + 1) r.2

/- The tag that is left. -/
def Filter.printTag (s : Filter) (open_window : Bool) : Option (Filter × List Byte) :=
  s.tagString.map fun text =>
    (s, [chr '<'] ++ text ++
      (if open_window then bytes " target=\"_blank\"" else []) ++
      [chr '>'])

/- A tag outside of `STYLE` that is not dropped. -/
def Filter.rebuildTag (cfg : Config) (s : Filter) : Option (Filter × List Byte) :=
  let s := s.blankOn
  let start :=
    if s.isHtmltag (bytes "IMG") then s.image cfg else some (s, [], true)
  start.bind fun r =>
    if r.2.2 then
      (r.1.washAttrs cfg tagbufLimit 1 false).bind fun w => w.1.printTag w.2
    else
      some (r.1, r.2.1)

/- `filtered_tag`: the filter after the tag, and its output. -/
def Filter.filteredTag (cfg : Config) (s : Filter) : Option (Filter × List Byte) :=
  (s.addtagbuf 0).parsetagbuf.bind fun s =>
    if droppedTags.any s.isHtmltag then
      some (s, [])
    else if s.isHtmltag (bytes "STYLE") then
      some ({ s with instyletag := s.instyletag + 1 }, [])
    else if s.isHtmltag (bytes "/STYLE") then
      some ({ s with instyletag := s.instyletag - 1 }, [])
    else if s.instyletag ≠ 0 then
      some (s, [])
    else
      s.rebuildTag cfg

/- The part of a chunk from `start` to `l`. -/
def chunkPart (p : List Byte) (start l : Nat) : List Byte :=
  (p.drop start).take (l - start)

/- Output outside of `STYLE` only. -/
def Filter.unstyled (s : Filter) (text : List Byte) : List Byte :=
  if s.instyletag = 0 then text else []

/- The label `do_intag`: a character of a tag. -/
def Filter.doIntag (cfg : Config) (s : Filter) (l start : Nat) (c : Byte) :
    Option (Filter × Nat × List Byte) :=
  if c = chr '>' then
    (Filter.filteredTag cfg { s with curState := .intext }).map
      fun r => (r.1, l + 1, r.2)
  else
    some (Filter.addtagbuf { s with curState := .intag } c, start, [])

/-
  One turn of the loop of `htmlfilter`: the character at `l`
  of the chunk.  The result has the filter, the new `start`
  and the output.
-/
def Filter.htmlStep (cfg : Config) (p : List Byte) (s : Filter) (l start : Nat) (c : Byte) :
    Option (Filter × Nat × List Byte) :=
  match s.curState with
  | .intext =>
    if c = chr '>' then
      some (s, l + 1, chunkPart p start l ++ bytes "&nbsp;")
    else if c = chr '<' then
      some ({ s with curState := .seenlt, tagbuflen := 0 }, start, s.unstyled (chunkPart p start l))
    else
      some (s, start, [])
  | .seenlt =>
    if c = chr '>' then
      some ({ s with curState := .intext }, l + 1, s.unstyled (bytes "<>"))
    else if isspace c then
      some (s, start, [])
    else if c = chr '!' then
      some (Filter.addtagbuf { s with curState := .seenltbang } c, start, [])
    else if c ≠ chr '/' && !isalpha c then
      some ({ s with curState := .intext }, l + 1, [])
    else
      some (Filter.addtagbuf { s with curState := .intag } c, start, [])
  | .intag => s.doIntag cfg l start c
  | .seenltbang =>
    if c ≠ chr '-' then
      s.doIntag cfg l start c
    else
      some ({ s.addtagbuf c with curState := .seenltbangdash }, start, [])
  | .seenltbangdash =>
    if c ≠ chr '-' then
      s.doIntag cfg l start c
    else
      some ({ s with curState := .incomment }, l + 1,
        s.unstyled (bytes "<!--"))
  | .incomment =>
    some ({ s with
      curState :=
        if c = chr '-' then .incommentseendash else .incomment },
      start, [])
  | .incommentseendash =>
    some ({ s with
      curState :=
        if c = chr '-' then .incommentseendashdash else .incomment },
      start, [])
  | .incommentseendashdash =>
    if c = chr '-' then
      some (s, start, [])
    else if c ≠ chr '>' then
      some ({ s with curState := .incomment }, start, [])
    else
      some ({ s with curState := .intext }, l + 1, s.unstyled (chunkPart p start (l + 1)))

/- What is passed along at the end of a chunk. -/
def Filter.chunkEnd (p : List Byte) (s : Filter) (l start : Nat) : List Byte :=
  match s.curState with
  | .intext | .incomment | .incommentseendash | .incommentseendashdash =>
      s.unstyled (chunkPart p start l)
  | .seenlt | .seenltbang | .seenltbangdash | .intag => []

/- The loop of `htmlfilter` over what is left of a chunk. -/
def Filter.htmlLoop (cfg : Config) (p : List Byte) :
    List Byte → Filter → Nat → Nat → List Byte × Option Filter
  | [], s, l, start => (s.chunkEnd p l start, some s)
  | c :: rest, s, l, start =>
    match s.htmlStep cfg p l start c with
    | none => ([], none)
    | some (s, start, out) =>
      let more := s.htmlLoop cfg p rest (l + 1) start
      (out ++ more.1, more.2)

/- `htmlfilter`: the output, and the filter after it. -/
def Filter.htmlfilter (cfg : Config) (s : Filter) (p : List Byte) : List Byte × Option Filter :=
  s.htmlLoop cfg p p 0 0

/- One chunk after another. -/
def htmlfilterAll (cfg : Config) : List (List Byte) → Option Filter → List Byte
  | [], _ => []
  | _ :: _, none => []
  | p :: chunks, some s =>
    let more := s.htmlfilter cfg p
    more.1 ++ htmlfilterAll cfg chunks more.2

end Wmail.Sqwebmail
