import Wmail.Rfc2045.PartIds

/-
  The check whether a message should be rewritten, which
  chooses new transfer encodings (rfc2045acchk.c).

  Key theorems include:
    * `acCheck_samePlaces`
    * `endbody_checkedMessage_le`
-/

namespace Wmail.Rfc2045

/- The values of `rwmode`. -/
inductive RwMode where
  | plain
  /- `RFC2045_RW_7BIT` -/
  | bit7
  /- `RFC2045_RW_8BIT` -/
  | bit8
deriving DecidableEq, Repr

/- A part without a content type is plain text. -/
def acType (p : Part) : Part × Bool :=
  if isMime1Def p.mimeVersion ∧ p.contentType = none then
    ({ p with contentType := some (bytes "text/plain") }, p.mimeVersion.isSome)
  else
    (p, false)

/- `strncasecmp(p->content_type, "text/", 5) == 0`. -/
def isText (contentType : CString) : Bool :=
  match contentType with
  | none => false
  | some t => casePrefix (bytes "text/") t

/-
  Text without a character set gets `charset`, the result of
  `rfc2045_getdefaultcharset`.
-/
def acCharset (charset : List Byte) (leaf : Bool) (p : Part) : Part × Bool :=
  if isMime1Def p.mimeVersion ∧ getattr p.contentTypeAttr (bytes "charset") = none ∧
      isText p.contentType then
    ({ p with
        contentTypeAttr :=
          setattr p.contentTypeAttr (bytes "charset") charset },
      p.mimeVersion.isSome && leaf)
  else
    (p, false)

/- The encoding of unencoded contents. -/
def plainEncoding (hasnon7bit : Bool) : List Byte :=
  if hasnon7bit then bytes "8bit" else bytes "7bit"

/- A part without a transfer encoding is not encoded. -/
def acEncoding (hasnon7bit leaf : Bool) (p : Part) : Part × Bool :=
  if isMime1Def p.mimeVersion ∧ p.contentTransferEncoding = none then
    ({ p with
        contentTransferEncoding :=
          some (plainEncoding hasnon7bit) },
      p.mimeVersion.isSome && leaf)
  else
    (p, false)

/- `is8bitte`. -/
def is8bitte (te : List Byte) : Bool :=
  let te := te.map tolower
  te ≠ bytes "base64" ∧ te ≠ bytes "quoted-printable" ∧ te ≠ bytes "uuencode" ∧ te ≠ bytes "7bit"

/- Assign to `rw_transfer_encoding`. -/
def Part.recode (te : List Byte) (p : Part) : Part :=
  { p with rwTransferEncoding := some te }

/- The contents turn out to have seven bits only. -/
def acReduce (te : List Byte) (p : Part) : Part × Bool :=
  if is8bitte te ∧ !p.has8bitchars ∧ !p.haslongline then
    (p.recode (bytes "7bit"), true)
  else
    (p, false)

/-
  The check for conversions.  By now the part has a transfer
  encoding.
-/
def acConvert (mode : RwMode) (hasnon7bit : Bool) (p : Part) : Part × Bool :=
  match isMime1Def p.mimeVersion, p.contentTransferEncoding with
  | true, some te =>
    let (p, reduced) := acReduce te p
    let is8bitte := is8bitte te && !reduced
    if mode = .bit7 ∧ (is8bitte ∨ p.haslongline) then
      (p.recode (bytes "quoted-printable"), true)
    else if mode = .bit8 ∧ te.map tolower = bytes "quoted-printable" ∧ !p.haslongline then
      (p.recode (plainEncoding hasnon7bit), true)
    else
      (p, reduced)
  | _, _ => (p, false)

/- A part without a version gets one. -/
def acVersion (p : Part) : Part :=
  if p.mimeVersion = none then { p with mimeVersion := some (bytes "1.0") } else p

/- All checks of one part, after those of the parts in it. -/
def acSection (charset : List Byte) (mode : RwMode) (hasnon7bit leaf : Bool) (p : Part) :
    Part × Bool :=
  let (p, typed) := acType p
  let (p, named) := acCharset charset leaf p
  let (p, encoded) := acEncoding hasnon7bit leaf p
  let (p, converted) := acConvert mode hasnon7bit p
  (acVersion p, typed || named || encoded || converted)

/- A transfer encoding that makes `hasnon7bit` true. -/
def isNon7bit (te : CString) : Bool :=
  match te with
  | none => false
  | some te => te ≠ bytes "7bit" ∧ te ≠ bytes "uuencode" ∧ te ≠ bytes "quoted-printable"

/-
  The loop body over the parts inside `p`: the state,
  `hasnon7bit` and `flag`.
-/
def acSubpart (check : St → Nat → St × Bool) (p : Nat) (r : St × Bool × Bool) (c : Nat) :
    St × Bool × Bool :=
  if (r.1.part c).isdummy then
    r
  else
    let (s, suggested) := check r.1 c
    let part := s.part c
    let marked :=
      if part.has8bitchars then s.setPart p fun q => { q with has8bitchars := true } else s
    (marked, r.2.1 || isNon7bit part.contentTransferEncoding, r.2.2 || suggested)

/- `rfc2045_ac_check`, at most `depth` levels deep. -/
def acCheck (charset : List Byte) (mode : RwMode) : Nat → St → Nat → St × Bool
  | 0, s, _ => (s, false)
  | depth + 1, s, p =>
    let (s, hasnon7bit, flag) :=
      (s.subparts p).foldl
        (acSubpart (acCheck charset mode depth) p)
        (s, (s.part p).has8bitchars, false)
    let checked := acSection charset mode hasnon7bit (s.subparts p).isEmpty
    (s.setPart p fun q => (checked q).1, flag || (checked (s.part p)).2)

/- `rfc2045_ac_check` for a whole message. -/
def rfc2045AcCheck (charset : List Byte) (mode : RwMode) (s : St) : St × Bool :=
  acCheck charset mode s.parts.length s 0

/- The links of a part and its places in the message. -/
abbrev Part.places (p : Part) : PartLinks × PartCounts :=
  (p.toPartLinks, p.toPartCounts)

section Frame

variable {charset : List Byte} {mode : RwMode}

theorem places_acType (p : Part) : (acType p).1.places = p.places := by
  unfold acType
  split
  · rfl
  · rfl

theorem places_acCharset (leaf : Bool) (p : Part) :
    (acCharset charset leaf p).1.places = p.places := by
  unfold acCharset
  split
  · rfl
  · rfl

theorem places_acEncoding (hasnon7bit leaf : Bool) (p : Part) :
    (acEncoding hasnon7bit leaf p).1.places = p.places := by
  unfold acEncoding
  split
  · rfl
  · rfl

theorem places_acReduce (te : List Byte) (p : Part) : (acReduce te p).1.places = p.places := by
  unfold acReduce
  split
  · rfl
  · rfl

theorem places_acConvert (hasnon7bit : Bool) (p : Part) :
    (acConvert mode hasnon7bit p).1.places = p.places := by
  unfold acConvert
  split
  · rename_i te _ _
    have hReduce := places_acReduce te p
    generalize acReduce te p = r at hReduce ⊢
    simp only []
    split
    · exact hReduce
    · split
      · exact hReduce
      · exact hReduce
  · rfl

theorem places_acVersion (p : Part) : (acVersion p).places = p.places := by
  unfold acVersion
  split
  · rfl
  · rfl

/- The checks of a part do not move it. -/
theorem places_acSection (hasnon7bit leaf : Bool) (p : Part) :
    (acSection charset mode hasnon7bit leaf p).1.places = p.places :=
  (places_acVersion _).trans <|
    (places_acConvert hasnon7bit _).trans <|
      (places_acEncoding hasnon7bit leaf _).trans <|
        (places_acCharset leaf _).trans (places_acType p)

theorem acSubpart_samePlaces {check : St → Nat → St × Bool}
    (hCheck : ∀ s c, SamePlaces s (check s c).1) (p : Nat) (r : St × Bool × Bool)
    (c : Nat) : SamePlaces r.1 (acSubpart check p r c).1 := by
  unfold acSubpart
  simp only []
  split
  · exact Keeps.refl r.1
  · apply (hCheck r.1 c).trans
    show SamePlaces _ (if _ then _ else _)
    split
    · exact Keeps.setPart _ p fun _ => rfl
    · exact Keeps.refl _

/- The tree and the places of the parts stay as they are. -/
theorem acCheck_samePlaces (depth : Nat) (s : St) (p : Nat) :
    SamePlaces s (acCheck charset mode depth s p).1 := by
  induction depth generalizing s p with
  | zero => exact Keeps.refl s
  | succ depth ih =>
    have hLoop : ∀ (parts : List Nat) (r : St × Bool × Bool), SamePlaces r.1 (parts.foldl
          (acSubpart (acCheck charset mode depth) p) r).1 := by
      intro parts
      induction parts with
      | nil =>
        intro r
        exact Keeps.refl r.1
      | cons c rest ihRest =>
        intro r
        exact (acSubpart_samePlaces ih p r c).trans (ihRest _)
    have hParts := hLoop (s.subparts p) (s, (s.part p).has8bitchars, false)
    exact hParts.trans (Keeps.setPart _ p (places_acSection _ _))

end Frame

/- The tree of a message, as the rewriter gets it. -/
def checkedMessage (charset : List Byte) (mode : RwMode) (rewriting inReformime : Bool)
    (calls : List Call) : St :=
  (rfc2045AcCheck charset mode
    (runCalls (newParser rewriting inReformime) calls)).1

/- The body of every part is in the message. -/
theorem endbody_checkedMessage_le (charset : List Byte) (mode : RwMode)
    (rewriting inReformime : Bool) (calls : List Call) (i : Nat) :
    ((checkedMessage charset mode rewriting inReformime calls).part i).endbody ≤
      (calls.flatMap Call.input).length := by
  have hSame : SamePlaces _ (checkedMessage charset mode rewriting inReformime calls) :=
    acCheck_samePlaces _ _ 0
  rw [congrArg PartCounts.endbody (hSame.counts i)]
  exact endbody_le rewriting inReformime calls i

end Wmail.Rfc2045
