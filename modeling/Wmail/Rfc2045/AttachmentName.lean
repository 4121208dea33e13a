import Wmail.Rfc2045.PastedText
import Wmail.Rfc2045.RootHeader

/-
  The name of an attachment, through the encoder, a header
  line, the MIME parser and the decoder.

  Key theorems include:
    * `parse_attachmentEntity`
    * `attachmentName_iff`
-/

namespace Wmail.Rfc2045

open Rfc822 Rfc2231

/-
  `rfc2231_decode`, with the flags for the results that are
  asked for.  The call of `rfc2231_paramDecode` that counts
  the lengths has no effect on what the second one stores.
-/
def rfc2231Decode (attrList : Attrs) (name : List Byte) (chsetPtr langPtr textPtr : Bool) :
    Decoded :=
  paramDecode (paramCreate attrList name) (if chsetPtr then some [] else none)
    (if langPtr then some [] else none)
    (if textPtr then some [] else none)

/- `rfc2231_decodeDisposition`. -/
def rfc2231DecodeDisposition (rfc : MimeInfo) (name : List Byte)
    (chsetPtr langPtr textPtr : Bool) : Decoded :=
  rfc2231Decode rfc.contentDispositionAttr name chsetPtr langPtr textPtr

/- The decoder on a parameter that is given once. -/
theorem rfc2231Decode_single {name attrName : List Byte}
    (hName : ofName name attrName = true) (value : List Byte) (chsetPtr langPtr : Bool) :
    (rfc2231Decode [(attrName, value)] name
      chsetPtr langPtr true).text.ptr =
      some ((joined [((paramOf name attrName value).encoded, value)]).text ++ [0]) := by
  have hNodes : paramCreate [(attrName, value)] name = [paramOf name attrName value] := by
    unfold paramCreate
    rw [List.foldl_cons, List.foldl_nil, buildAttrList, if_pos hName]
    rfl
  unfold rfc2231Decode
  rw [hNodes, paramDecode_params]
  rfl

/-
  A byte of the name of a character set or of a language: no
  white space, no NUL, and none of `()<>;"\'`.
-/
def isLabelByte (c : Byte) : Bool :=
  staysPut c && c ≠ chr ';' && c ≠ chr '\'' && c ≠ 0

/- The name of the attribute that the encoder gives. -/
def attrName (name value : List Byte) : List Byte :=
  if value.any attrDoencode then name ++ [chr '*'] else name

/- The value that the encoder gives. -/
def attrValue (value charset : List Byte) (language : CString) : List Byte :=
  if value.any attrDoencode then
    charset ++ chr '\'' :: (language.getD [] ++ chr '\'' :: encodedText value)
  else
    encodedText value

theorem attrText_eq (name value charset : List Byte) (language : CString) :
    attrText name value charset language = attrName name value ++ chr '=' ::
        attrValue value charset language := by
  unfold attrText attrName attrValue
  cases hEncode : value.any attrDoencode with
  | true => simp only [if_true, List.append_assoc, List.singleton_append]
  | false => simp only [Bool.false_eq_true, if_false, encodedText_plain hEncode]

/- A value that is labelled with names without quotes. -/
theorem labelled_quoted {charset language : List Byte} (hCharset : chr '\'' ∉ charset)
    (hLanguage : chr '\'' ∉ language) (text : List Byte) :
    labelled (charset ++ chr '\'' :: (language ++ chr '\'' :: text)) =
      ⟨charset, language, text⟩ := by
  have hCut : ∀ {front : List Byte}, chr '\'' ∉ front →
      ∀ rest, cutAtQuote (front ++ chr '\'' :: rest) = (front, rest) := by
    intro front hFront rest
    unfold cutAtQuote
    rw [takeWhile_quoted hFront, dropWhile_quoted hFront]
    rfl
  unfold labelled
  rw [hCut hCharset, hCut hLanguage, if_pos ⟨List.mem_append_right _ List.mem_cons_self,
      List.mem_append_right _ List.mem_cons_self⟩]

theorem isLabelByte_staysPut {c : Byte} (hByte : isLabelByte c = true) :
    staysPut c = true ∧ c ≠ chr ';' ∧ c ≠ chr '\'' ∧ c ≠ 0 := by
  unfold isLabelByte at hByte
  simpa [and_assoc] using hByte

theorem not_mem_of_label {text : List Byte} (hText : ∀ b, b ∈ text → isLabelByte b = true) :
    chr '\'' ∉ text :=
  fun hMem => (isLabelByte_staysPut (hText _ hMem)).2.2.1 rfl

section Value

variable {value charset : List Byte} {language : CString}

/-
  What the decoder makes of the pasted value is the value,
  if all of it came through the tokenizer.
-/
theorem decode_pasted (hCharset : ∀ b, b ∈ charset → isLabelByte b = true) (hLanguage :
      ∀ b, b ∈ language.getD [] → isLabelByte b = true) (chsetPtr langPtr : Bool) :
    (rfc2231Decode [(attrName (bytes "filename") value,
        pastedText false (attrValue value charset language))]
        (bytes "filename") chsetPtr langPtr true).text.ptr =
      some (value ++ [0]) ↔
    survives false value = true := by
  rcases pastedText_encodedText value false with ⟨kept, hKept, hSub, hIff⟩
  have hStored : ∀ text : List Byte, some (text ++ [0]) = some (value ++ [0]) ↔ text = value := by
    intro text
    rw [Option.some_inj, List.append_left_inj]
  unfold attrName attrValue
  cases hEncode : value.any attrDoencode with
  | true =>
    have hQuote : staysPut (chr '\'') = true := by decide
    have hFront : ∀ b, b ∈ charset ++ [chr '\''] ++ language.getD [] ++ [chr '\''] →
        staysPut b = true := by
      intro b hMem
      simp only [List.mem_append, List.mem_singleton] at hMem
      rcases hMem with ((hIn | rfl) | hIn) | rfl
      · exact (isLabelByte_staysPut (hCharset b hIn)).1
      · exact hQuote
      · exact (isLabelByte_staysPut (hLanguage b hIn)).1
      · exact hQuote
    have hPasted := pastedText_append hFront false (encodedText value)
    simp only [List.append_assoc, List.cons_append, List.nil_append, hKept] at hPasted
    have hText : (joined [(true, charset ++ chr '\'' :: (language.getD [] ++ chr '\'' ::
          encodedText kept))]).text = kept := by
      unfold joined firstLabelled contentOf
      simp only [if_true, List.flatMap_nil, List.append_nil]
      rw [labelled_quoted (not_mem_of_label hCharset) (not_mem_of_label hLanguage),
        percentDecoded_encodedText]
    rw [if_pos rfl, if_pos rfl, hPasted, rfc2231Decode_single (by decide)]
    change some ((joined [(true, _)]).text ++ [0]) = _ ↔ _
    rw [hText, hStored, hIff]
  | false =>
    have hPlain : kept.any attrDoencode = false := by
      rw [List.any_eq_false] at hEncode ⊢
      exact fun b hMem => hEncode b (hSub.subset hMem)
    rw [if_neg Bool.false_ne_true, if_neg Bool.false_ne_true, hKept, encodedText_plain hPlain,
      rfc2231Decode_single (by decide)]
    change some ((joined [(false, kept)]).text ++ [0]) = _ ↔ _
    rw [← hIff, ← hStored]
    unfold joined firstLabelled contentOf
    simp

end Value

------------
-- The Header Line
------------

/- The header line for a parameter. -/
def dispositionHeader (attr : List Byte) : List Byte :=
  bytes "Content-Disposition: attachment; " ++ attr

theorem pasteTokens_atom (text rest : List Byte) :
    pasteTokens [⟨0, text ++ rest, text.length⟩] = text := by
  rw [pasteTokens_text (Or.inl rfl), List.take_left]

/- An atom that a character of its own follows. -/
theorem scanText_word (atom : List Byte) (hAtom : atom.all isAtomChar = true)
    (hSome : atom ≠ []) (c : Byte) (hSpecial : inPiece c = true) (inbracket : Bool)
    (rest : List Byte) :
    scanText inbracket (atom ++ c :: rest) = ⟨0, atom ++ c :: rest, atom.length⟩ ::
        ⟨c, c :: rest, 1⟩ :: scanText inbracket rest := by
  rcases inPiece_classes c hSpecial with ⟨_, _, _, _, _, _, _, hNoAtom, _⟩
  rw [scanText_atom (List.all_eq_true.mp hAtom) hSome, scanText_special hSpecial]
  intro b hHead
  rw [← Option.some.inj hHead]
  exact hNoAtom

/- The tokens of the header line. -/
theorem scanText_header {attr : List Byte} (hAttr : attr.all isAtomChar = true)
    (hSome : attr ≠ []) (value : List Byte) :
    ∃ after₁ after₂ after₃, scanText false (dispositionHeader (attr ++ chr '=' :: value)) =
        ⟨0, bytes "Content-Disposition" ++ after₁, (bytes "Content-Disposition").length⟩ ::
        ⟨chr ':', after₁, 1⟩ ::
        ⟨0, bytes "attachment" ++ after₂, (bytes "attachment").length⟩ ::
        ⟨chr ';', after₂, 1⟩ ::
        ⟨0, attr ++ after₃, attr.length⟩ ::
        ⟨chr '=', after₃, 1⟩ :: scanText false value := by
  have hTitle := scanText_word (bytes "Content-Disposition")
    (by decide) (by decide) (chr ':') (by decide) false
  have hType := scanText_word (bytes "attachment") (by decide)
    (by decide) (chr ';') (by decide) false
  have hParam := scanText_word attr hAttr hSome (chr '=') (by decide) false value
  have hBlank : isspace (chr ' ') = true := by decide
  have hLine : dispositionHeader (attr ++ chr '=' :: value) =
      bytes "Content-Disposition" ++ chr ':' :: chr ' ' ::
        (bytes "attachment" ++ chr ';' :: chr ' ' :: (attr ++ chr '=' :: value)) := by
    have hStart : bytes "Content-Disposition: attachment; " =
        bytes "Content-Disposition" ++ chr ':' :: chr ' ' ::
          (bytes "attachment" ++ [chr ';', chr ' ']) := by
      decide
    unfold dispositionHeader
    simp only [hStart, List.append_assoc, List.cons_append, List.nil_append]
  rw [hLine, hTitle, scanText_space hBlank, hType, scanText_space hBlank, hParam]
  exact ⟨_, _, _, rfl⟩

/- The loop over the parameters, where there is one. -/
theorem parseParameters_single {α : Type} (inReformime : Bool)
    (initParameter : α → List Byte → List Token → α) (fuel : Nat) (r : α)
    {first equals : Token} {value : List Token} (hFirst : first.token ≠ chr ';')
    (hEquals : equals.token = chr '=') (hValue : ∀ t, t ∈ value → t.token ≠ chr ';')
    (hQuoted : ∀ t ts, value = t :: ts → t.token = chr '"' → ts = []) :
    parseParameters inReformime initParameter (fuel + 1) r (first :: equals :: value) =
      initParameter r (lowerPasteTokens [first]) value := by
  have hAll : ∀ t, t ∈ first :: equals :: value → (t.token != chr ';') = true := by
    intro t hMem
    rw [bne_iff_ne]
    rcases List.mem_cons.mp hMem with rfl | hMem
    · exact hFirst
    · rcases List.mem_cons.mp hMem with rfl | hIn
      · rw [hEquals]
        decide
      · exact hValue t hIn
  have hWhole : (first :: equals :: value).takeWhile
      (·.token != chr ';') = first :: equals :: value := by
    rw [List.takeWhile_eq_self_iff]
    exact hAll
  have hComments : (equals :: value).takeWhile (fun t => t.token = chr '(') = [] := by
    rw [List.takeWhile_cons_of_neg]
    rw [hEquals]
    decide
  -- a quoted string ends the value, and is all of it
  have hEnd : (if inReformime = true ∧ value.head?.map (·.token) = some (chr '"') then
        1 + 1 + 1
      else
        (first :: equals :: value).length) =
      (first :: equals :: value).length := by
    split
    · rename_i hBoth
      cases value with
      | nil => cases hBoth.2
      | cons t ts =>
        rw [hQuoted t ts rfl (Option.some.inj hBoth.2)]
        rfl
    · rfl
  have hNil : ∀ r, parseParameters inReformime initParameter fuel r [] = r := by
    intro r
    cases fuel <;> rfl
  rw [parseParameters]
  simp only [hWhole, List.take_length, List.drop_succ_cons, List.drop_zero, hComments,
    List.length_nil, Nat.add_zero, List.head?_cons, Option.map_some, hEquals, if_true]
  have hDone : (equals :: value).drop (first :: equals :: value).length = [] :=
    List.drop_eq_nil_of_le (Nat.le_succ _)
  rw [hEnd, List.take_length, hDone, hNil]
  rfl

variable {attr value : List Byte}

/-
  What the header line does to the fields of its part: the
  parameter gets the pasted text of its value.
-/
theorem doHeader_disposition (inReformime : Bool) (outer : List (List Byte)) (p : MimeInfo)
    (hAttr : attr.all isAtomChar = true) (hSome : attr ≠ []) (hZero : 0 ∉ attr)
    (hQuote : chr '"' ∉ value) (hSemicolon : chr ';' ∉ value) (hText : 0 ∉ value) :
    doHeader inReformime outer (dispositionHeader (attr ++ chr '=' :: value)) p =
      ({ p with
          contentDisposition := some (bytes "attachment")
          contentDispositionAttr :=
            setattr p.contentDispositionAttr (attr.map tolower) (pastedText false value) },
        false) := by
  have hNul : 0 ∉ dispositionHeader (attr ++ chr '=' :: value) := by
    unfold dispositionHeader
    rw [List.mem_append, List.mem_append, List.mem_cons]
    rintro (hIn | hIn | hIn | hIn)
    · revert hIn
      decide
    · exact hZero hIn
    · revert hIn
      decide
    · exact hText hIn
  have hValue : ∀ t, t ∈ scanText false value → t.token ≠ chr ';' := by
    intro t hMem hEq
    rcases token_mem hMem with hAtom | hIn
    · rw [hEq] at hAtom
      revert hAtom
      decide
    · exact hSemicolon (hEq ▸ hIn)
  rcases scanText_header hAttr hSome value with ⟨after₁, after₂, after₃, hTokens⟩
  have hTitle : lowerPasteTokens
      [⟨0, bytes "Content-Disposition" ++ after₁, (bytes "Content-Disposition").length⟩] =
      bytes "content-disposition" := by
    unfold lowerPasteTokens
    exact congrArg (List.map tolower) (pasteTokens_atom (bytes "Content-Disposition") after₁)
  have hType : lowerPasteTokens
      [⟨0, bytes "attachment" ++ after₂, (bytes "attachment").length⟩] =
      bytes "attachment" := by
    unfold lowerPasteTokens
    exact congrArg (List.map tolower) (pasteTokens_atom (bytes "attachment") after₂)
  have hParam : lowerPasteTokens
      [⟨0, attr ++ after₃, attr.length⟩] =
      attr.map tolower := by
    unfold lowerPasteTokens
    rw [pasteTokens_atom]
  unfold doHeader
  rw [tokenize_eq hNul, hTokens]
  simp only [hTitle]
  rw [if_neg (by simp), if_neg (by decide), if_neg (by decide), if_neg (by decide), if_pos trivial]
  unfold contentDisposition parseContentHeader
  have hAtom : ∀ {ptr : List Byte} {len : Nat}, (⟨0, ptr, len⟩ : Token).token ≠ chr ';' := by
    intro ptr len
    have hZero : (0 : Byte) ≠ chr ';' := by decide
    exact hZero
  have hFirst : ∀ ts : List Token, (⟨0, bytes "attachment" ++ after₂,
          (bytes "attachment").length⟩ ::
        ⟨chr ';', after₂, 1⟩ :: ts).takeWhile (·.token != chr ';') =
      [⟨0, bytes "attachment" ++ after₂, (bytes "attachment").length⟩] := by
    intro ts
    rw [List.takeWhile_cons_of_pos
        (p := fun t : Token => t.token != chr ';')
        (bne_iff_ne.mpr hAtom),
      List.takeWhile_cons_of_neg (by simp)]
  simp only [hFirst, hType, List.length_cons, List.length_nil, List.drop_succ_cons, List.drop_zero]
  rw [parseParameters_single inReformime _ _ _ hAtom rfl
    hValue fun t ts => quoted_last hQuote, hParam]
  rfl

/-
  An entity with an attachment: its header says that it is a
  MIME entity and what the attachment is called.
-/
def attachmentEntity (attr body : List Byte) : List Byte :=
  bytes "MIME-Version: 1.0" ++ nl :: (dispositionHeader attr ++ nl :: nl :: body)

/- The parser on the entity up to the end of its header. -/
theorem parse_attachmentHeader (rewriting inReformime : Bool)
    (hAttr : attr.all isAtomChar = true) (hSome : attr ≠ []) (hQuote : chr '"' ∉ value)
    (hSemicolon : chr ';' ∉ value)
    (hClean : ∀ b, b ∈ attr ++ chr '=' :: value → b ≠ 0 ∧ b ≠ nl ∧ b ≠ cr) {s : St}
    (hRead : (attachmentEntity (attr ++ chr '=' :: value)
      []).foldl parseByte (newParser rewriting inReformime) = s) :
    (s.part 0).workinheader = false ∧
      (s.part 0).contentDispositionAttr = [(attr.map tolower, pastedText false value)] := by
  have hSplit : attachmentEntity (attr ++ chr '=' :: value) [] =
      (bytes "MIME-Version: 1.0" ++ [nl]) ++
        ((dispositionHeader (attr ++ chr '=' :: value) ++ [nl]) ++ ([] ++ [nl])) := by
    unfold attachmentEntity
    simp only [List.append_assoc, List.cons_append, List.nil_append]
  have hHeader : ∀ b, b ∈ dispositionHeader (attr ++ chr '=' :: value) →
      b ≠ 0 ∧ b ≠ nl ∧ b ≠ cr := by
    intro b hMem
    rcases List.mem_append.mp hMem with hIn | hIn
    · have hTitle : (bytes "Content-Disposition: attachment; ").all
            (fun b => decide (b ≠ 0 ∧ b ≠ nl ∧ b ≠ cr)) = true := by
        decide
      exact of_decide_eq_true (List.all_eq_true.mp hTitle b hIn)
    · exact hClean b hIn
  rw [hSplit, List.foldl_append, List.foldl_append] at hRead
  generalize hFirst : (bytes "MIME-Version: 1.0" ++ [nl]).foldl
    parseByte (newParser rewriting inReformime) = s₁ at hRead
  generalize hSecond : (dispositionHeader (attr ++ chr '=' :: value) ++ [nl]).foldl parseByte s₁ =
      s₂ at hRead
  have hNew : (newParser rewriting inReformime).workbuf = [] := by
    cases rewriting <;> rfl
  rcases (newParser_inRootHeader rewriting inReformime).readLine
    hNew (by decide) (by decide) (by decide) (by decide) hFirst
    with ⟨hRoot₁, hWork₁, hLine₁, hInfo₁, hReformime₁⟩
  rcases hRoot₁.readLine hWork₁ (fun hMem => (hHeader _ hMem).2.1 rfl)
    (fun hMem => (hHeader _ hMem).1 rfl)
    (fun hMem => (hHeader _ hMem).2.2 rfl) rfl hSecond
    with ⟨hRoot₂, hWork₂, hLine₂, hInfo₂, hReformime₂⟩
  have hVersion : rootInfo s₁ =
      { Part.alloc.toMimeInfo with
          mimeVersion := some (bytes "1.0") } := by
    have hNone : rootInfo (newParser rewriting inReformime) = Part.alloc.toMimeInfo := by
      cases rewriting <;> rfl
    unfold rootInfo
    rw [hLine₁, hInfo₁, hNone]
    generalize s₁.inReformime = reformime
    cases reformime <;> decide
  have hFields : rootInfo s₂ =
      { Part.alloc.toMimeInfo with
          mimeVersion := some (bytes "1.0")
          contentDisposition := some (bytes "attachment")
          contentDispositionAttr :=
            [(attr.map tolower, pastedText false value)] } := by
    unfold rootInfo
    rw [hLine₂, hInfo₂, hVersion, doHeader_disposition _ _ _ hAttr hSome (fun hMem => (hClean _
          (List.mem_append_left _ hMem)).1 rfl)
        hQuote hSemicolon
        (fun hMem => (hClean _ (List.mem_append_right _ (List.mem_cons_of_mem _ hMem))).1 rfl)]
    rfl
  have hBlank : InRootHeader { s₂ with workbuf := [nl] } :=
    ⟨hRoot₂.alone, hRoot₂.parent, hRoot₂.lastpart, hRoot₂.inHeader, hRoot₂.few⟩
  rcases hBlank.headerEnd rfl with ⟨hDone, hInfo⟩
  have hSame : rootInfo { s₂ with workbuf := [nl] } = rootInfo s₂ := rfl
  rw [hSame, hFields] at hInfo
  rw [foldl_parseByte_line hWork₂ List.not_mem_nil, List.nil_append] at hRead
  rw [← hRead]
  exact ⟨hDone, congrArg MimeInfo.contentDispositionAttr hInfo⟩

/- The parser on the entity, and on anything behind it. -/
theorem parse_attachmentEntity (rewriting inReformime : Bool)
    (hAttr : attr.all isAtomChar = true) (hSome : attr ≠ []) (hQuote : chr '"' ∉ value)
    (hSemicolon : chr ';' ∉ value)
    (hClean : ∀ b, b ∈ attr ++ chr '=' :: value → b ≠ 0 ∧ b ≠ nl ∧ b ≠ cr) (body : List Byte)
    (calls : List Call) :
    ((runCalls
        (parse (newParser rewriting inReformime) (attachmentEntity (attr ++ chr '=' :: value) body))
        calls).part 0).contentDispositionAttr =
      [(attr.map tolower, pastedText false value)] := by
  have hSplit : attachmentEntity (attr ++ chr '=' :: value) body =
        attachmentEntity (attr ++ chr '=' :: value) [] ++ body := by
    unfold attachmentEntity
    simp only [List.append_assoc, List.cons_append, List.nil_append]
  have hWatched := watched_kept.bytes [] (newParser_watched rewriting inReformime)
    (attachmentEntity (attr ++ chr '=' :: value) [])
  rw [hSplit]
  unfold parse
  rw [List.foldl_append]
  generalize hRead : (attachmentEntity (attr ++ chr '=' :: value) []).foldl
      parseByte (newParser rewriting inReformime) = s
    at hWatched ⊢
  rcases parse_attachmentHeader rewriting inReformime hAttr
    hSome hQuote hSemicolon hClean hRead with
    ⟨hDone, hFields⟩
  have hKept := headerRead_kept 0 (s.part 0).toMimeInfo
  have hBytes := hKept.bytes _ ⟨hWatched, hWatched.tree.root_lt, hDone, rfl⟩ body
  dsimp only
  have hCalls : ∀ {fed t}, HeaderRead 0 (s.part 0).toMimeInfo t fed →
      ((runCalls t calls).part 0).contentDispositionAttr = (s.part 0).contentDispositionAttr :=
    fun hThere => congrArg MimeInfo.contentDispositionAttr (hKept.runCalls _ hThere calls).info
  split
  · exact (hCalls (hKept.rest hBytes)).trans hFields
  · exact (hCalls hBytes).trans hFields

------------
-- The Round Trip
------------

/- The string that is left in the buffer of the encoder. -/
def attrString (name value charset : List Byte) (language : CString) : List Byte :=
  ((attrCreate name value charset (some []) language).ptr.getD
    []).takeWhile (· ≠ 0)

/- A byte that a header line and its tokenizer leave alone. -/
def isClean (c : Byte) : Bool :=
  c ≠ 0 && !isspace c && c ≠ chr ';' && c ≠ chr '"'

theorem isClean_encodedByte : ∀ c : Byte, (encodedByte c).all isClean = true := by
  apply byte_forall
  decide +kernel

theorem isClean_label {c : Byte} (hByte : isLabelByte c = true) : isClean c = true := by
  rcases isLabelByte_staysPut hByte with ⟨hStays, hSemicolon, _, hZero⟩
  unfold isClean
  rcases Bool.or_eq_true_iff.mp hStays with hAtom | hSpecial
  · rcases isAtomChar_classes c hAtom with ⟨hSpace, _, hQuote, _⟩
    simp [hZero, hSpace, hSemicolon, hQuote]
  · rcases inPiece_classes c hSpecial with ⟨hSpace, _, hQuote, _⟩
    simp [hZero, hSpace, hSemicolon, hQuote]

section RoundTrip

variable {value charset : List Byte} {language : CString}

theorem isClean_attrValue (hCharset : ∀ b, b ∈ charset → isLabelByte b = true)
    (hLanguage : ∀ b, b ∈ language.getD [] → isLabelByte b = true) {b : Byte}
    (hMem : b ∈ attrValue value charset language) : isClean b = true := by
  have hText : ∀ b, b ∈ encodedText value → isClean b = true := by
    intro b hIn
    rcases List.mem_flatMap.mp hIn with ⟨c, _, hByte⟩
    exact List.all_eq_true.mp (isClean_encodedByte c) b hByte
  unfold attrValue at hMem
  split at hMem
  · simp only [List.mem_append, List.mem_cons] at hMem
    rcases hMem with hIn | rfl | hIn | rfl | hIn
    · exact isClean_label (hCharset b hIn)
    · decide
    · exact isClean_label (hLanguage b hIn)
    · decide
    · exact hText b hIn
  · exact hText b hMem

theorem attrName_cases (value : List Byte) : attrName (bytes "filename") value = bytes "filename*" ∨
      attrName (bytes "filename") value = bytes "filename" := by
  unfold attrName
  cases value.any attrDoencode with
  | true => exact Or.inl rfl
  | false => exact Or.inr rfl

theorem attrString_eq (hCharset : ∀ b, b ∈ charset → isLabelByte b = true)
    (hLanguage : ∀ b, b ∈ language.getD [] → isLabelByte b = true) :
    attrString (bytes "filename") value charset language =
      attrName (bytes "filename") value ++ chr '=' :: attrValue value charset language := by
  have hZero : 0 ∉ attrText (bytes "filename") value charset
      language := by
    rw [attrText_eq, List.mem_append, List.mem_cons]
    rintro (hIn | hIn | hIn)
    · rcases attrName_cases value with hName | hName
      all_goals
        rw [hName] at hIn
        revert hIn
        decide
    · revert hIn
      decide
    · have hByte := isClean_attrValue hCharset hLanguage hIn
      revert hByte
      decide
  unfold attrString
  rw [attrCreate_eq, ← attrText_eq]
  exact takeWhile_quoted hZero []

/- Whether the decoder gives back the name of an attachment. -/
def NameComesBack (s : St) (value : List Byte) (chsetPtr langPtr : Bool) : Prop :=
  (rfc2231DecodeDisposition (s.part 0).toMimeInfo
    (bytes "filename") chsetPtr langPtr true).text.ptr = some (value ++ [0])

instance (s : St) (value : List Byte) (chsetPtr langPtr : Bool) :
    Decidable (NameComesBack s value chsetPtr langPtr) :=
  inferInstanceAs (Decidable (_ = _))

/- What the parser keeps of the parameter that is written. -/
theorem parse_attrString (hCharset : ∀ b, b ∈ charset → isLabelByte b = true) (hLanguage :
      ∀ b, b ∈ language.getD [] → isLabelByte b = true) (rewriting inReformime : Bool)
    (body : List Byte) (calls : List Call) :
    ((runCalls
        (parse (newParser rewriting inReformime)
          (attachmentEntity
            (attrString (bytes "filename") value charset language)
            body))
        calls).part 0).contentDispositionAttr =
      [(attrName (bytes "filename") value,
        pastedText false (attrValue value charset language))] := by
  have hAll : (attrName (bytes "filename") value).all
      (fun b => decide (isAtomChar b = true ∧ b ≠ 0 ∧
        b ≠ nl ∧ b ≠ cr ∧ tolower b = b)) = true := by
    rcases attrName_cases value with hEq | hEq
    all_goals
      rw [hEq]
      decide
  have hName := fun b hMem => of_decide_eq_true (List.all_eq_true.mp hAll b hMem)
  have hSome : attrName (bytes "filename") value ≠ [] := by
    rcases attrName_cases value with hEq | hEq
    all_goals
      rw [hEq]
      decide
  have hLower : (attrName (bytes "filename") value).map tolower =
        attrName (bytes "filename") value := by
    refine (List.map_congr_left fun b hMem => ?_).trans (List.map_id _)
    exact (hName b hMem).2.2.2.2
  have hValue : ∀ {b}, isClean b = false → b ∉ attrValue value charset language := by
    intro b hNot hMem
    rw [isClean_attrValue hCharset hLanguage hMem] at hNot
    cases hNot
  rw [attrString_eq hCharset hLanguage, parse_attachmentEntity rewriting inReformime
      (List.all_eq_true.mpr fun b hMem => (hName b hMem).1)
      hSome
      (hValue (by decide)) (hValue (by decide)) ?_ body calls,
    hLower]
  intro b hMem
  rcases List.mem_append.mp hMem with hIn | hIn
  · have hByte := hName b hIn
    exact ⟨hByte.2.1, hByte.2.2.1, hByte.2.2.2.1⟩
  · have hIs : ∀ {c}, isClean c = false → c ≠ chr '=' → b ≠ c := by
      rintro c hNot hOther rfl
      rcases List.mem_cons.mp hIn with hEq | hLater
      · exact hOther hEq
      · exact hValue hNot hLater
    exact ⟨hIs (by decide) (by decide), hIs (by decide) (by decide), hIs (by decide) (by decide)⟩

/-
  The name of an attachment comes back from the parser and the
  decoder exactly when it comes through the tokenizer.
-/
theorem attachmentName_iff (rewriting inReformime : Bool)
    (hCharset : ∀ b, b ∈ charset → isLabelByte b = true)
    (hLanguage : ∀ b, b ∈ language.getD [] → isLabelByte b = true) (body : List Byte)
    (calls : List Call) (chsetPtr langPtr : Bool) :
    NameComesBack (runCalls (parse (newParser rewriting inReformime) (attachmentEntity
              (attrString (bytes "filename") value charset
                language)
              body))
          calls)
        value chsetPtr langPtr ↔
      survives false value = true := by
  unfold NameComesBack rfc2231DecodeDisposition
  rw [parse_attrString hCharset hLanguage]
  exact decode_pasted hCharset hLanguage chsetPtr langPtr

theorem noLanguage : ∀ b, b ∈ (none : CString).getD [] → isLabelByte b = true := by
  intro b hMem
  cases hMem

/- A name with a blank and a part in brackets. -/
theorem attachmentName_brackets : NameComesBack (runCalls (parse (newParser false false)
          (attachmentEntity
            (attrString (bytes "filename") (bytes "a <b>")
              (bytes "utf-8") none)
            (bytes "text\n")))
        [.parsePartial])
      (bytes "a <b>") true true :=
  (attachmentName_iff false false
    (List.all_eq_true.mp (by decide)) noLanguage
    (bytes "text\n") [.parsePartial] true true).mpr (by decide)

/- The parentheses of a name are read as a comment. -/
theorem not_attachmentName : ¬ ∀ (value charset : List Byte) (language : CString), 0 ∉ value →
      (∀ b, b ∈ charset → isLabelByte b = true) →
      (∀ b, b ∈ language.getD [] → isLabelByte b = true) →
      NameComesBack (runCalls (parse (newParser false false) (attachmentEntity
              (attrString (bytes "filename") value charset
                language)
              []))
          [.parsePartial])
        value true true := by
  intro hAll
  have hCharset : ∀ b, b ∈ bytes "utf-8" → isLabelByte b = true := List.all_eq_true.mp (by decide)
  have hThis := hAll (bytes "report (1).txt") (bytes "utf-8") none (by decide) hCharset noLanguage
  unfold NameComesBack rfc2231DecodeDisposition at hThis
  rw [parse_attrString hCharset noLanguage, decode_pasted hCharset noLanguage] at hThis
  revert hThis
  decide

end RoundTrip

end Wmail.Rfc2045
