import Wmail.Rfc2045.Rfc2231
import Mathlib.Data.List.TakeWhile

/-
  The value of a parameter from its segments, in whatever
  order they come.

  Key theorems include:
    * `paramDecode_params`
    * `paramDecode_segments`
-/

namespace Wmail.Rfc2231

open Rfc2045 (Attrs CString)

/- A segment of a parameter, with the number it is given. -/
structure Segment where
  digits : List Byte
  encoded : Bool
  value : List Byte
  isDigits : ∀ b, b ∈ digits → isdigit b = true
  nonempty : digits ≠ []
  bounded : decimalValue digits < 2 ^ 31 - 1

/- The number of a segment. -/
def Segment.number (s : Segment) : Nat :=
  decimalValue s.digits

/- The attribute that gives a segment: `name*n` or `name*n*`. -/
def Segment.attr (name : List Byte) (s : Segment) : List Byte × List Byte :=
  (name ++ chr '*' :: (s.digits ++ if s.encoded then [chr '*'] else []), s.value)

/- Two digits behind each percent sign stand for one byte. -/
def percentDecoded : List Byte → List Byte
  | [] => []
  | [b] => [b]
  | [b, c] => [b, c]
  | b :: c :: d :: p =>
    if b = chr '%' then
      UInt8.ofNat (nyb c * 16 + nyb d) :: percentDecoded p
    else
      b :: percentDecoded (c :: d :: p)

/- What a text of a segment stands for. -/
def contentOf (encoded : Bool) (p : List Byte) : List Byte :=
  if encoded then percentDecoded p else p

/- The bytes up to the first quote, and those behind it. -/
def cutAtQuote (p : List Byte) : List Byte × List Byte :=
  (p.takeWhile (· ≠ chr '\''), (p.dropWhile (· ≠ chr '\'')).drop 1)

/- A value with its character set and language, or without. -/
structure Labelled where
  charset : List Byte
  lang : List Byte
  text : List Byte
deriving DecidableEq, Repr

/- The two labels are there when two quotes are. -/
def labelled (p : List Byte) : Labelled :=
  if chr '\'' ∈ p ∧ chr '\'' ∈ (cutAtQuote p).2 then
    ⟨(cutAtQuote p).1, (cutAtQuote (cutAtQuote p).2).1, (cutAtQuote (cutAtQuote p).2).2⟩
  else
    ⟨[], [], p⟩

/- The labels of the first segment, and what is behind them. -/
def firstLabelled (encoded : Bool) (p : List Byte) : Labelled :=
  if encoded then labelled p else ⟨[], [], p⟩

/- The value of a parameter in the order of its segments. -/
def joined : List (Bool × List Byte) → Labelled
  | [] => ⟨[], [], []⟩
  | (encoded, p) :: rest =>
    let first := firstLabelled encoded p
    { first with
      text := contentOf encoded first.text ++ rest.flatMap fun s => contentOf s.1 s.2 }

/- The value that segments stand for, in their order. -/
def joinedSegments (segments : List Segment) : Labelled :=
  joined (segments.map fun s => (s.encoded, s.value))

------------
-- What the Decoder Stores
------------

/- A text is stored, if there is a buffer, and counted. -/
def Stored.puts (f : Stored) (text : List Byte) : Stored where
  ptr := f.ptr.map (· ++ text)
  len := f.len + text.length

theorem Stored.puts_nil (f : Stored) : f.puts [] = f := by
  unfold Stored.puts
  simp

theorem Stored.puts_cons (f : Stored) (b : Byte) (text : List Byte) :
    f.puts (b :: text) = (f.put b).puts text := by
  unfold Stored.puts Stored.put
  simp only [Option.map_map, List.length_cons]
  congr 1
  · congr 1
    funext buf
    simp
  · omega

theorem Stored.puts_append (f : Stored) (text more : List Byte) :
    f.puts (text ++ more) = (f.puts text).puts more := by
  induction text generalizing f with
  | nil => rw [List.nil_append, Stored.puts_nil]
  | cons b text ih => rw [List.cons_append, Stored.puts_cons, Stored.puts_cons, ih]

theorem copyText_eq (encoded : Bool) (f : Stored) (p : List Byte) :
    copyText encoded f p = f.puts (contentOf encoded p) := by
  fun_induction copyText encoded f p with
  | case1 f => rw [contentOf, percentDecoded, ite_self, Stored.puts_nil]
  | case2 f b => rw [contentOf, percentDecoded, ite_self, Stored.puts_cons, Stored.puts_nil]
  | case3 f b c =>
    rw [contentOf, percentDecoded, ite_self, Stored.puts_cons, Stored.puts_cons, Stored.puts_nil]
  | case4 f b c d p hEscape ih =>
    rw [ih, contentOf, contentOf, if_pos hEscape.2, if_pos hEscape.2, percentDecoded,
      if_pos hEscape.1, Stored.puts_cons]
  | case5 f b c d p hOther ih =>
    rw [ih]
    unfold contentOf
    by_cases hEncoded : encoded = true
    · have hPlain : b ≠ chr '%' := fun hEq => hOther ⟨hEq, hEncoded⟩
      rw [if_pos hEncoded, if_pos hEncoded, percentDecoded, if_neg hPlain, Stored.puts_cons]
    · rw [if_neg hEncoded, if_neg hEncoded]
      exact (Stored.puts_cons f b _).symm

theorem copyToQuote_eq (f : Stored) (p : List Byte) :
    copyToQuote f p = (f.puts (p.takeWhile (· ≠ chr '\'')), p.dropWhile (· ≠ chr '\'')) := by
  induction p generalizing f with
  | nil =>
    rw [copyToQuote, List.takeWhile_nil, Stored.puts_nil]
    rfl
  | cons b p ih =>
    rw [copyToQuote]
    by_cases hQuote : b = chr '\''
    · have hStop : ¬ decide (b ≠ chr '\'') = true := by
        rw [decide_eq_true_iff]
        exact not_not_intro hQuote
      rw [if_pos hQuote, List.takeWhile_cons_of_neg (p := fun b => decide (b ≠ chr '\'')) hStop,
        List.dropWhile_cons_of_neg
        (p := fun b => decide (b ≠ chr '\'')) hStop,
        Stored.puts_nil]
    · have hMore : decide (b ≠ chr '\'') = true := decide_eq_true hQuote
      rw [if_neg hQuote, ih, List.takeWhile_cons_of_pos (p := fun b => decide (b ≠ chr '\'')) hMore,
        List.dropWhile_cons_of_pos
        (p := fun b => decide (b ≠ chr '\'')) hMore,
        Stored.puts_cons]

/- `strchr` finds what a list has behind the bytes before it. -/
theorem strchr_eq (p : List Byte) (c : Byte) : strchr p c =
      if c ∈ p then some (p.dropWhile (· ≠ c)) else none := by
  induction p with
  | nil => rfl
  | cons b p ih =>
    rw [strchr]
    by_cases hFound : b = c
    · have hStop : ¬ decide (b ≠ c) = true := by
        rw [decide_eq_true_iff]
        exact not_not_intro hFound
      rw [if_pos hFound, List.dropWhile_cons_of_neg (p := fun b => decide (b ≠ c)) hStop, hFound,
        if_pos List.mem_cons_self]
    · have hMore : decide (b ≠ c) = true := decide_eq_true hFound
      have hMem : c ∈ b :: p ↔ c ∈ p := by
        rw [List.mem_cons]
        constructor
        · rintro (hEq | hLater)
          · exact absurd hEq.symm hFound
          · exact hLater
        · exact Or.inr
      rw [if_neg hFound, ih, List.dropWhile_cons_of_pos (p := fun b => decide (b ≠ c)) hMore]
      simp only [hMem]

theorem strchr_isSome (p : List Byte) (c : Byte) : (strchr p c).isSome = decide (c ∈ p) := by
  rw [strchr_eq]
  by_cases hMem : c ∈ p
  · rw [if_pos hMem, decide_eq_true hMem]
    rfl
  · rw [if_neg hMem, decide_eq_false hMem]
    rfl

/- What is stored of the labels of a value. -/
theorem copyPrefix_eq (d : Decoded) (p : List Byte) :
    copyPrefix d p = (⟨d.charset.puts (labelled p).charset, d.lang.puts (labelled p).lang, d.text⟩,
        (labelled p).text) := by
  have hTail : ∀ q, (p.dropWhile (· ≠ chr '\'')).drop 1 = q →
      (cutAtQuote p).2 = q := fun q hEq => hEq
  unfold copyPrefix labelled
  rw [strchr_eq]
  by_cases hFirst : chr '\'' ∈ p
  · rw [if_pos hFirst]
    cases hRest : p.dropWhile (· ≠ chr '\'') with
    | nil =>
      have hNone := List.dropWhile_eq_nil_iff.mp hRest _ hFirst
      exact absurd rfl (of_decide_eq_true hNone)
    | cons b q =>
      have hCut : (cutAtQuote p).2 = q := hTail q (by rw [hRest]; rfl)
      rw [hCut]
      change (if (strchr q (chr '\'')).isSome = true then _
        else _) = _
      rw [strchr_isSome]
      by_cases hSecond : chr '\'' ∈ q
      · rw [if_pos (decide_eq_true hSecond), if_pos ⟨hFirst, hSecond⟩, copyToQuote_eq, hRest]
        change (Decoded.mk _ (copyToQuote d.lang q).1 d.text, (copyToQuote d.lang q).2.drop 1) = _
        rw [copyToQuote_eq]
        rfl
      · rw [if_neg (fun hEq =>
          hSecond (of_decide_eq_true hEq)),
          if_neg fun hBoth => hSecond hBoth.2]
        simp only [Stored.puts_nil]
  · rw [if_neg hFirst, if_neg fun hBoth => hFirst hBoth.1]
    simp only [Stored.puts_nil]

/- The texts of the segments behind the first one. -/
theorem decodeParams_rest (d : Decoded) (params : List Rfc2231param) : decodeParams false d params =
      { d with
        text := d.text.puts (params.flatMap fun param =>
          contentOf param.encoded param.value) } := by
  induction params generalizing d with
  | nil => rw [decodeParams, List.flatMap_nil, Stored.puts_nil]
  | cons param params ih =>
    rw [decodeParams]
    change decodeParams false _ params = _
    rw [ih, List.flatMap_cons, Stored.puts_append, copyText_eq]

/- The labels of the first segment, and all the texts. -/
theorem decodeParams_first (d : Decoded) (params : List Rfc2231param) :
    decodeParams true d params = (let all := joined (params.map fun param =>
        (param.encoded, param.value))
      ⟨d.charset.puts all.charset, d.lang.puts all.lang, d.text.puts all.text⟩) := by
  cases params with
  | nil =>
    simp only [List.map_nil, joined, Stored.puts_nil]
    rfl
  | cons param params =>
    simp only [List.map_cons, joined, List.flatMap_map, Stored.puts_append]
    rw [decodeParams, Bool.true_and]
    cases hEncoded : param.encoded with
    | true =>
      rw [if_pos rfl, copyPrefix_eq]
      change decodeParams false ⟨_, _, copyText _ _ _⟩ _ = _
      rw [decodeParams_rest, copyText_eq]
      rfl
    | false =>
      rw [if_neg Bool.false_ne_true]
      change decodeParams false ⟨_, _, copyText _ _ _⟩ _ = _
      rw [decodeParams_rest, copyText_eq]
      simp only [firstLabelled, Bool.false_eq_true, if_false, Stored.puts_nil]

/- A buffer that is filled, and its length. -/
def storedAll (ptr : CString) (text : List Byte) : Stored where
  ptr := ptr.map (· ++ (text ++ [0]))
  len := text.length + 1

theorem puts_terminate (ptr : CString) (text : List Byte) : (Stored.puts ⟨ptr, 1⟩ text).terminate =
      storedAll ptr text := by
  unfold Stored.puts Stored.terminate storedAll
  rw [Option.map_map, Nat.add_comm]
  congr 1
  congr 1
  funext buf
  exact List.append_assoc _ _ _

/- All that is stored for a list of parameters. -/
theorem paramDecode_params (params : List Rfc2231param) (charsetPtr langPtr textPtr : CString) :
    paramDecode params charsetPtr langPtr textPtr =
      (let all := joined ((betterParams params).map fun param =>
        (param.encoded, param.value))
      ⟨storedAll charsetPtr all.charset, storedAll langPtr all.lang,
        storedAll textPtr all.text⟩) := by
  unfold paramDecode
  rw [decodeParams_first]
  simp only [puts_terminate]

------------
-- The Order of the Segments
------------

/- Every attribute with the right name gets a node. -/
theorem paramCreate_eq (attr : Attrs) (name : List Byte) :
    paramCreate attr name = ((attr.filter fun a => ofName name a.1).map fun a =>
        paramOf name a.1 a.2).foldl (fun acc a => insertByKey (·.paramnum.toInt) a acc) [] := by
  have hAll : ∀ acc : List Rfc2231param, attr.foldl (fun paramList a =>
        buildAttrList paramList name a.1 a.2) acc =
      ((attr.filter fun a => ofName name a.1).map fun a =>
        paramOf name a.1 a.2).foldl (fun acc a => insertByKey (·.paramnum.toInt) a acc)
          acc := by
    induction attr with
    | nil =>
      intro acc
      rfl
    | cons a attr ih =>
      intro acc
      rw [List.foldl_cons, ih, buildAttrList]
      cases hName : ofName name a.1 with
      | true =>
        rw [List.filter_cons_of_pos (by rw [hName])]
        rfl
      | false =>
        rw [List.filter_cons_of_neg (by
          rw [hName]
          exact Bool.false_ne_true)]
        rfl
  exact hAll []

/- The last star is found behind bytes and before none. -/
theorem strrchr_append (s : List Byte) {q : List Byte} {c : Byte} (hNone : c ∉ q) :
    strrchr (s ++ c :: q) c = some (c :: q) := by
  have hTail : strrchr q c = none := by
    induction q with
    | nil => rfl
    | cons b q ih =>
      rw [List.mem_cons, not_or] at hNone
      rw [strrchr, ih hNone.2]
      exact if_neg fun hEq => hNone.1 hEq.symm
  induction s with
  | nil =>
    rw [List.nil_append, strrchr, hTail]
    exact if_pos rfl
  | cons b s ih => rw [List.cons_append, strrchr, ih]

theorem star_not_digit (s : Segment) : chr '*' ∉ s.digits := by
  intro hMem
  exact absurd (s.isDigits _ hMem) (by decide)

/- The number behind the star, when it fits into an `int`. -/
theorem atoi_digits (s : Segment) {rest : List Byte}
    (hRest : ∀ b, rest.head? = some b → isdigit b = false) :
    (Maildir.atoi (s.digits ++ rest)).toInt = s.number := by
  have hBound : s.number < 2 ^ 31 - 1 := s.bounded
  have hScan : scanInt (s.digits ++ rest) = some ((s.number : Int), rest) :=
    @scanInt_numeral [] s.digits rest false (fun _ hMem => nomatch hMem) s.isDigits s.nonempty hRest
  exact Maildir.atoi_of_scanInt hScan (by omega) (by omega)

theorem paramnum_digits (s : Segment) {rest : List Byte}
    (hRest : ∀ b, rest.head? = some b → isdigit b = false) :
    (paramnum (chr '*' :: (s.digits ++ rest))).toInt = (s.number : Int) + 1 := by
  have hBound : s.number < 2 ^ 31 - 1 := s.bounded
  have hOne : (1 : Int32).toInt = 1 := rfl
  have hNext : (Maildir.atoi (s.digits ++ rest) + 1).toInt = (s.number : Int) + 1 := by
    rw [Int32.toInt_add, atoi_digits s hRest, hOne]
    exact Int.bmod_eq_of_le (by omega) (by omega)
  have hPos : ¬ Maildir.atoi (s.digits ++ rest) + 1 ≤ 0 := by
    rw [Int32.le_iff_toInt_le, hNext]
    change ¬ (s.number : Int) + 1 ≤ 0
    omega
  unfold paramnum
  simp only []
  rw [if_neg hPos, hNext]

/- The node of a segment. -/
theorem paramOf_segment (name : List Byte) (s : Segment) :
    (paramOf name (s.attr name).1 (s.attr name).2).paramnum.toInt = (s.number : Int) + 1 ∧
      (paramOf name (s.attr name).1 (s.attr name).2).encoded = s.encoded ∧
      (paramOf name (s.attr name).1 (s.attr name).2).value = s.value := by
  refine ⟨?_, ?_, rfl⟩
  · unfold paramOf Segment.attr
    simp only [List.drop_left]
    apply paramnum_digits
    intro b hHead
    cases hEncoded : s.encoded with
    | true =>
      rw [hEncoded] at hHead
      cases hHead
      rfl
    | false =>
      rw [hEncoded] at hHead
      cases hHead
  · unfold paramOf Segment.attr
    simp only []
    cases hEncoded : s.encoded with
    | true =>
      have hLast : strrchr ((name ++ chr '*' :: s.digits) ++ [chr '*'])
          (chr '*') = some [chr '*'] :=
        strrchr_append _ List.not_mem_nil
      rw [List.append_assoc, List.cons_append] at hLast
      rw [if_pos rfl, hLast]
    | false =>
      rw [if_neg Bool.false_ne_true, List.append_nil, strrchr_append name (star_not_digit s)]
      cases hDigits : s.digits with
      | nil => exact absurd hDigits s.nonempty
      | cons d digits => rfl

/- The node of a plain parameter. -/
theorem paramnum_plain (name value : List Byte) : (paramOf name name value).paramnum = 0 := by
  unfold paramOf
  rw [List.drop_length]
  rfl

/- The attributes of a parameter, in the order of its nodes. -/
def attrsOf (name : List Byte) (plain : CString) (segments : List Segment) : Attrs :=
  (plain.toList.map fun value => (name, value)) ++ segments.map (Segment.attr name)

/- The nodes of these attributes. -/
def nodesOf (name : List Byte) (plain : CString) (segments : List Segment) : List Rfc2231param :=
  (attrsOf name plain segments).map fun a => paramOf name a.1 a.2

theorem nodesOf_eq (name : List Byte) (plain : CString) (segments : List Segment) :
    nodesOf name plain segments = (plain.toList.map fun value => paramOf name name value) ++
        segments.map fun s => paramOf name (s.attr name).1 (s.attr name).2 := by
  unfold nodesOf attrsOf
  rw [List.map_append, List.map_map, List.map_map]
  rfl

variable {segments : List Segment}

/- The nodes are in the order of their numbers. -/
theorem nodesOf_pairwise (name : List Byte) (plain : CString)
    (hOrder : segments.Pairwise (·.number < ·.number)) :
    (nodesOf name plain segments).Pairwise (·.paramnum.toInt < ·.paramnum.toInt) := by
  rw [nodesOf_eq, List.pairwise_append]
  refine ⟨?_, ?_, ?_⟩
  · cases plain with
    | none => exact List.Pairwise.nil
    | some value => exact List.pairwise_singleton _ _
  · rw [List.pairwise_map]
    refine hOrder.imp ?_
    intro s t hLess
    rw [(paramOf_segment name s).1, (paramOf_segment name t).1]
    omega
  · intro a hPlain b hSegment
    rcases List.mem_map.mp hPlain with ⟨value, _, rfl⟩
    rcases List.mem_map.mp hSegment with ⟨s, _, rfl⟩
    rw [paramnum_plain, (paramOf_segment name s).1]
    change (0 : Int) < (s.number : Int) + 1
    omega

/- The list of nodes does not depend on the attributes' order. -/
theorem paramCreate_nodes {name : List Byte} {plain : CString}
    (hOrder : segments.Pairwise (·.number < ·.number)) {attr : Attrs}
    (hAttr : (attr.filter fun a => ofName name a.1).Perm
      (attrsOf name plain segments)) : paramCreate attr name = nodesOf name plain segments := by
  rw [paramCreate_eq]
  exact foldl_insertByKey_eq _ (nodesOf_pairwise name plain hOrder) (hAttr.map _)

/- The segments are better than the plain parameter. -/
theorem betterParams_nodes {name : List Byte} {plain : CString}
    (hBeside : plain ≠ none → segments ≠ []) :
    betterParams (nodesOf name plain segments) = segments.map fun s =>
        paramOf name (s.attr name).1 (s.attr name).2 := by
  rw [nodesOf_eq]
  cases plain with
  | some value =>
    cases segments with
    | nil => exact absurd rfl (hBeside (Option.some_ne_none value))
    | cons s segments => exact if_pos (paramnum_plain name value)
  | none =>
    cases segments with
    | nil => rfl
    | cons s segments =>
      have hFirst : (paramOf name (s.attr name).1 (s.attr name).2).paramnum ≠ 0 := by
        intro hZero
        have hNumber := (paramOf_segment name s).1
        rw [hZero] at hNumber
        change (0 : Int) = (s.number : Int) + 1 at hNumber
        omega
      cases segments with
      | nil => rfl
      | cons t segments => exact if_neg hFirst

/- The lengths that are counted. -/
def Decoded.lens (d : Decoded) : Nat × Nat × Nat :=
  (d.charset.len, d.lang.len, d.text.len)

/-
  The segments of a parameter, in whatever order they come
  and also with a plain parameter among them: the value in the
  order of the numbers, in buffers that it fills, and with the
  lengths that the call without buffers counts.
-/
theorem paramDecode_segments {name : List Byte} {plain : CString} {segments : List Segment}
    (hOrder : segments.Pairwise (·.number < ·.number))
    (hBeside : plain ≠ none → segments ≠ []) {attr : Attrs}
    (hAttr : (attr.filter fun a => ofName name a.1).Perm
      (attrsOf name plain segments)) (charsetPtr langPtr textPtr : CString) :
    paramDecode (paramCreate attr name) charsetPtr langPtr textPtr =
      ⟨storedAll charsetPtr (joinedSegments segments).charset,
        storedAll langPtr (joinedSegments segments).lang,
        storedAll textPtr (joinedSegments segments).text⟩ ∧
    (paramDecode (paramCreate attr name)
        charsetPtr langPtr textPtr).lens =
      (paramDecode (paramCreate attr name)
        none none none).lens := by
  have hNodes : (betterParams (paramCreate attr name)).map
      (fun param => (param.encoded, param.value)) =
      segments.map fun s => (s.encoded, s.value) := by
    rw [paramCreate_nodes hOrder hAttr, betterParams_nodes hBeside, List.map_map]
    apply List.map_congr_left
    intro s _
    exact Prod.ext (paramOf_segment name s).2.1 rfl
  constructor
  · rw [paramDecode_params, hNodes]
    rfl
  · rw [paramDecode_params, paramDecode_params]
    rfl

/- The segment `name*0*`, with labels. -/
def segmentZero : Segment where
  digits := bytes "0"
  encoded := true
  value := bytes "us-ascii'en'a%20"
  isDigits := List.all_eq_true.mp rfl
  nonempty := by decide
  bounded := by decide

/- The segment `name*1`. -/
def segmentOne : Segment where
  digits := bytes "1"
  encoded := false
  value := bytes "b%20"
  isDigits := List.all_eq_true.mp rfl
  nonempty := by decide
  bounded := by decide

/- The second segment, the parameter, another one, the first. -/
theorem paramDecode_segments_two : (paramDecode (paramCreate
        [(bytes "name*1", bytes "b%20"), (bytes "name", bytes "c"),
          (bytes "names", bytes "d"),
          (bytes "name*0*", bytes "us-ascii'en'a%20")]
        (bytes "name")) (some []) (some []) (some [])) =
      ⟨⟨some (bytes "us-ascii" ++ [0]), 9⟩, ⟨some (bytes "en" ++ [0]), 3⟩,
        ⟨some (bytes "a b%20" ++ [0]), 7⟩⟩ := by
  have hOrder : [segmentZero, segmentOne].Pairwise (·.number < ·.number) := by
    rw [List.pairwise_pair]
    decide
  have hDecoded := (@paramDecode_segments (bytes "name")
    (some (bytes "c")) [segmentZero, segmentOne] hOrder
    (fun _ => List.cons_ne_nil _ _)
    [(bytes "name*1", bytes "b%20"), (bytes "name", bytes "c"),
      (bytes "names", bytes "d"),
      (bytes "name*0*", bytes "us-ascii'en'a%20")]
    (by decide) (some []) (some []) (some [])).1
  rw [hDecoded]
  rfl

end Wmail.Rfc2231
