import Wmail.Sqwebmail.Html
import Wmail.Core.Runs

/-
  What `decodehtmlchar` makes of character references
  (sqwebmail/html.c).

  Of the digits of a decimal reference only every other one is
  read, and what follows the reference is not looked at for
  another decimal reference.

  Key theorems include:
    * `decodehtmlchar_eq_none_iff`
    * `htmlReferences_iff`
-/

namespace Wmail.Sqwebmail

/- A character, `&#digits;`, or `&name;`. -/
inductive HtmlToken where
  | plain (b : Byte)
  | decimal (digits : List Byte)
  | named (name : List Byte)

namespace HtmlToken

def text : HtmlToken → List Byte
  | .plain b => [b]
  | .decimal digits => chr '&' :: chr '#' :: (digits ++ [chr ';'])
  | .named name => chr '&' :: (name ++ [chr ';'])

/- The character that a name stands for, in any case. -/
def character (name : List Byte) : Option Byte :=
  if name.map tolower = bytes "lt" then
    some (chr '<')
  else if name.map tolower = bytes "gt" then
    some (chr '>')
  else if name.map tolower = bytes "amp" then
    some (chr '&')
  else if name.map tolower = bytes "quot" then
    some (chr '"')
  else
    none

def Ok : HtmlToken → Prop
  | .plain b => b ≠ chr '&'
  | .decimal digits => digits ≠ [] ∧ ∀ b ∈ digits, isdigit b = true
  | .named name => (character name).isSome

/- A byte that is dropped when it is zero. -/
def byteOf (n : Nat) : List Byte :=
  if UInt8.ofNat n = 0 then [] else [UInt8.ofNat n]

/- What a token is replaced by. -/
def value : HtmlToken → List Byte
  | .plain b => [b]
  | .decimal digits => byteOf (decimalValue digits)
  | .named name => (character name).toList

end HtmlToken

def tokensText (tokens : List HtmlToken) : List Byte :=
  tokens.flatMap HtmlToken.text

/- What was read between two positions. -/
def readBetween (p q : List Byte) : List Byte :=
  p.take (p.length - q.length)

/- A number is a piece of its own. -/
def numberPiece (p q number : List Byte) : List (List Byte × List Byte) :=
  if q.length < p.length then [(readBetween p q, number)] else []

/-
  `decodehtmlchar`, where each piece of the text stands with
  what is written for it.
-/
def decodePieces (p : List Byte) : Option (List (List Byte × List Byte)) :=
  match p with
  | [] => some []
  | b :: rest =>
    if b ≠ chr '&' then
      (decodePieces rest).map (([b], [b]) :: ·)
    else
      match _hNumeric : numericEntity rest with
      | none => none
      | some (number, q) =>
        match _hEntity : decodeEntity q with
        | none => none
        | some (text, q') =>
          (decodePieces q').map
            (numberPiece (b :: rest) q number ++ (readBetween q q', text) :: ·)
termination_by p.length
decreasing_by
  · exact Nat.lt_succ_self rest.length
  · have hFirst := length_numericEntity _hNumeric
    have hSecond := length_decodeEntity _hEntity
    simp only [] at hFirst hSecond
    rw [List.length_cons]
    omega

theorem length_readBetween (p q : List Byte) : (readBetween p q).length = p.length - q.length := by
  unfold readBetween
  rw [List.length_take]
  omega

theorem readBetween_append (front rest : List Byte) : readBetween (front ++ rest) rest = front := by
  unfold readBetween
  rw [List.length_append, Nat.add_sub_cancel_right, List.take_left]

/- Without a number nothing is written for it. -/
theorem numericEntity_stays {p q number : List Byte}
    (hNumeric : numericEntity p = some (number, q)) (hStays : ¬ q.length < p.length + 1) :
    number = [] := by
  unfold numericEntity at hNumeric
  split at hNumeric
  · rename_i hHash
    rcases Option.map_eq_some_iff.mp hNumeric with ⟨found, hDigits, hFound⟩
    have hLength := length_entityDigits hDigits
    rw [List.length_tail] at hLength
    have hSome : 0 < p.length := by
      cases p with
      | nil => cases hHash
      | cons c p => exact Nat.succ_pos _
    have hRest := congrArg (fun r : List Byte × List Byte => r.2.length) hFound
    simp only [] at hRest
    split at hRest
    · rw [List.length_tail] at hRest
      omega
    · omega
  · cases hNumeric
    rfl

theorem decodehtmlchar_amp (rest : List Byte) : decodehtmlchar (chr '&' :: rest) =
      (numericEntity rest).bind fun found =>
        (decodeEntity found.2).bind fun entity =>
          (decodehtmlchar entity.2).map (found.1 ++ entity.1 ++ ·) := by
  rw [decodehtmlchar, if_neg (fun hNe => hNe rfl)]
  split
  · rename_i hNone
    rw [hNone]
    rfl
  · rename_i number q hNumeric
    rw [hNumeric, Option.bind_some]
    split
    · rename_i hNone
      rw [hNone]
      rfl
    · rename_i text q' hEntity
      rw [hEntity]
      rfl

theorem decodePieces_amp (rest : List Byte) :
    decodePieces (chr '&' :: rest) = (numericEntity rest).bind fun found =>
        (decodeEntity found.2).bind fun entity =>
          (decodePieces entity.2).map
            (numberPiece (chr '&' :: rest) found.2 found.1 ++
              (readBetween found.2 entity.2, entity.1) :: ·) := by
  rw [decodePieces, if_neg (fun hNe => hNe rfl)]
  split
  · rename_i hNone
    rw [hNone]
    rfl
  · rename_i number q hNumeric
    rw [hNumeric, Option.bind_some]
    split
    · rename_i hNone
      rw [hNone]
      rfl
    · rename_i text q' hEntity
      rw [hEntity]
      rfl

variable {b : Byte}

theorem decodePieces_plain (hPlain : b ≠ chr '&') (rest : List Byte) :
    decodePieces (b :: rest) = (decodePieces rest).map (([b], [b]) :: ·) := by
  rw [decodePieces, if_pos hPlain]

/- The pieces are the decoded text. -/
theorem decodehtmlchar_pieces (p : List Byte) : decodehtmlchar p =
      (decodePieces p).map fun pieces => pieces.flatMap Prod.snd := by
  fun_induction decodePieces p with
  | case1 =>
    rw [decodehtmlchar]
    rfl
  | case2 b rest hPlain ih =>
    rw [decodehtmlchar, if_pos hPlain, ih, Option.map_map, Option.map_map]
    rfl
  | case3 b rest hAmp hNumeric =>
    rw [not_not.mp hAmp, decodehtmlchar_amp, hNumeric]
    rfl
  | case4 b rest hAmp number q hNumeric hEntity =>
    rw [not_not.mp hAmp, decodehtmlchar_amp, hNumeric, Option.bind_some, hEntity]
    rfl
  | case5 b rest hAmp number q hNumeric text q' hEntity ih =>
    have hNumber : (numberPiece (b :: rest) q number).flatMap Prod.snd = number := by
      unfold numberPiece
      split
      · rw [List.flatMap_singleton]
      · rename_i hStays
        rw [numericEntity_stays hNumeric hStays]
        rfl
    rw [not_not.mp hAmp, decodehtmlchar_amp, hNumeric, Option.bind_some, hEntity, Option.bind_some,
      ih, ← not_not.mp hAmp, Option.map_map, Option.map_map]
    congr 1
    funext pieces
    simp only [Function.comp_apply, List.flatMap_append,
      List.flatMap_cons, hNumber, List.append_assoc]

------------
-- Digits
------------

/- The elements at even places. -/
def everyOther {α : Type} : List α → List α
  | [] => []
  | [a] => [a]
  | a :: _ :: rest => a :: everyOther rest

/- A digit behind a number. -/
def addDigit (c : UInt32) (b : Byte) : UInt32 :=
  c * 10 + (b.toUInt32 - 48)

theorem isdigit_semicolon : isdigit (chr ';') = false := by
  decide

/- The loop stops at once in front of no digit. -/
theorem entityDigits_stop {r : List Byte}
    (hStop : ∀ b, r.head? = some b → isdigit b = false) (c : UInt32) :
    entityDigits r c = some (c, r) := by
  cases r with
  | nil => rfl
  | cons b r =>
    have hOther : ¬ isdigit b = true := Bool.eq_false_iff.mp (hStop b rfl)
    cases r with
    | nil => rw [entityDigits, if_neg hOther]
    | cons skipped r => rw [entityDigits, if_neg hOther]

variable {digits : List Byte}

/- Pairs of digits lead to the semicolon. -/
theorem entityDigits_even (hDigits : ∀ b ∈ digits, isdigit b = true)
    (hEven : digits.length % 2 = 0) (r : List Byte) (c : UInt32) :
    entityDigits (digits ++ chr ';' :: r) c =
      some ((everyOther digits).foldl addDigit c, chr ';' :: r) := by
  induction digits using everyOther.induct generalizing c with
  | case1 =>
    apply entityDigits_stop
    intro b hHead
    cases hHead
    exact isdigit_semicolon
  | case2 a =>
    rw [List.length_singleton] at hEven
    omega
  | case3 a b rest ih =>
    rw [List.forall_mem_cons, List.forall_mem_cons] at hDigits
    rw [List.length_cons, List.length_cons] at hEven
    rw [List.cons_append, List.cons_append, entityDigits,
      if_pos hDigits.1, ih hDigits.2.2 (by omega)]
    rfl

/- After the last digit of an odd number it is skipped. -/
theorem entityDigits_odd (hDigits : ∀ b ∈ digits, isdigit b = true)
    (hOdd : digits.length % 2 = 1) (r : List Byte) (c : UInt32) :
    entityDigits (digits ++ chr ';' :: r) c =
      entityDigits r ((everyOther digits).foldl addDigit c) := by
  induction digits using everyOther.induct generalizing c with
  | case1 =>
    rw [List.length_nil] at hOdd
    omega
  | case2 a =>
    rw [List.forall_mem_singleton] at hDigits
    rw [List.singleton_append, entityDigits, if_pos hDigits]
    rfl
  | case3 a b rest ih =>
    rw [List.forall_mem_cons, List.forall_mem_cons] at hDigits
    rw [List.length_cons, List.length_cons] at hOdd
    rw [List.cons_append, List.cons_append, entityDigits,
      if_pos hDigits.1, ih hDigits.2.2 (by omega)]
    rfl

theorem toUInt8_foldl_addDigit (digits : List Byte) {c : UInt32} {n : Nat}
    (hSame : c.toUInt8 = UInt8.ofNat n) (hDigits : ∀ b ∈ digits, isdigit b = true) :
    (digits.foldl addDigit c).toUInt8 =
      UInt8.ofNat (digits.foldl (fun n b => n * 10 + (b.toNat - 48)) n) := by
  induction digits generalizing c n with
  | nil => exact hSame
  | cons b digits ih =>
    rw [List.forall_mem_cons] at hDigits
    rw [List.foldl_cons, List.foldl_cons]
    apply ih _ hDigits.2
    have hRange := hDigits.1
    unfold isdigit at hRange
    simp only [Bool.and_eq_true, decide_eq_true_eq, UInt8.le_iff_toNat_le] at hRange
    have hLow : 48 ≤ b.toNat := hRange.1
    have hDigit : UInt8.ofNat (b.toNat - 48) = b - 48 := by
      rw [← UInt8.toNat_inj, UInt8.toNat_ofNat', UInt8.toNat_sub_of_le _ _ hRange.1]
      have hLess := b.toNat_lt
      exact Nat.mod_eq_of_lt (by omega)
    unfold addDigit
    rw [UInt32.toUInt8_add, UInt32.toUInt8_mul, hSame, UInt8.ofNat_add, UInt8.ofNat_mul, hDigit]
    simp

theorem mem_everyOther {α : Type} {a : α} {l : List α} (hMem : a ∈ everyOther l) : a ∈ l := by
  induction l using everyOther.induct with
  | case1 => exact hMem
  | case2 b => exact hMem
  | case3 b c rest ih =>
    rw [everyOther] at hMem
    rcases List.mem_cons.mp hMem with hEq | hRest
    · rw [hEq]
      exact List.mem_cons_self
    · exact List.mem_cons_of_mem _ (List.mem_cons_of_mem _ (ih hRest))

/- The number that is read. -/
theorem toUInt8_everyOther (hDigits : ∀ b ∈ digits, isdigit b = true) :
    ((everyOther digits).foldl addDigit 0).toUInt8 =
      UInt8.ofNat (decimalValue (everyOther digits)) :=
  toUInt8_foldl_addDigit (everyOther digits) rfl fun b hMem => hDigits b (mem_everyOther hMem)

/-
  What is behind a reference with an odd number of digits is
  no digit and no semicolon.
-/
def GoesOn (digits r : List Byte) : Prop :=
  digits.length % 2 = 1 → ∀ b, r.head? = some b → isdigit b = false ∧ b ≠ chr ';'

/- A decimal reference is read up to its end. -/
theorem numericEntity_decimal {digits r : List Byte}
    (hDigits : ∀ b ∈ digits, isdigit b = true) (hGoesOn : GoesOn digits r) :
    numericEntity (chr '#' :: (digits ++ chr ';' :: r)) =
      some (HtmlToken.byteOf (decimalValue (everyOther digits)), r) := by
  have hByte := toUInt8_everyOther hDigits
  unfold numericEntity HtmlToken.byteOf
  rw [List.head?_cons, if_pos rfl, List.tail_cons]
  rcases Nat.mod_two_eq_zero_or_one digits.length with hEven | hOdd
  · rw [entityDigits_even hDigits hEven, Option.map_some]
    simp only [hByte, List.head?_cons, List.tail_cons, if_true]
  · have hNext := hGoesOn hOdd
    have hSemicolon : r.head? ≠ some (chr ';') := fun hHead => (hNext _ hHead).2 rfl
    rw [entityDigits_odd hDigits hOdd, entityDigits_stop fun b hHead => (hNext b hHead).1,
      Option.map_some]
    simp only [hByte, if_neg hSemicolon]

/- Otherwise it is read too far. -/
theorem numericEntity_too_far {digits r : List Byte}
    (hDigits : ∀ b ∈ digits, isdigit b = true) (hFar : ¬ GoesOn digits r)
    {found : List Byte × List Byte}
    (hNumeric : numericEntity
      (chr '#' :: (digits ++ chr ';' :: r)) = some found) : found.2.length < r.length := by
  unfold GoesOn at hFar
  rw [Classical.not_imp] at hFar
  rcases hFar with ⟨hOdd, hNext⟩
  unfold numericEntity at hNumeric
  rw [List.head?_cons, if_pos rfl, List.tail_cons, entityDigits_odd hDigits hOdd] at hNumeric
  rcases Option.map_eq_some_iff.mp hNumeric with ⟨digit, hDigit, hFound⟩
  rw [← hFound]
  cases r with
  | nil => exact absurd (fun b hHead => nomatch hHead) hNext
  | cons b r =>
    by_cases hIs : isdigit b = true
    · have hShorter : digit.2.length ≤ r.length := by
        cases r with
        | nil =>
          rw [entityDigits, if_pos hIs] at hDigit
          cases hDigit
        | cons skipped r =>
          rw [entityDigits, if_pos hIs] at hDigit
          have hLength := length_entityDigits hDigit
          rw [List.length_cons]
          omega
      simp only []
      split
      · rw [List.length_tail, List.length_cons]
        omega
      · rw [List.length_cons]
        omega
    · have hSemicolon : b = chr ';' := by
        by_contra hOther
        apply hNext
        intro c hHead
        cases hHead
        exact ⟨Bool.eq_false_iff.mpr hIs, hOther⟩
      rw [entityDigits_stop] at hDigit
      · cases hDigit
        simp only [List.head?_cons, hSemicolon, if_true, List.tail_cons, List.length_cons]
        omega
      · intro c hHead
        cases hHead
        exact Bool.eq_false_iff.mpr hIs

theorem isalpha_of_tolower : ∀ b : Byte, isalpha (tolower b) = true → isalpha b = true := by
  apply byte_forall
  decide +kernel

theorem tolower_eq_amp : ∀ b : Byte, tolower b = chr '&' → b = chr '&' := by
  apply byte_forall
  decide +kernel

variable {name : List Byte}

/- A name that is known consists of letters. -/
theorem isalpha_of_character (hName : (HtmlToken.character name).isSome) :
    name ≠ [] ∧ ∀ b ∈ name, isalpha b = true := by
  have hLower : name.map tolower ≠ [] ∧ (name.map tolower).all isalpha = true := by
    unfold HtmlToken.character at hName
    split at hName
    · rename_i hEq
      rw [hEq]
      decide
    · split at hName
      · rename_i hEq
        rw [hEq]
        decide
      · split at hName
        · rename_i hEq
          rw [hEq]
          decide
        · split at hName
          · rename_i hEq
            rw [hEq]
            decide
          · cases hName
  refine ⟨fun hNil => hLower.1 (by rw [hNil]; rfl), ?_⟩
  intro b hMem
  exact isalpha_of_tolower b (List.all_eq_true.mp hLower.2 _ (List.mem_map_of_mem hMem))

/- The two tables of names agree. -/
theorem namedEntity_character (hName : (HtmlToken.character name).isSome) :
    namedEntity (chr '&' :: (name ++ [chr ';'])) = (HtmlToken.character name).toList := by
  have hLower : (chr '&' :: (name ++ [chr ';'])).map tolower =
      chr '&' :: (name.map tolower ++ [chr ';']) := by
    rw [List.map_cons, List.map_append]
    rfl
  unfold HtmlToken.character at hName ⊢
  unfold namedEntity
  simp only [hLower]
  split at hName
  · rename_i hEq
    rw [hEq]
    decide
  · split at hName
    · rename_i hEq
      rw [hEq]
      decide
    · split at hName
      · rename_i hEq
        rw [hEq]
        decide
      · split at hName
        · rename_i hEq
          rw [hEq]
          decide
        · cases hName

theorem isalpha_ne_semicolon (hLetter : isalpha b = true) : b ≠ chr ';' := by
  intro hEq
  rw [hEq] at hLetter
  exact absurd hLetter (by decide)

/- A named reference is replaced by its character. -/
theorem decodeEntity_named (hName : (HtmlToken.character name).isSome) (r : List Byte) :
    decodeEntity (chr '&' :: (name ++ chr ';' :: r)) =
      some ((HtmlToken.character name).toList, r) := by
  rcases isalpha_of_character hName with ⟨_, hLetters⟩
  have hStop : ∀ b, (chr ';' :: r).head? = some b → isalpha b = false := by
    intro b hHead
    cases hHead
    decide
  have hText : chr ';' ∉ chr '&' :: name := by
    intro hMem
    rcases List.mem_cons.mp hMem with hEq | hIn
    · exact absurd hEq (by decide)
    · exact isalpha_ne_semicolon (hLetters _ hIn) rfl
  have hSplit : chr '&' :: (name ++ chr ';' :: r) = (chr '&' :: name) ++ chr ';' :: r := rfl
  have hFront : chr '&' :: (name ++ chr ';' :: r) = (chr '&' :: (name ++ [chr ';'])) ++ r := by
    simp
  have hLength : (chr '&' :: (name ++ [chr ';'])).length = (chr '&' :: name).length + 1 := by simp
  unfold decodeEntity
  simp only []
  rw [dropWhile_run hLetters hStop, if_neg (fun hNe => hNe rfl)]
  rw [hSplit, takeWhile_quoted hText, ← hSplit, hFront, List.take_left' hLength,
    List.drop_left' hLength, namedEntity_character hName]

/- Nothing but a name behind `&` is replaced. -/
theorem namedEntity_plain (hPlain : b ≠ chr '&') (rest : List Byte) :
    namedEntity (b :: rest) = [] := by
  have hFirst : ∀ name : List Byte, name.head? = some (chr '&') →
        (b :: rest).map tolower ≠ name := by
    intro name hAmp hEq
    rw [← hEq, List.map_cons, List.head?_cons, Option.some.injEq] at hAmp
    exact hPlain (tolower_eq_amp b hAmp)
  unfold namedEntity
  simp only []
  rw [if_neg (hFirst _ (by decide)), if_neg (hFirst _ (by decide)),
    if_neg (hFirst _ (by decide)), if_neg (hFirst _ (by decide))]

/-
  A character behind a decimal reference stays, unless letters
  and a semicolon follow it.
-/
theorem decodeEntity_plain_iff (hPlain : b ≠ chr '&') (rest : List Byte) :
    (∃ q, decodeEntity (b :: rest) = some ([b], q)) ↔
      (rest.dropWhile isalpha).head? ≠ some (chr ';') := by
  unfold decodeEntity
  simp only []
  constructor
  · rintro ⟨q, hEntity⟩ hDropped
    rw [if_neg (fun hNe => hNe hDropped)] at hEntity
    by_cases hFirst : b = chr ';'
    · rw [hFirst, List.takeWhile_cons_of_neg (by simp)] at hEntity
      simp only [List.length_nil, List.take_succ_cons, List.take_zero] at hEntity
      rw [namedEntity_plain (by decide)] at hEntity
      simp at hEntity
    · rw [List.takeWhile_cons_of_pos (by simpa using hFirst)] at hEntity
      rw [List.length_cons, List.take_succ_cons, namedEntity_plain hPlain] at hEntity
      simp at hEntity
  · intro hStays
    rw [if_pos hStays]
    exact ⟨rest, rfl⟩

------------
-- Decoding Tokens
------------

/- What a decimal reference has to be followed by. -/
def FollowedWell (digits : List Byte) : List HtmlToken → Prop
  | [] => False
  | .plain b :: rest =>
    (digits.length % 2 = 1 → isdigit b = false ∧ b ≠ chr ';') ∧
      ((tokensText rest).dropWhile isalpha).head? ≠ some (chr ';')
  | .decimal _ :: _ => False
  | .named _ :: _ => True

/-
  Every other digit of each decimal reference makes up the same
  byte as all digits, and the reference is followed well.
-/
def TokensFine : List HtmlToken → Prop
  | [] => True
  | .decimal digits :: rest =>
    UInt8.ofNat (decimalValue (everyOther digits)) = UInt8.ofNat (decimalValue digits) ∧
      FollowedWell digits rest ∧ TokensFine rest
  | .plain _ :: rest => TokensFine rest
  | .named _ :: rest => TokensFine rest

/- Each token with what it is replaced by. -/
def tokenPieces (tokens : List HtmlToken) : List (List Byte × List Byte) :=
  tokens.map fun t => (t.text, t.value)

theorem tokensText_cons (t : HtmlToken) (tokens : List HtmlToken) :
    tokensText (t :: tokens) = t.text ++ tokensText tokens :=
  List.flatMap_cons

theorem text_decimal_append (digits r : List Byte) : (HtmlToken.decimal digits).text ++ r =
      chr '&' :: chr '#' :: (digits ++ chr ';' :: r) := by
  unfold HtmlToken.text
  simp

theorem text_named_append (name r : List Byte) : (HtmlToken.named name).text ++ r =
      chr '&' :: (name ++ chr ';' :: r) := by
  unfold HtmlToken.text
  simp

theorem decodePieces_named (hName : (HtmlToken.named name).Ok) (r : List Byte) :
    decodePieces ((HtmlToken.named name).text ++ r) = (decodePieces r).map
        (((HtmlToken.named name).text, (HtmlToken.named name).value) :: ·) := by
  rcases isalpha_of_character hName with ⟨hSome, hLetters⟩
  have hNumeric : numericEntity (name ++ chr ';' :: r) =
      some ([], chr '&' :: (name ++ chr ';' :: r)) := by
    unfold numericEntity
    rw [if_neg]
    cases name with
    | nil => exact absurd rfl hSome
    | cons b name =>
      intro hHash
      rw [List.cons_append, List.head?_cons, Option.some.injEq] at hHash
      have hLetter := hLetters b List.mem_cons_self
      rw [hHash] at hLetter
      exact absurd hLetter (by decide)
  have hRead := readBetween_append (HtmlToken.named name).text r
  rw [text_named_append] at hRead ⊢
  rw [decodePieces_amp, hNumeric, Option.bind_some]
  simp only []
  rw [decodeEntity_named hName, Option.bind_some]
  simp only [hRead]
  unfold numberPiece
  rw [if_neg (Nat.lt_irrefl _)]
  rfl

/- A decimal reference, and what is looked at behind it. -/
theorem decodePieces_decimal {digits r : List Byte}
    (hDigits : ∀ b ∈ digits, isdigit b = true) (hGoesOn : GoesOn digits r) :
    decodePieces ((HtmlToken.decimal digits).text ++ r) = (decodeEntity r).bind fun entity =>
        (decodePieces entity.2).map
          (((HtmlToken.decimal digits).text, HtmlToken.byteOf (decimalValue (everyOther digits))) ::
            (readBetween r entity.2, entity.1) :: ·) := by
  have hRead := readBetween_append (HtmlToken.decimal digits).text r
  have hLess : r.length < (chr '&' :: chr '#' :: (digits ++ chr ';' :: r)).length := by
    simp only [List.length_cons, List.length_append]
    omega
  rw [text_decimal_append] at hRead ⊢
  rw [decodePieces_amp, numericEntity_decimal hDigits hGoesOn, Option.bind_some]
  unfold numberPiece
  simp only [if_pos hLess, hRead, List.singleton_append]

/- A token that is not a decimal reference may follow. -/
theorem goesOn_of_token {t : HtmlToken} (hToken : ∀ b, t ≠ .plain b)
    (tokens : List HtmlToken) : GoesOn digits (tokensText (t :: tokens)) := by
  intro _ b hHead
  have hAmp : b = chr '&' := by
    cases t with
    | plain c => exact absurd rfl (hToken c)
    | decimal digits =>
      rw [tokensText_cons, text_decimal_append] at hHead
      exact (Option.some.inj hHead).symm
    | named name =>
      rw [tokensText_cons, text_named_append] at hHead
      exact (Option.some.inj hHead).symm
  rw [hAmp]
  decide

variable {tokens : List HtmlToken}

/- A reference that is followed well is a piece of its own. -/
theorem decodePieces_followed (hDigits : ∀ b ∈ digits, isdigit b = true)
    (hOk : ∀ t ∈ tokens, t.Ok) (hFollowed : FollowedWell digits tokens) :
    decodePieces (tokensText (.decimal digits :: tokens)) = (decodePieces (tokensText tokens)).map
        (((HtmlToken.decimal digits).text,
          HtmlToken.byteOf (decimalValue (everyOther digits))) :: ·) := by
  rw [tokensText_cons]
  cases tokens with
  | nil => exact False.elim hFollowed
  | cons t rest =>
    cases t with
    | plain b =>
      have hPlain : b ≠ chr '&' := hOk _ List.mem_cons_self
      have hGoesOn : GoesOn digits (tokensText (.plain b :: rest)) := by
        intro hOdd c hHead
        cases hHead
        exact hFollowed.1 hOdd
      have hEntity : decodeEntity (b :: tokensText rest) = some ([b], tokensText rest) := by
        unfold decodeEntity
        simp only []
        rw [if_pos hFollowed.2]
      have hRead := readBetween_append [b] (tokensText rest)
      have hText : tokensText (.plain b :: rest) = b :: tokensText rest := rfl
      rw [decodePieces_decimal hDigits hGoesOn, hText, hEntity, Option.bind_some,
        decodePieces_plain hPlain, Option.map_map]
      rw [List.singleton_append] at hRead
      simp only [hRead]
      rfl
    | decimal more => exact False.elim hFollowed
    | named name =>
      have hName : (HtmlToken.named name).Ok := hOk _ List.mem_cons_self
      have hGoesOn : GoesOn digits (tokensText (.named name :: rest)) :=
        goesOn_of_token (by intro b hEq; cases hEq) rest
      have hEntity := decodeEntity_named hName (tokensText rest)
      have hRead := readBetween_append (HtmlToken.named name).text (tokensText rest)
      rw [decodePieces_decimal hDigits hGoesOn, tokensText_cons, decodePieces_named hName,
        Option.map_map]
      rw [← text_named_append] at hEntity
      rw [hEntity, Option.bind_some]
      simp only [hRead]
      rfl

/- A reference that is read too far is no piece. -/
theorem goesOn_of_pieces {digits r v : List Byte} {more : List (List Byte × List Byte)}
    (hDigits : ∀ b ∈ digits, isdigit b = true)
    (hPieces : decodePieces
      ((HtmlToken.decimal digits).text ++ r) =
        some (((HtmlToken.decimal digits).text, v) :: more)) : GoesOn digits r := by
  by_contra hFar
  have hLength : ((HtmlToken.decimal digits).text ++ r).length =
      (HtmlToken.decimal digits).text.length + r.length :=
    List.length_append
  rw [text_decimal_append] at hPieces hLength
  rw [decodePieces_amp] at hPieces
  rcases Option.bind_eq_some_iff.mp hPieces with ⟨found, hNumeric, hRest⟩
  rcases Option.bind_eq_some_iff.mp hRest with ⟨entity, _, hMap⟩
  rcases Option.map_eq_some_iff.mp hMap with ⟨tail, _, hAll⟩
  have hShort := numericEntity_too_far hDigits hFar hNumeric
  unfold numberPiece at hAll
  rw [if_pos (by omega), List.singleton_append] at hAll
  have hFirst := (Prod.mk.inj (List.cons.inj hAll).1).1
  have hRead := congrArg List.length hFirst
  rw [length_readBetween] at hRead
  omega

/- What follows a reference is a piece that stays as it is. -/
theorem followedWell_of_pieces (hDigits : ∀ b ∈ digits, isdigit b = true)
    (hOk : ∀ t ∈ tokens, t.Ok)
    (hPieces : decodePieces
      (tokensText (.decimal digits :: tokens)) =
        some (tokenPieces (.decimal digits :: tokens))) : FollowedWell digits tokens := by
  rw [tokensText_cons] at hPieces
  have hGoesOn := goesOn_of_pieces hDigits hPieces
  rw [decodePieces_decimal hDigits hGoesOn] at hPieces
  rcases Option.bind_eq_some_iff.mp hPieces with ⟨entity, hEntity, hMap⟩
  rcases Option.map_eq_some_iff.mp hMap with ⟨tail, _, hAll⟩
  have hSecond := (List.cons.inj hAll).2
  cases tokens with
  | nil => cases hEntity
  | cons t rest =>
    have hHere := Prod.mk.inj (List.cons.inj hSecond).1
    cases t with
    | plain b =>
      have hPlain : b ≠ chr '&' := hOk _ List.mem_cons_self
      have hText : entity.1 = [b] := hHere.2
      refine ⟨fun hOdd => hGoesOn hOdd b rfl, ?_⟩
      apply (decodeEntity_plain_iff hPlain (tokensText rest)).mp
      exact ⟨entity.2, by rw [← hText]; exact hEntity⟩
    | decimal other =>
      have hDecimal : decodeEntity (tokensText (.decimal other :: rest)) =
            some ([chr '&'], chr '#' :: (other ++ chr ';' :: tokensText rest)) := by
        rw [tokensText_cons, text_decimal_append]
        unfold decodeEntity
        simp only []
        rw [List.dropWhile_cons_of_neg (by decide), List.head?_cons, if_pos (by decide)]
      rw [hDecimal, Option.some.injEq] at hEntity
      have hRead := congrArg List.length hHere.1
      rw [length_readBetween, ← hEntity, tokensText_cons, text_decimal_append] at hRead
      unfold HtmlToken.text at hRead
      simp only [List.length_cons, List.length_append, List.length_nil] at hRead
      omega
    | named name => exact trivial

theorem byteOf_injective {m n : Nat} (hSame : HtmlToken.byteOf m = HtmlToken.byteOf n) :
    UInt8.ofNat m = UInt8.ofNat n := by
  unfold HtmlToken.byteOf at hSame
  split at hSame
  · split at hSame
    · rename_i hm hn
      rw [hm, hn]
    · cases hSame
  · split at hSame
    · cases hSame
    · exact (List.cons.inj hSame).1

theorem map_cons_eq_some_iff {α : Type} {found : Option (List α)} {a b : α} {rest : List α} :
    found.map (a :: ·) = some (b :: rest) ↔ a = b ∧ found = some rest := by
  cases found with
  | none => simp
  | some l => simp

/- Token by token, or not at all. -/
theorem decodePieces_tokens (hOk : ∀ t ∈ tokens, t.Ok) :
    decodePieces (tokensText tokens) = some (tokenPieces tokens) ↔ TokensFine tokens := by
  induction tokens with
  | nil =>
    have hNil : decodePieces (tokensText []) = some [] := by
      unfold tokensText
      rw [List.flatMap_nil, decodePieces]
    exact iff_of_true hNil trivial
  | cons t rest ih =>
    rw [List.forall_mem_cons] at hOk
    have hRest := ih hOk.2
    have hPieces : tokenPieces (t :: rest) = (t.text, t.value) :: tokenPieces rest := rfl
    cases t with
    | plain b =>
      have hText : tokensText (.plain b :: rest) = b :: tokensText rest := rfl
      rw [hText, decodePieces_plain hOk.1, hPieces, map_cons_eq_some_iff]
      exact ⟨fun hBoth => hRest.mp hBoth.2, fun hFine => ⟨rfl, hRest.mpr hFine⟩⟩
    | decimal digits =>
      have hDigits := hOk.1.2
      constructor
      · intro hAll
        have hFollowed := followedWell_of_pieces hDigits hOk.2 hAll
        rw [decodePieces_followed hDigits hOk.2 hFollowed, hPieces, map_cons_eq_some_iff] at hAll
        have hValue : HtmlToken.byteOf (decimalValue (everyOther digits)) =
              HtmlToken.byteOf (decimalValue digits) :=
          (Prod.mk.inj hAll.1).2
        exact ⟨byteOf_injective hValue, hFollowed, hRest.mp hAll.2⟩
      · rintro ⟨hSame, hFollowed, hFine⟩
        rw [decodePieces_followed hDigits hOk.2 hFollowed, hPieces, map_cons_eq_some_iff]
        refine ⟨?_, hRest.mpr hFine⟩
        unfold HtmlToken.byteOf HtmlToken.value
        unfold HtmlToken.byteOf
        rw [hSame]
    | named name =>
      rw [tokensText_cons, decodePieces_named hOk.1, hPieces, map_cons_eq_some_iff]
      exact ⟨fun hBoth => hRest.mp hBoth.2, fun hFine => ⟨rfl, hRest.mpr hFine⟩⟩

------------
-- The End of the String
------------

/- The positions at which the loop starts a turn. -/
inductive Meets : List Byte → List Byte → Prop where
  | here (s : List Byte) : Meets s s
  | plain
      {b : Byte}
      {s w : List Byte}
      (hPlain : b ≠ chr '&')
      (hMeets : Meets s w) :
      Meets (b :: s) w
  | entity
      {s q q' w number text : List Byte}
      (hNumeric : numericEntity s = some (number, q))
      (hEntity : decodeEntity q = some (text, q'))
      (hMeets : Meets q' w) :
      Meets (chr '&' :: s) w

/-
  Behind `&#`, digits each followed by any one character, and
  then the end of the string, a last digit or a last semicolon.
-/
inductive EndsIn : List Byte → Prop where
  | empty : EndsIn []
  | semicolon : EndsIn [chr ';']
  | digit
      {b : Byte}
      (hDigit : isdigit b = true) :
      EndsIn [b]
  | pair
      {b : Byte}
      (hDigit : isdigit b = true)
      (c : Byte)
      {r : List Byte}
      (hEnds : EndsIn r) :
      EndsIn (b :: c :: r)

/- The loop meets a numeric reference that ends the string. -/
def EndsInReference (s : List Byte) : Prop :=
  ∃ r, EndsIn r ∧ Meets s (chr '&' :: chr '#' :: r)

theorem endsIn_not_digit {r : List Byte} (hOther : ¬ isdigit b = true)
    (hEnds : EndsIn (b :: r)) : b = chr ';' ∧ r = [] := by
  cases hEnds with
  | semicolon => exact ⟨rfl, rfl⟩
  | digit hDigit => exact absurd hDigit hOther
  | pair hDigit c hEnds => exact absurd hDigit hOther

/- The loop over the digits runs out of the string. -/
theorem endsIn_iff (r : List Byte) (c : UInt32) : EndsIn r ↔
      ∀ found, entityDigits r c = some found → found.2 = [] ∨ found.2 = [chr ';'] := by
  fun_induction entityDigits r c with
  | case1 c =>
    apply iff_of_true EndsIn.empty
    intro found hFound
    cases hFound
    exact Or.inl rfl
  | case2 b c hDigit =>
    apply iff_of_true (EndsIn.digit hDigit)
    intro found hFound
    cases hFound
  | case3 b c hOther =>
    constructor
    · intro hEnds found hFound
      cases hFound
      rw [(endsIn_not_digit hOther hEnds).1]
      exact Or.inr rfl
    · intro hAll
      rcases hAll _ rfl with hNil | hLast
      · cases hNil
      · rw [(List.cons.inj hLast).1]
        exact EndsIn.semicolon
  | case4 b skipped p c hDigit ih =>
    rw [← ih]
    constructor
    · intro hEnds
      cases hEnds with
      | pair hDigit c hEnds => exact hEnds
    · exact EndsIn.pair hDigit skipped
  | case5 b skipped p c hOther =>
    constructor
    · intro hEnds
      cases (endsIn_not_digit hOther hEnds).2
    · intro hAll
      rcases hAll _ rfl with hNil | hLast
      · cases hNil
      · cases hLast

/- Nothing but the end of the string cannot be looked at. -/
theorem decodeEntity_eq_none_iff (q : List Byte) : decodeEntity q = none ↔ q = [] := by
  cases q with
  | nil => exact iff_of_true rfl rfl
  | cons b rest =>
    unfold decodeEntity
    simp only []
    split
    · simp
    · simp

/- A reference runs out of the string. -/
theorem entity_eq_none_iff (s : List Byte) : ((numericEntity s).bind fun found =>
        decodeEntity found.2) = none ↔
      ∃ r, EndsIn r ∧ s = chr '#' :: r := by
  by_cases hHash : s.head? = some (chr '#')
  · rcases List.head?_eq_some_iff.mp hHash with ⟨r, hText⟩
    have hOne : (∃ r', EndsIn r' ∧ s = chr '#' :: r') ↔ EndsIn r := by
      rw [hText]
      constructor
      · rintro ⟨r', hEnds, hEq⟩
        rw [(List.cons.inj hEq).2]
        exact hEnds
      · intro hEnds
        exact ⟨r, hEnds, rfl⟩
    rw [hOne, endsIn_iff r 0, hText]
    unfold numericEntity
    rw [List.head?_cons, if_pos rfl, List.tail_cons]
    cases hDigits : entityDigits r 0 with
    | none =>
      apply iff_of_true rfl
      intro found hFound
      cases hFound
    | some found =>
      rw [Option.map_some, Option.bind_some]
      simp only [decodeEntity_eq_none_iff]
      constructor
      · intro hNil other hOther
        cases hOther
        split at hNil
        · rename_i hLast
          rcases List.head?_eq_some_iff.mp hLast with ⟨rest, hRest⟩
          rw [hRest, List.tail_cons] at hNil
          rw [hRest, hNil]
          exact Or.inr rfl
        · exact Or.inl hNil
      · intro hAll
        rcases hAll found rfl with hNil | hLast
        · rw [hNil]
          rfl
        · rw [hLast, List.head?_cons, if_pos rfl]
          rfl
  · have hNone : ¬ ∃ r, EndsIn r ∧ s = chr '#' :: r := by
      rintro ⟨r, _, hText⟩
      rw [hText] at hHash
      exact hHash rfl
    unfold numericEntity
    rw [if_neg hHash, Option.bind_some, decodeEntity_eq_none_iff]
    exact iff_of_false (List.cons_ne_nil _ _) hNone

theorem meets_nil {w : List Byte} (hMeets : Meets [] w) : w = [] := by
  cases hMeets
  rfl

theorem endsInReference_plain (hPlain : b ≠ chr '&') (rest : List Byte) :
    EndsInReference (b :: rest) ↔ EndsInReference rest := by
  constructor
  · rintro ⟨r, hEnds, hMeets⟩
    cases hMeets with
    | here s => exact absurd rfl hPlain
    | plain hOther hMeets => exact ⟨r, hEnds, hMeets⟩
    | entity hNumeric hEntity hMeets => exact absurd rfl hPlain
  · rintro ⟨r, hEnds, hMeets⟩
    exact ⟨r, hEnds, Meets.plain hPlain hMeets⟩

theorem endsInReference_entity {rest number q text q' : List Byte}
    (hNumeric : numericEntity rest = some (number, q))
    (hEntity : decodeEntity q = some (text, q')) :
    EndsInReference (chr '&' :: rest) ↔ EndsInReference q' := by
  constructor
  · rintro ⟨r, hEnds, hMeets⟩
    cases hMeets with
    | here s =>
      have hNone := (entity_eq_none_iff (chr '#' :: r)).mpr ⟨r, hEnds, rfl⟩
      rw [hNumeric, Option.bind_some, hEntity] at hNone
      cases hNone
    | plain hOther hMeets => exact absurd rfl hOther
    | entity hFirst hSecond hMeets =>
      rw [hNumeric, Option.some.injEq, Prod.mk.injEq] at hFirst
      rw [← hFirst.2, hEntity, Option.some.injEq, Prod.mk.injEq] at hSecond
      rw [← hSecond.2] at hMeets
      exact ⟨r, hEnds, hMeets⟩
  · rintro ⟨r, hEnds, hMeets⟩
    exact ⟨r, hEnds, Meets.entity hNumeric hEntity hMeets⟩

/- The terminator is passed by references only. -/
theorem decodePieces_eq_none_iff (s : List Byte) : decodePieces s = none ↔ EndsInReference s := by
  fun_induction decodePieces s with
  | case1 =>
    apply iff_of_false (Option.some_ne_none _)
    rintro ⟨r, _, hMeets⟩
    cases meets_nil hMeets
  | case2 b rest hPlain ih => rw [endsInReference_plain hPlain, ← ih, Option.map_eq_none_iff]
  | case3 b rest hAmp hNumeric =>
    rw [not_not.mp hAmp]
    apply iff_of_true rfl
    have hNone : ((numericEntity rest).bind fun found => decodeEntity found.2) = none := by
      rw [hNumeric, Option.bind_none]
    rcases (entity_eq_none_iff rest).mp hNone with ⟨r, hEnds, hText⟩
    rw [hText]
    exact ⟨r, hEnds, Meets.here _⟩
  | case4 b rest hAmp number q hNumeric hEntity =>
    rw [not_not.mp hAmp]
    apply iff_of_true rfl
    have hNone : ((numericEntity rest).bind fun found => decodeEntity found.2) = none := by
      rw [hNumeric, Option.bind_some, hEntity]
    rcases (entity_eq_none_iff rest).mp hNone with ⟨r, hEnds, hText⟩
    rw [hText]
    exact ⟨r, hEnds, Meets.here _⟩
  | case5 b rest hAmp number q hNumeric text q' hEntity ih =>
    rw [not_not.mp hAmp, endsInReference_entity hNumeric hEntity, ← ih, Option.map_eq_none_iff]

theorem decodehtmlchar_eq_none_iff (s : List Byte) :
    decodehtmlchar s = none ↔ EndsInReference s := by
  rw [decodehtmlchar_pieces, Option.map_eq_none_iff, decodePieces_eq_none_iff]

/-
  If each `&` begins a reference, each token is read as a whole
  and replaced by what it stands for.
-/
def DecodesTokens (s : List Byte) : Prop :=
  ∀ tokens, (∀ t ∈ tokens, t.Ok) → s = tokensText tokens →
    decodePieces s = some (tokenPieces tokens) ∧
      decodehtmlchar s = some (tokens.flatMap HtmlToken.value)

theorem decodehtmlchar_tokens
    (hPieces : decodePieces (tokensText tokens) = some (tokenPieces tokens)) :
    decodehtmlchar (tokensText tokens) = some (tokens.flatMap HtmlToken.value) := by
  rw [decodehtmlchar_pieces, hPieces, Option.map_some]
  unfold tokenPieces
  rw [List.flatMap_map]

/-
  References are decoded, and the string is not left, when all
  digits matter as every other one does, when each decimal
  reference is followed by what cannot be mistaken for a part
  of it, and when none ends the string.
-/
theorem htmlReferences_iff (s : List Byte) : (DecodesTokens s ∧ decodehtmlchar s ≠ none) ↔
      (∀ tokens, (∀ t ∈ tokens, t.Ok) → s = tokensText tokens →
        TokensFine tokens) ∧ ¬ EndsInReference s := by
  apply and_congr
  · constructor
    · intro hDecodes tokens hOk hText
      have hPieces := (hDecodes tokens hOk hText).1
      rw [hText] at hPieces
      exact (decodePieces_tokens hOk).mp hPieces
    · intro hFine tokens hOk hText
      have hPieces := (decodePieces_tokens hOk).mpr (hFine tokens hOk hText)
      rw [hText]
      exact ⟨hPieces, decodehtmlchar_tokens hPieces⟩
  · exact not_congr (decodehtmlchar_eq_none_iff s)

/- `&#65;x` is not `Ax`, and `&#65;` is read beyond its end. -/
theorem not_htmlReferences : ¬ (∀ s, DecodesTokens s) ∧ ¬ ∀ s, decodehtmlchar s ≠ none := by
  constructor
  · intro hAll
    have hOk : ∀ t ∈ [HtmlToken.decimal (bytes "65"), HtmlToken.plain (chr 'x')], t.Ok := by
      rw [List.forall_mem_cons, List.forall_mem_singleton]
      refine ⟨⟨by decide, ?_⟩, ?_⟩
      · exact List.all_eq_true.mp (by decide)
      · exact (by decide : chr 'x' ≠ chr '&')
    have hPieces := (hAll _ _ hOk rfl).1
    have hFine := (decodePieces_tokens hOk).mp hPieces
    exact absurd hFine.1 (by decide)
  · intro hAll
    apply hAll (bytes "&#65;")
    have hEnds : EndsIn (bytes "65;") := EndsIn.pair (by decide) _ EndsIn.semicolon
    exact (decodehtmlchar_eq_none_iff _).mpr ⟨_, hEnds, Meets.here _⟩

end Wmail.Sqwebmail
