import Wmail.Rfc2045.QpFragments
import Wmail.Rfc2045.PartTree

/-
  The scan for eight-bit contents (rfc2045acprep.c), and what
  the decoder delivers.

  Key theorems include:
    * `delivered_of_hides`
    * `prescan_agrees_iff`
-/

namespace Wmail.Rfc2045

/- The scan variables at the start of the contents of a part. -/
def acStart (ac : Acprep) (i : Nat) (contentTransferEncoding : CString) : Acprep :=
  { ac with
      currwp := some i
      curlinepos := 0
      curstate :=
        match contentTransferEncoding with
        | none => .raw
        | some te =>
          if te = bytes "quoted-printable" then
            .quotedprint
          else if te = bytes "base64" then
            .base64
          else
            .raw }

/- The scan of a part without flags. -/
def scanStart (ac : Acprep) (i : Nat) (contentTransferEncoding : CString) : Scan where
  ac := acStart ac i contentTransferEncoding
  has8bitchars := false
  haslongline := false

/- `has8bitchars` of a part, after the scan of its body. -/
def scanned (ac : Acprep) (i : Nat) (contentTransferEncoding : CString) (body : List Byte) :
    Bool :=
  (body.foldl Scan.step
    (scanStart ac i contentTransferEncoding)).has8bitchars

/- The scan is in a body that is quoted-printable. -/
def Scan.InQp (r : Scan) : Prop :=
  r.ac.curstate = .quotedprint ∨ r.ac.curstate = .qpseeneq ∨ r.ac.curstate = .qpseeneqh

/- The scan is behind an `=`. -/
def Scan.inEscape (r : Scan) : Bool :=
  r.ac.curstate = .qpseeneq || r.ac.curstate = .qpseeneqh

theorem has8bitchars_rawByte (r : Scan) (c : Byte) : (r.rawByte c).has8bitchars =
      (r.has8bitchars || decide (127 ≤ c)) := by
  unfold Scan.rawByte
  by_cases hEnd : c = cr ∨ c = nl
  · simp only [if_pos hEnd]
  · simp only [if_neg hEnd]
    rfl

theorem curstate_rawByte (r : Scan) (c : Byte) : (r.rawByte c).ac.curstate = r.ac.curstate := by
  unfold Scan.rawByte
  by_cases hEnd : c = cr ∨ c = nl
  · simp only [if_pos hEnd]
  · simp only [if_neg hEnd]
    rfl

variable {r : Scan}

/- A flag that is raised stays. -/
theorem has8bitchars_step (hFlag : r.has8bitchars = true) (c : Byte) :
    (r.step c).has8bitchars = true := by
  unfold Scan.step
  cases hState : r.ac.curstate with
  | raw =>
    simp only []
    rw [has8bitchars_rawByte, hFlag, Bool.true_or]
  | quotedprint =>
    simp only []
    split
    · exact hFlag
    · rw [has8bitchars_rawByte, hFlag, Bool.true_or]
  | qpseeneq =>
    simp only []
    split
    · exact hFlag
    · split
      · exact hFlag
      · exact hFlag
  | qpseeneqh =>
    simp only []
    rw [hFlag, Bool.true_or]
  | base64 => exact hFlag

theorem has8bitchars_foldl (hFlag : r.has8bitchars = true) (text : List Byte) :
    (text.foldl Scan.step r).has8bitchars = true := by
  induction text generalizing r with
  | nil => exact hFlag
  | cons c rest ih => exact ih (has8bitchars_step hFlag c)

theorem inQp_step (hQp : r.InQp) (c : Byte) : (r.step c).InQp := by
  unfold Scan.step
  rcases hQp with hState | hState | hState
  · rw [hState]
    simp only []
    split
    · exact Or.inr (Or.inl rfl)
    · left
      rw [curstate_rawByte, hState]
  · rw [hState]
    simp only []
    split
    · exact Or.inl rfl
    · split
      · exact Or.inr (Or.inl hState)
      · exact Or.inr (Or.inr rfl)
  · rw [hState]
    exact Or.inl rfl

/- Each byte of a text, with the scan before it. -/
def annotate (r : Scan) : List Byte → List (Byte × Scan)
  | [] => []
  | c :: rest => (c, r) :: annotate (r.step c) rest

/- The pieces of a text, each byte with the scan before it. -/
def annotatePieces (r : Scan) : List (List Byte) → List (List (Byte × Scan))
  | [] => []
  | piece :: more => annotate r piece :: annotatePieces (piece.foldl Scan.step r) more

theorem annotate_fst (r : Scan) (text : List Byte) : (annotate r text).map Prod.fst = text := by
  induction text generalizing r with
  | nil => rfl
  | cons c rest ih => rw [annotate, List.map_cons, ih]

theorem annotatePieces_fst (r : Scan) (pieces : List (List Byte)) :
    (annotatePieces r pieces).map (List.map Prod.fst) = pieces := by
  induction pieces generalizing r with
  | nil => rfl
  | cons piece more ih => rw [annotatePieces, List.map_cons, ih, annotate_fst]

theorem annotate_append (r : Scan) (text more : List Byte) :
    annotate r (text ++ more) = annotate r text ++ annotate (text.foldl Scan.step r) more := by
  induction text generalizing r with
  | nil => rfl
  | cons c rest ih =>
    rw [List.cons_append, annotate, annotate, ih, List.foldl_cons, List.cons_append]

theorem annotatePieces_flatten (r : Scan) (pieces : List (List Byte)) :
    (annotatePieces r pieces).flatten = annotate r pieces.flatten := by
  induction pieces generalizing r with
  | nil => rfl
  | cons piece more ih =>
    rw [annotatePieces, List.flatten_cons, List.flatten_cons, ih, annotate_append]

variable {c : Byte}

/- A byte that raises the flag, and the scans in the body. -/
theorem flagged_of_mem_annotate {r r' : Scan} {text : List Byte}
    (hMem : (c, r') ∈ annotate r text) (hFlag : (r'.step c).has8bitchars = true) :
    (text.foldl Scan.step r).has8bitchars = true := by
  induction text generalizing r with
  | nil => cases hMem
  | cons d rest ih =>
    rcases List.mem_cons.mp hMem with hHere | hLater
    · cases hHere
      exact has8bitchars_foldl hFlag rest
    · exact ih hLater

theorem inQp_of_mem_annotate {r r' : Scan} {text : List Byte} (hQp : r.InQp)
    (hMem : (c, r') ∈ annotate r text) : r'.InQp := by
  induction text generalizing r with
  | nil => cases hMem
  | cons d rest ih =>
    rcases List.mem_cons.mp hMem with hHere | hLater
    · cases hHere
      exact hQp
    · exact ih (inQp_step hQp d) hLater

------------
-- Hidden Bytes
------------

/- The scan has read this digit behind an `=`. -/
def Scan.atDigit (r : Scan) (high : Nat) : Bool :=
  r.ac.curstate = .qpseeneqh && xdigitValue r.ac.statechar = some high

/-
  The decoder delivers an eight-bit byte that the scan does
  not look at: a byte as it stands, where the scan takes it
  for a part of an escape, or an escape whose digits the scan
  does not read as such.
-/
def hidden (state : QpState) (c : Byte) (r : Scan) : Bool :=
  match state, xdigitValue c with
  | .dead, _ => false
  | .digit high, some low => 128 ≤ UInt8.ofNat (high * 16 + low) && !r.atDigit high
  | _, _ => 128 ≤ c && r.inEscape

/- A fragment has such a byte. -/
def hides (state : QpState) : List (Byte × Scan) → Bool
  | [] => false
  | (c, r) :: rest => hidden state c r || hides (qpStep state c).1 rest

/- A body, as it is cut by the decoder, has such a byte. -/
def Hides (r : Scan) (pieces : List (List Byte)) : Prop :=
  ∃ fragment, fragment ∈ QpCut.fragments Prod.fst [] (annotatePieces r pieces) ∧
      hides .text fragment = true

/- Both know the digits. -/
theorem h2nyb_eq {n : Nat} (hDigit : xdigitValue c = some n) : h2nyb c = UInt8.ofNat n := by
  have hAll : ∀ c : Byte, (xdigitValue c).all fun n => h2nyb c = UInt8.ofNat n := by
    apply byte_forall
    decide +kernel
  have hHere := hAll c
  rw [hDigit] at hHere
  exact of_decide_eq_true hHere

/- An eight-bit byte is no digit, no blank and no `=`. -/
theorem plain_of_high (hHigh : 128 ≤ c) :
    c ≠ 0 ∧ isspace c = false ∧ xdigitValue c = none ∧ c ≠ chr '=' ∧ c ≠ nl := by
  have hAll : ∀ c : Byte, 128 ≤ c →
      c ≠ 0 ∧ isspace c = false ∧ xdigitValue c = none ∧ c ≠ chr '=' ∧ c ≠ nl := by
    apply byte_forall
    decide +kernel
  exact hAll c hHigh

variable {state : QpState}

/- A byte that is delivered as it stands. -/
theorem qpStep_high (hHigh : 128 ≤ c) : (qpStep state c).2 = if state = .dead then [] else [c] := by
  rcases plain_of_high hHigh with ⟨hNul, hSpace, hDigit, hEq, _⟩
  cases state with
  | text => exact congrArg Prod.snd (if_neg hEq)
  | escape =>
    unfold qpStep
    simp only []
    rw [if_neg (by
      rw [hSpace]
      exact fun hBoth => hBoth.elim hNul Bool.false_ne_true),
      hDigit]
    exact congrArg Prod.snd (if_neg hEq)
  | digit high =>
    unfold qpStep
    simp only []
    rw [if_neg hNul, hDigit]
    exact congrArg Prod.snd (if_neg hEq)
  | dead => rfl

/- What a step delivers. -/
theorem delivered_cases {c b : Byte} (hMem : b ∈ (qpStep state c).2) : (b = c ∧ state ≠ .dead) ∨
      ∃ high low, state = .digit high ∧ xdigitValue c = some low ∧
          b = UInt8.ofNat (high * 16 + low) := by
  have hText : b ∈ (qpTextStep c).2 → b = c := by
    intro hIn
    unfold qpTextStep at hIn
    split at hIn
    · cases hIn
    · exact List.mem_singleton.mp hIn
  cases state with
  | text => exact Or.inl ⟨hText hMem, nofun⟩
  | escape =>
    unfold qpStep at hMem
    simp only [] at hMem
    split at hMem
    · cases hMem
    · split at hMem
      · exact Or.inl ⟨hText hMem, nofun⟩
      · cases hMem
  | digit high =>
    unfold qpStep at hMem
    simp only [] at hMem
    split at hMem
    · cases hMem
    · split at hMem
      · exact Or.inl ⟨hText hMem, nofun⟩
      · rename_i low hDigit
        exact Or.inr ⟨high, low, rfl, hDigit, List.mem_singleton.mp hMem⟩
  | dead => cases hMem

/- A byte as it stands is hidden behind an `=`. -/
theorem hidden_high (hHigh : 128 ≤ c) (hLive : state ≠ .dead) (r : Scan) :
    hidden state c r = r.inEscape := by
  have hDigit := (plain_of_high hHigh).2.2.1
  have hTrue : (decide (128 ≤ c) && r.inEscape) = r.inEscape := by
    rw [decide_eq_true hHigh, Bool.true_and]
  unfold hidden
  rw [hDigit]
  cases state with
  | text => exact hTrue
  | escape => exact hTrue
  | digit high => exact hTrue
  | dead => exact absurd rfl hLive

/- Outside of escapes the scan looks at every byte. -/
theorem flags_high (hHigh : 128 ≤ c) (hQp : r.InQp) (hOut : r.inEscape = false) :
    (r.step c).has8bitchars = true := by
  have hBig : 127 ≤ c := UInt8.le_trans (by decide) hHigh
  have hEq := (plain_of_high hHigh).2.2.2.1
  unfold Scan.inEscape at hOut
  rw [Bool.or_eq_false_iff, decide_eq_false_iff_not, decide_eq_false_iff_not] at hOut
  rcases hQp with hState | hState | hState
  · unfold Scan.step
    rw [hState]
    simp only []
    rw [if_neg hEq, has8bitchars_rawByte, decide_eq_true hBig, Bool.or_true]
  · exact absurd hState hOut.1
  · exact absurd hState hOut.2

/- An escape with the same digits has the same value. -/
theorem flags_escape {high low : Nat} (hDigit : r.atDigit high = true)
    (hLow : xdigitValue c = some low) (hHigh : 128 ≤ UInt8.ofNat (high * 16 + low)) :
    (r.step c).has8bitchars = true := by
  unfold Scan.atDigit at hDigit
  rw [Bool.and_eq_true, decide_eq_true_iff, decide_eq_true_iff] at hDigit
  have hValue : h2nyb r.ac.statechar * 16 + h2nyb c = UInt8.ofNat (high * 16 + low) := by
    rw [h2nyb_eq hDigit.2, h2nyb_eq hLow, UInt8.ofNat_add, UInt8.ofNat_mul]
    rfl
  have hBig : (127 : UInt8) ≤ UInt8.ofNat (high * 16 + low) := UInt8.le_trans (by decide) hHigh
  unfold Scan.step
  rw [hDigit.1]
  simp only []
  rw [hValue, decide_eq_true hBig, Bool.or_true]

/- A delivered byte is hidden, or the scan raises the flag. -/
theorem hidden_or_flags {c b : Byte} (hQp : r.InQp) (hMem : b ∈ (qpStep state c).2)
    (hHigh : 128 ≤ b) : hidden state c r = true ∨ (r.step c).has8bitchars = true := by
  rcases delivered_cases hMem with ⟨rfl, hLive⟩ | ⟨high, low, rfl, hLow, rfl⟩
  · rw [hidden_high hHigh hLive]
    cases hOut : r.inEscape with
    | true => exact Or.inl rfl
    | false => exact Or.inr (flags_high hHigh hQp hOut)
  · cases hDigit : r.atDigit high with
    | true => exact Or.inr (flags_escape hDigit hLow hHigh)
    | false =>
      left
      unfold hidden
      rw [hLow]
      simp only []
      rw [decide_eq_true hHigh, hDigit]
      rfl

/- A hidden byte is delivered. -/
theorem delivered_of_hidden (hHidden : hidden state c r = true) :
    ∃ b, b ∈ (qpStep state c).2 ∧ 128 ≤ b := by
  have hPlain (hLive : state ≠ .dead)
      (hByte : (decide (128 ≤ c) && r.inEscape) = true) :
      ∃ b, b ∈ (qpStep state c).2 ∧ 128 ≤ b := by
    rw [Bool.and_eq_true, decide_eq_true_iff] at hByte
    refine ⟨c, ?_, hByte.1⟩
    rw [qpStep_high hByte.1, if_neg hLive]
    exact List.mem_singleton_self c
  unfold hidden at hHidden
  split at hHidden
  · cases hHidden
  · rename_i high low hLow
    rw [Bool.and_eq_true, decide_eq_true_iff] at hHidden
    refine ⟨_, ?_, hHidden.1⟩
    have hNul : c ≠ 0 := by
      rintro rfl
      cases hLow
    unfold qpStep
    simp only []
    rw [if_neg hNul, hLow]
    exact List.mem_singleton_self _
  · rename_i hLive _
    exact hPlain hLive hHidden

/- The same for a fragment. -/
theorem hides_or_flags {fragment : List (Byte × Scan)} (hQp : ∀ x, x ∈ fragment → x.2.InQp)
    {b : Byte} (hMem : b ∈ qpRun state (fragment.map Prod.fst)) (hHigh : 128 ≤ b) :
    hides state fragment = true ∨ ∃ x, x ∈ fragment ∧ (x.2.step x.1).has8bitchars = true := by
  induction fragment generalizing state with
  | nil => cases hMem
  | cons x rest ih =>
    rw [List.map_cons, qpRun, List.mem_append] at hMem
    rw [hides, Bool.or_eq_true]
    rcases hMem with hHere | hLater
    · rcases hidden_or_flags (hQp x List.mem_cons_self) hHere hHigh with hHidden | hFlag
      · exact Or.inl (Or.inl hHidden)
      · exact Or.inr ⟨x, List.mem_cons_self, hFlag⟩
    · rcases ih (fun y hIn =>
        hQp y (List.mem_cons_of_mem x hIn)) hLater with
        hHidden | ⟨y, hIn, hFlag⟩
      · exact Or.inl (Or.inr hHidden)
      · exact Or.inr ⟨y, List.mem_cons_of_mem x hIn, hFlag⟩

theorem delivered_of_hides {fragment : List (Byte × Scan)}
    (hHides : hides state fragment = true) :
    ∃ b, b ∈ qpRun state (fragment.map Prod.fst) ∧ 128 ≤ b := by
  induction fragment generalizing state with
  | nil => cases hHides
  | cons x rest ih =>
    rw [hides, Bool.or_eq_true] at hHides
    rw [List.map_cons, qpRun]
    rcases hHides with hHere | hLater
    · rcases delivered_of_hidden hHere with ⟨b, hIn, hHigh⟩
      exact ⟨b, List.mem_append_left _ hIn, hHigh⟩
    · rcases ih hLater with ⟨b, hIn, hHigh⟩
      exact ⟨b, List.mem_append_right _ hIn, hHigh⟩

------------
-- What Is Delivered
------------

/- What a run delivers, from the bytes with their scans. -/
theorem mem_cdecoder_run (r : Scan) (pieces : List (List Byte)) (b : Byte) :
    b ∈ (cdecoder .quotedPrintable).run pieces ↔ ∃ fragment,
        fragment ∈ QpCut.fragments Prod.fst [] (annotatePieces r pieces) ∧
          b ∈ qpRun .text (fragment.map Prod.fst) := by
  have hMap := QpCut.fragments_map id (Prod.fst : Byte × Scan → Byte) [] (annotatePieces r pieces)
  rw [annotatePieces_fst, List.map_nil] at hMap
  rw [cdecoder_fragments, hMap, List.mem_flatMap]
  constructor
  · rintro ⟨part, hPart, hIn⟩
    rcases List.mem_map.mp hPart with ⟨fragment, hMem, rfl⟩
    rw [qpScan_eq_qpRun] at hIn
    exact ⟨fragment, hMem, hIn⟩
  · rintro ⟨fragment, hMem, hIn⟩
    refine ⟨fragment.map Prod.fst, List.mem_map.mpr ⟨fragment, hMem, rfl⟩, ?_⟩
    rw [qpScan_eq_qpRun]
    exact hIn

/-
  For a body of a leaf, in the pieces in which it is decoded:
  without the flag no eight-bit byte is delivered.
-/
def PrescanAgrees (ac : Acprep) (i : Nat) (contentTransferEncoding : CString)
    (pieces : List (List Byte)) : Prop :=
  scanned ac i contentTransferEncoding pieces.flatten = false →
    ∀ b, b ∈ (cdecoder (cdecodeStart contentTransferEncoding)).run pieces → b < 128

theorem prescan_agrees_qp (ac : Acprep) (i : Nat) (pieces : List (List Byte)) :
    PrescanAgrees ac i (some (bytes "quoted-printable")) pieces ↔
      (scanned ac i (some (bytes "quoted-printable")) pieces.flatten = false →
        ¬ Hides (scanStart ac i (some (bytes "quoted-printable"))) pieces) := by
  have hFunc : cdecodeStart (some (bytes "quoted-printable")) = .quotedPrintable := by decide
  have hState : (scanStart ac i (some (bytes "quoted-printable"))).ac.curstate =
        .quotedprint := by
    unfold scanStart acStart
    simp only []
    exact if_pos trivial
  have hStart : (scanStart ac i (some (bytes "quoted-printable"))).InQp := Or.inl hState
  unfold PrescanAgrees
  rw [hFunc]
  generalize hScan : scanStart ac i (some (bytes "quoted-printable")) = r at hStart
  constructor
  · rintro hAgrees hFlag ⟨fragment, hMem, hHides⟩
    rcases delivered_of_hides hHides with ⟨b, hIn, hHigh⟩
    have hLow := hAgrees hFlag b ((mem_cdecoder_run r pieces b).mpr ⟨fragment, hMem, hIn⟩)
    exact absurd hHigh (UInt8.not_le.mpr hLow)
  · intro hClear hFlag b hDelivered
    have hNone := hClear hFlag
    rcases (mem_cdecoder_run r pieces b).mp hDelivered with ⟨fragment, hMem, hIn⟩
    have hBody : ∀ x, x ∈ fragment → x ∈ annotate r pieces.flatten := by
      intro x hHere
      rcases QpCut.mem_fragments hMem hHere with hNo | hMore
      · cases hNo
      · rw [annotatePieces_flatten] at hMore
        exact hMore
    by_contra hHigh
    rcases hides_or_flags (fun x hHere => inQp_of_mem_annotate hStart (hBody x hHere))
      hIn (UInt8.not_lt.mp hHigh) with
      hHides | ⟨x, hHere, hSet⟩
    · exact hNone ⟨fragment, hMem, hHides⟩
    · have hTrue := flagged_of_mem_annotate (hBody x hHere) hSet
      unfold scanned at hFlag
      rw [hScan, hTrue] at hFlag
      cases hFlag

/- Without an encoding the pieces are passed on. -/
theorem cdecoder_raw (pieces : List (List Byte)) : (cdecoder .raw).run pieces = pieces.flatten := by
  have hAll : ∀ p : Cdecode, (cdecoder .raw).finish (pieces.foldl (cdecoder .raw).feed p) =
      p.output ++ pieces.flatten := by
    induction pieces with
    | nil =>
      intro p
      exact (List.append_nil _).symm
    | cons piece more ih =>
      intro p
      rw [List.foldl_cons, ih, List.flatten_cons, ← List.append_assoc]
      congr 1
      change (cdecode .raw (Sink.accept Byte) p piece).2.output = _
      unfold cdecode
      cases piece with
      | nil => rw [if_pos rfl, List.append_nil]
      | cons c rest =>
        rw [if_neg (List.cons_ne_nil c rest)]
        change (p.sent ++ [c :: rest]).flatten = _
        rw [List.flatten_append, List.flatten_singleton]
        rfl
  exact hAll (cdecoder .raw).init

/- Without an encoding the scan looks at every byte. -/
theorem low_of_raw (hRaw : r.ac.curstate = .raw) {text : List Byte}
    (hFlag : (text.foldl Scan.step r).has8bitchars = false) {b : Byte} (hMem : b ∈ text) :
    b < 128 := by
  induction text generalizing r with
  | nil => cases hMem
  | cons c rest ih =>
    have hStep : r.step c = r.rawByte c := by
      unfold Scan.step
      rw [hRaw]
    rw [List.foldl_cons, hStep] at hFlag
    rcases List.mem_cons.mp hMem with rfl | hLater
    · by_contra hHigh
      have hBig : 127 ≤ b := UInt8.le_trans (by decide) (UInt8.not_lt.mp hHigh)
      have hSet : (r.rawByte b).has8bitchars = true := by
        rw [has8bitchars_rawByte, decide_eq_true hBig, Bool.or_true]
      rw [has8bitchars_foldl hSet rest] at hFlag
      cases hFlag
    · exact ih ((curstate_rawByte r c).trans hRaw) hFlag hLater

theorem prescan_agrees_raw (ac : Acprep) (i : Nat) {contentTransferEncoding : CString}
    (hQp : contentTransferEncoding ≠
      some (bytes "quoted-printable")) (hBase64 : contentTransferEncoding ≠ some (bytes "base64"))
    (pieces : List (List Byte)) : PrescanAgrees ac i contentTransferEncoding pieces := by
  have hBoth : cdecodeStart contentTransferEncoding = .raw ∧
      (scanStart ac i contentTransferEncoding).ac.curstate = .raw := by
    cases contentTransferEncoding with
    | none => exact ⟨rfl, rfl⟩
    | some te =>
      have hFirst : te ≠ bytes "quoted-printable" := fun hEq => hQp (congrArg some hEq)
      have hSecond : te ≠ bytes "base64" := fun hEq => hBase64 (congrArg some hEq)
      constructor
      · unfold cdecodeStart
        simp only []
        rw [if_neg hFirst, if_neg hSecond]
      · unfold scanStart acStart
        simp only []
        rw [if_neg hFirst, if_neg hSecond]
  intro hFlag b hDelivered
  rw [hBoth.1, cdecoder_raw] at hDelivered
  exact low_of_raw hBoth.2 hFlag hDelivered

/-
  The two agree, unless the leaf is quoted-printable and the
  only eight-bit bytes are hidden by malformed escapes.
-/
theorem prescan_agrees_iff (ac : Acprep) (i : Nat) {contentTransferEncoding : CString}
    (hBase64 : contentTransferEncoding ≠ some (bytes "base64")) (pieces : List (List Byte)) :
    PrescanAgrees ac i contentTransferEncoding pieces ↔ (contentTransferEncoding =
          some (bytes "quoted-printable") →
        scanned ac i contentTransferEncoding pieces.flatten = false →
          ¬ Hides (scanStart ac i contentTransferEncoding) pieces) := by
  by_cases hQp : contentTransferEncoding = some (bytes "quoted-printable")
  · subst hQp
    rw [prescan_agrees_qp]
    exact ⟨fun hCases _ => hCases, fun hCases => hCases rfl⟩
  · exact iff_of_true (prescan_agrees_raw ac i hQp hBase64 pieces) (fun hEq => absurd hEq hQp)

theorem prescan_agrees_plain : some (bytes "8bit") ≠ some (bytes "base64") ∧
      PrescanAgrees ⟨none, 0, .raw, 0⟩ 0 (some (bytes "8bit"))
        [bytes "caf", [0xE9]] := by
  have hBase64 : some (bytes "8bit") ≠ some (bytes "base64") := by decide
  refine ⟨hBase64, (prescan_agrees_iff _ _ hBase64 _).mpr ?_⟩
  intro hEq
  exact absurd hEq (by decide)

/- The `=` of the second escape ends the first one. -/
theorem not_prescan_agrees : ¬ PrescanAgrees ⟨none, 0, .raw, 0⟩ 0
      (some (bytes "quoted-printable")) [bytes "=4=E9"] := by
  intro hAgrees
  have hFlag : scanned ⟨none, 0, .raw, 0⟩ 0 (some (bytes "quoted-printable"))
      [bytes "=4=E9"].flatten = false := by
    decide
  have hFunc : cdecodeStart (some (bytes "quoted-printable")) = .quotedPrintable := by decide
  have hScan : qpScan = qpRun .text := funext qpScan_eq_qpRun
  have hIn : (0xE9 : Byte) ∈ (cdecoder (cdecodeStart (some (bytes "quoted-printable")))).run
        [bytes "=4=E9"] := by
    rw [hFunc, cdecoder_fragments, hScan]
    decide
  exact absurd (hAgrees hFlag _ hIn) (by decide)

end Wmail.Rfc2045
