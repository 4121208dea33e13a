import Wmail.Rfc2045.DecodeChunking
import Wmail.Rfc2045.EncodeOutput

/-
  Decoding what the encoders write.

  The output of both encoders has short lines only, so the
  decoders may be given it in any pieces, and they give back
  the input of the encoder.

  Key theorems include:
    * `base64Stream_base64Lines`
    * `transfer_roundTrip`
-/

namespace Wmail.Rfc2045

/- Texts with short lines may be cut anywhere. -/
theorem QpCutSafe.of_linesAtMost {limit : Nat} {input : List Byte}
    (hLines : LinesAtMost limit input) (hLimit : limit ≤ 1024) : QpCutSafe input := by
  intro before front after hInput _hStart hLine hLong
  have hShort := hLines front ⟨before, after, hInput.symm⟩ hLine
  omega

/- The text of a byte decodes to the byte. -/
theorem qpRun_qpToken : ∀ c : Byte, qpRun .text (qpToken c) = [c] ∧
        qpState .text (qpToken c) = .text := by
  apply byte_forall
  decide +kernel

theorem qpStream_qpToken (c : Byte) (more : List Byte) :
    qpStream .text (qpToken c ++ more) = c :: qpStream .text more := by
  by_cases hLine : c = nl
  · subst c
    simp [qpToken, qpStream, qpStep, qpTextStep, show nl ≠ chr '=' by decide]
  · rw [qpStream_append _ _ _ (nl_not_mem_qpToken c hLine),
      (qpRun_qpToken c).1, (qpRun_qpToken c).2]
    rfl

/- A soft line break decodes to nothing. -/
theorem qpStream_soft (more : List Byte) : qpStream .text ([chr '=', nl] ++ more) =
      qpStream .text more := by
  simp [qpStream, qpStep, qpTextStep,
    show chr '=' ≠ nl by decide,
    show isspace nl = true by decide]

/- The stream decodes what the encoder writes. -/
theorem qpStream_qpEncode (cnt : Nat) (input : List Byte) :
    qpStream .text (qpEncode cnt input) = input := by
  induction input generalizing cnt with
  | nil => rfl
  | cons c input ih =>
    unfold qpEncode qpEncodeByte
    rw [List.append_assoc]
    split
    · rw [qpStream_soft, qpStream_qpToken, ih]
    · rw [List.nil_append, qpStream_qpToken, ih]

/- The decoding table inverts the encoding table. -/
set_option maxRecDepth 8000 in
theorem decode64tab_base64Char : ∀ i, i < 64 → decode64tab (base64Char i) = i := by
  decide

theorem base64Char_ne_eq {i : Nat} (hIndex : i < 64) : base64Char i ≠ chr '=' :=
  (base64Char_plain i hIndex).2

theorem isBase64_base64Char {i : Nat} (hIndex : i < 64) : isBase64 (base64Char i) = true := by
  unfold isBase64
  rw [decode64tab_base64Char i hIndex, decide_eq_true_eq]
  omega

/- Two overlapping indices give the byte across them. -/
theorem decode64_byte (high shift : Nat) {low : Nat} (hLow : low < 2 ^ shift) {b : Byte}
    (hByte : (high * 2 ^ shift + low) % 256 = b.toNat) :
    UInt8.ofNat ((high <<< shift) ||| low) = b := by
  rw [← Nat.shiftLeft_add_eq_or_of_lt hLow, Nat.shiftLeft_eq]
  apply UInt8.toNat_inj.mp
  rw [UInt8.toNat_ofNat', hByte]

/- The first byte of a group. -/
theorem decode64_first (a b : Byte) :
    UInt8.ofNat (((a.toNat / 4) <<< 2) ||| ((a.toNat % 4 * 16 + b.toNat / 16) >>> 4)) = a := by
  have ha := a.toNat_lt
  have hb := b.toNat_lt
  rw [Nat.shiftRight_eq_div_pow]
  exact decode64_byte _ 2 (by omega) (by omega)

/- The second byte of a group. -/
theorem decode64_second (a b c : Byte) : UInt8.ofNat (((a.toNat % 4 * 16 + b.toNat / 16) <<< 4) |||
          ((b.toNat % 16 * 4 + c.toNat / 64) >>> 2)) =
      b := by
  have ha := a.toNat_lt
  have hb := b.toNat_lt
  have hc := c.toNat_lt
  rw [Nat.shiftRight_eq_div_pow]
  exact decode64_byte _ 4 (by omega) (by omega)

/- The third byte of a group. -/
theorem decode64_third (b c : Byte) :
    UInt8.ofNat (((b.toNat % 16 * 4 + c.toNat / 64) <<< 6) ||| (c.toNat % 64)) = c := by
  have hb := b.toNat_lt
  have hc := c.toNat_lt
  exact decode64_byte _ 6 (by omega) (by omega)

/- Encoded groups decode to the encoded text. -/
theorem decode64Groups_base64Groups (text more : List Byte) :
    decode64Groups (base64Groups text ++ more) = text ++ decode64Groups more := by
  have hByte : ∀ b : Byte, b.toNat < 256 := fun b => b.toNat_lt
  induction text using base64Groups.induct with
  | case1 => rfl
  | case2 a =>
    have ha := hByte a
    have hFirst := decode64_first a 0
    simp only [base64Groups, base64_index_first, base64_index_second, List.getD_nil,
      List.cons_append, List.nil_append, decode64Groups, decode64Group]
    rw [decode64tab_base64Char _ (by omega), decode64tab_base64Char _ (by simp; omega), hFirst]
    simp
  | case3 a b =>
    have ha := hByte a
    have hb := hByte b
    have hFirst := decode64_first a b
    have hSecond := decode64_second a b 0
    have hThird := base64Char_ne_eq (show b.toNat % 16 * 4 < 64 by omega)
    simp only [base64Groups, base64_index_first, base64_index_second, base64_index_third,
      List.getD_cons_zero, List.getD_cons_succ, List.getD_nil, List.cons_append, List.nil_append,
      decode64Groups, decode64Group]
    rw [decode64tab_base64Char _ (by omega), decode64tab_base64Char _ (by omega),
      decode64tab_base64Char _ (by simp; omega), hFirst,
      hSecond]
    simp [hThird]
  | case4 a b c rest ih =>
    have ha := hByte a
    have hb := hByte b
    have hc := hByte c
    have hFirst := decode64_first a b
    have hSecond := decode64_second a b c
    have hThird := decode64_third b c
    have hThirdChar :=
      base64Char_ne_eq (show b.toNat % 16 * 4 + c.toNat / 64 < 64 by
          omega)
    have hFourthChar := base64Char_ne_eq (show c.toNat % 64 < 64 by omega)
    simp only [base64Groups, base64_index_first, base64_index_second, base64_index_third,
      base64_index_fourth, List.getD_cons_zero, List.getD_cons_succ, List.cons_append,
      decode64Groups, decode64Group]
    rw [decode64tab_base64Char _ (by omega), decode64tab_base64Char _ (by omega),
      decode64tab_base64Char _ (by omega),
      decode64tab_base64Char _ (by omega), hFirst,
      hSecond, hThird, ih]
    simp [hThirdChar, hFourthChar]

/- Every character of a group is looked at. -/
theorem filter_base64Groups (text : List Byte) : (base64Groups text).filter isBase64 =
      base64Groups text := by
  have hByte : ∀ b : Byte, b.toNat < 256 := fun b => b.toNat_lt
  have hPad : isBase64 (chr '=') = true := by decide
  induction text using base64Groups.induct with
  | case1 => rfl
  | case2 a =>
    have ha := hByte a
    simp only [base64Groups, base64_index_first, base64_index_second, List.getD_nil]
    simp [hPad, isBase64_base64Char (show a.toNat / 4 < 64 by omega),
      isBase64_base64Char (show a.toNat % 4 * 16 < 64 by omega)]
  | case3 a b =>
    have ha := hByte a
    have hb := hByte b
    simp only [base64Groups, base64_index_first, base64_index_second, base64_index_third,
      List.getD_cons_zero, List.getD_cons_succ, List.getD_nil]
    simp [hPad, isBase64_base64Char (show a.toNat / 4 < 64 by omega),
      isBase64_base64Char (show a.toNat % 4 * 16 + b.toNat / 16 < 64 by
          omega),
      isBase64_base64Char (show b.toNat % 16 * 4 < 64 by omega)]
  | case4 a b c rest ih =>
    have ha := hByte a
    have hb := hByte b
    have hc := hByte c
    simp only [base64Groups, base64_index_first, base64_index_second, base64_index_third,
      base64_index_fourth, List.getD_cons_zero, List.getD_cons_succ]
    simp [ih, isBase64_base64Char (show a.toNat / 4 < 64 by omega),
      isBase64_base64Char (show a.toNat % 4 * 16 + b.toNat / 16 < 64 by
          omega),
      isBase64_base64Char (show b.toNat % 16 * 4 + c.toNat / 64 < 64 by
          omega),
      isBase64_base64Char (show c.toNat % 64 < 64 by omega)]

/- The stream decodes what the encoder writes. -/
theorem base64Stream_base64Lines (blocks : List (List Byte)) :
    base64Stream (base64Lines blocks) = blocks.flatten := by
  unfold base64Stream
  induction blocks with
  | nil => rfl
  | cons block blocks ih =>
    rw [base64Lines, List.flatMap_cons, List.filter_append, List.filter_append, filter_base64Groups,
      show [nl].filter isBase64 = [] by decide,
      List.append_nil, decode64Groups_base64Groups]
    rw [List.flatten_cons, ← ih]
    rfl

/- The encodings that change the text of a body. -/
inductive TransferEncoding where
  | base64
  | quotedPrintable
deriving DecidableEq, Repr

/- The name of an encoding in the header. -/
def TransferEncoding.name : TransferEncoding → List Byte
  | .base64 => bytes "base64"
  | .quotedPrintable => bytes "quoted-printable"

/-
  Whatever the cuts on both sides, decoding the output of
  the encoder gives back its input, and no line of the
  output is longer than 76 bytes.
-/
theorem transfer_roundTrip (te : TransferEncoding) (pieces calls : List (List Byte))
    (hCalls : calls.flatten = (encoder (encodeStart te.name)).run pieces) :
    (cdecoder (cdecodeStart (some te.name))).run calls = pieces.flatten ∧
      LinesAtMost 76 ((encoder (encodeStart te.name)).run pieces) := by
  cases te with
  | base64 =>
    have hEncode : encodeStart (TransferEncoding.base64).name = .base64 := by decide
    have hDecode : cdecodeStart (some (TransferEncoding.base64).name) = .base64 := by decide
    rcases base64Encoder_run pieces with ⟨blocks, hBlocks, hInput, hRun⟩
    rw [hEncode, hRun] at hCalls ⊢
    rw [hDecode, base64_realizes.run_eq calls trivial, hCalls, base64Stream_base64Lines]
    exact ⟨hInput, LinesAtMost.of_linesFit (base64Lines_linesFit blocks hBlocks)⟩
  | quotedPrintable =>
    have hEncode : encodeStart (TransferEncoding.quotedPrintable).name = .quotedPrintable := by
      decide
    have hDecode : cdecodeStart (some (TransferEncoding.quotedPrintable).name) =
          .quotedPrintable := by
      decide
    have hLines : LinesAtMost 76 (qpEncode 0 pieces.flatten) :=
      LinesAtMost.of_linesFit (qpEncode_linesFit _ _ (by omega))
    rw [hEncode, qpEncoder_run] at hCalls ⊢
    rw [hDecode, qp_realizes.run_eq calls (hCalls ▸ QpCutSafe.of_linesAtMost hLines
        (by omega)), hCalls, qpStream_qpEncode]
    exact ⟨rfl, hLines⟩

/- Encoding in two pieces, decoding in one. -/
theorem transfer_roundTrip_hello : (cdecoder (cdecodeStart (some (bytes "base64")))).run
        [bytes "aGVsbG8h\n"] =
      bytes "hello!" := by
  have hRun :
      [bytes "aGVsbG8h\n"].flatten =
        (encoder (encodeStart
          (TransferEncoding.base64).name)).run
            [bytes "hel", bytes "lo!"] := by
    decide
  exact (transfer_roundTrip .base64
    [bytes "hel", bytes "lo!"] [bytes "aGVsbG8h\n"] hRun).1

end Wmail.Rfc2045
