import Wmail.Authlib.CramLogin
import Wmail.Authlib.HmacCorrect

/-
  What a response must be to be accepted (cramlib.c).

  The digits of a response are compared as numbers, and a
  character that is no digit counts as -1.  Such a response is
  accepted if its numbers are those of the digest, modulo 256.

  Key theorems include:
    * `authVerifyCram_iff`
    * `cram_sound_iff`
-/

namespace Wmail.Authlib

/- A hexadecimal digit of either case. -/
def hexValue (c : Byte) : Option Nat :=
  if chr '0' ≤ c && c ≤ chr '9' then
    some (c.toNat - 48)
  else if chr 'a' ≤ c && c ≤ chr 'f' then
    some (c.toNat - 97 + 10)
  else if chr 'A' ≤ c && c ≤ chr 'F' then
    some (c.toNat - 65 + 10)
  else
    none

/- Two digits for each byte. -/
def HexText : List Byte → List Byte → Prop
  | a :: b :: text, c :: value =>
    (∃ i j, hexValue a = some i ∧ hexValue b = some j ∧ c.toNat = 16 * i + j) ∧ HexText text value
  | [], [] => True
  | _, _ => False

/- A digit, or -1. -/
def looseDigit (c : Byte) : Int :=
  match hexValue c with
  | some i => i
  | none => -1

/- Two characters for each byte, compared as numbers. -/
def LooseText : List Byte → List Byte → Prop
  | a :: b :: text, c :: value =>
    UInt8.ofInt (16 * looseDigit a + looseDigit b) = c ∧ LooseText text value
  | [], [] => True
  | _, _ => False

theorem byte_le_iff (b c : Byte) : b ≤ c ↔ b.toNat ≤ c.toNat :=
  UInt8.le_iff_toNat_le

theorem hexValue_lt {c : Byte} {i : Nat} (hDigit : hexValue c = some i) : i < 16 := by
  unfold hexValue at hDigit
  simp only [Bool.and_eq_true, decide_eq_true_eq, byte_le_iff] at hDigit
  split at hDigit
  · rename_i hRange
    have hHigh : c.toNat ≤ 57 := hRange.2
    cases hDigit
    omega
  · split at hDigit
    · rename_i hRange
      have hHigh : c.toNat ≤ 102 := hRange.2
      cases hDigit
      omega
    · split at hDigit
      · rename_i hRange
        have hHigh : c.toNat ≤ 70 := hRange.2
        cases hDigit
        omega
      · cases hDigit

/- What the server reads a character as. -/
theorem nybble_eq (c : Byte) : nybble c = looseDigit c := by
  unfold nybble looseDigit hexValue
  simp only [Bool.and_eq_true, decide_eq_true_eq, byte_le_iff]
  split
  · rename_i hRange
    have hLow : 48 ≤ c.toNat := hRange.1
    simp only []
    omega
  · split
    · rename_i hRange
      have hLow : 97 ≤ c.toNat := hRange.1
      simp only []
      omega
    · split
      · rename_i hRange
        have hLow : 65 ≤ c.toNat := hRange.1
        simp only []
        omega
      · rfl

theorem nybble_nonneg_iff (c : Byte) : 0 ≤ nybble c ↔ (hexValue c).isSome := by
  rw [nybble_eq]
  unfold looseDigit
  cases hexValue c with
  | none => simp
  | some i => simp

/- Digits that stand for a byte make it up. -/
theorem ofInt_digits {a b c : Byte} {i j : Nat} (hHigh : hexValue a = some i)
    (hLow : hexValue b = some j) :
    UInt8.ofInt (16 * looseDigit a + looseDigit b) = c ↔ c.toNat = 16 * i + j := by
  have hi := hexValue_lt hHigh
  have hj := hexValue_lt hLow
  have hSum : ((16 * (i : Int) + j) % 2 ^ 8).toNat = 16 * i + j := by omega
  unfold looseDigit UInt8.ofInt
  rw [hHigh, hLow]
  simp only [hSum]
  rw [← UInt8.toNat_inj, UInt8.toNat_ofNat', Nat.mod_eq_of_lt (by omega)]
  exact eq_comm

/- Loosely, and with digits only, is as it should be. -/
theorem hexText_iff (text value : List Byte) : HexText text value ↔
      LooseText text value ∧ ∀ c ∈ text, (hexValue c).isSome := by
  induction text, value using HexText.induct with
  | case1 a b text c value ih =>
    rw [HexText, LooseText, ih, List.forall_mem_cons, List.forall_mem_cons]
    constructor
    · rintro ⟨⟨i, j, hHigh, hLow, hByte⟩, hText, hDigits⟩
      refine ⟨⟨(ofInt_digits hHigh hLow).mpr hByte, hText⟩, ?_, ?_, hDigits⟩
      · rw [hHigh]
        rfl
      · rw [hLow]
        rfl
    · rintro ⟨⟨hByte, hText⟩, hHigh, hLow, hDigits⟩
      rcases Option.isSome_iff_exists.mp hHigh with ⟨i, hi⟩
      rcases Option.isSome_iff_exists.mp hLow with ⟨j, hj⟩
      exact ⟨⟨i, j, hi, hj, (ofInt_digits hi hj).mp hByte⟩, hText, hDigits⟩
  | case2 => simp [HexText, LooseText]
  | case3 text value hPair hNil =>
    have hHex : ¬ HexText text value := by
      rw [HexText.eq_def]
      split
      · exact fun _ => hPair _ _ _ _ _ rfl rfl
      · exact fun _ => hNil rfl rfl
      · exact id
    have hLoose : ¬ LooseText text value := by
      rw [LooseText.eq_def]
      split
      · exact fun _ => hPair _ _ _ _ _ rfl rfl
      · exact fun _ => hNil rfl rfl
      · exact id
    exact iff_of_false hHex fun hBoth => hLoose hBoth.1

theorem LooseText.length {text value : List Byte} (hText : LooseText text value) :
    text.length = value.length * 2 := by
  induction text, value using LooseText.induct with
  | case1 a b text c value ih =>
    rw [LooseText] at hText
    rw [List.length_cons, List.length_cons, List.length_cons, ih hText.2, Nat.succ_mul]
  | case2 => rfl
  | case3 text value hPair hNil =>
    rw [LooseText.eq_def] at hText
    split at hText
    · exact absurd rfl (hPair _ _ _ _ _ rfl)
    · exact absurd rfl (hNil rfl)
    · exact False.elim hText

/- The secret is read if it consists of digits. -/
theorem contextOf_iff {text : List Byte} (hEven : text.length % 2 = 0) (value : List Byte) :
    contextOf text = some value ↔ HexText text value := by
  induction text using contextOf.induct generalizing value with
  | case1 a b rest hBad =>
    rw [contextOf, if_pos hBad]
    constructor
    · intro hNone
      cases hNone
    · intro hText
      have hDigits := ((hexText_iff _ _).mp hText).2
      have ha := (nybble_nonneg_iff a).mpr (hDigits a List.mem_cons_self)
      have hb := (nybble_nonneg_iff b).mpr (hDigits b (List.mem_cons_of_mem a List.mem_cons_self))
      omega
  | case2 a b rest hGood ih =>
    have ha := Option.isSome_iff_exists.mp ((nybble_nonneg_iff a).mp (by omega))
    have hb := Option.isSome_iff_exists.mp ((nybble_nonneg_iff b).mp (by omega))
    rcases ha with ⟨i, hi⟩
    rcases hb with ⟨j, hj⟩
    have hRest : rest.length % 2 = 0 := by
      rw [List.length_cons, List.length_cons] at hEven
      omega
    rw [contextOf, if_neg hGood, Option.map_eq_some_iff, nybble_eq, nybble_eq, Int.mul_comm]
    constructor
    · rintro ⟨more, hMore, hValue⟩
      rw [← hValue, HexText]
      exact ⟨⟨i, j, hi, hj, (ofInt_digits hi hj).mp rfl⟩, (ih hRest more).mp hMore⟩
    · intro hText
      cases value with
      | nil => exact False.elim hText
      | cons c value =>
        rw [HexText] at hText
        rcases hText with ⟨⟨m, n, hm, hn, hByte⟩, hText⟩
        exact ⟨value, (ih hRest value).mpr hText, by
          rw [(ofInt_digits hm hn).mpr hByte]⟩
  | case3 text hPair =>
    cases text with
    | nil =>
      rw [contextOf]
      · cases value with
        | nil => simp [HexText]
        | cons c value => simp [HexText]
      · exact hPair
    | cons a text =>
      cases text with
      | nil =>
        rw [List.length_singleton] at hEven
        omega
      | cons b text => exact absurd rfl (hPair a b text)

/- The numbers of the response are those of the digest. -/
theorem sameDigest_iff {text value : List Byte} (hLength : text.length = value.length * 2) :
    sameDigest text value = true ↔ LooseText text value := by
  induction text, value using LooseText.induct with
  | case1 a b text c value ih =>
    have hRest : text.length = value.length * 2 := by
      simp only [List.length_cons] at hLength
      omega
    rw [sameDigest, LooseText, Bool.and_eq_true, decide_eq_true_eq, ih hRest, nybble_eq, nybble_eq,
      Int.mul_comm]
  | case2 => simp [sameDigest, LooseText]
  | case3 text value hPair hNil =>
    cases text with
    | nil =>
      cases value with
      | nil => exact absurd rfl (hNil rfl)
      | cons c value => simp at hLength
    | cons a text =>
      cases text with
      | nil =>
        rw [List.length_singleton] at hLength
        omega
      | cons b text =>
        cases value with
        | nil => simp at hLength
        | cons c value => exact absurd rfl (hPair a b text c value rfl)

/- A response is accepted that loosely reads as the digest. -/
theorem authVerifyCram_iff (hash : HashInfo) (challenge response hashsecret : List Byte) :
    authVerifyCram hash challenge response hashsecret = true ↔
      ∃ outer inner, outer.length = hash.L ∧ inner.length = hash.L ∧
          HexText hashsecret (outer ++ inner) ∧
          LooseText response (hash.hashtext challenge outer inner) := by
  unfold authVerifyCram
  constructor
  · intro hAccept
    split at hAccept
    · cases hAccept
    · rename_i hLengths
      cases hContext : contextOf hashsecret with
      | none =>
        rw [hContext] at hAccept
        cases hAccept
      | some context =>
        rw [hContext] at hAccept
        have hSecret := (contextOf_iff (by omega) context).mp hContext
        have hDouble := ((hexText_iff _ _).mp hSecret).1.length
        have hInner : (context.drop hash.L).length ≤ hash.L := by
          rw [List.length_drop]
          omega
        refine ⟨context.take hash.L, context.drop hash.L, ?_, ?_, ?_, ?_⟩
        · rw [List.length_take]
          omega
        · rw [List.length_drop]
          omega
        · rw [List.take_append_drop]
          exact hSecret
        · simp only [List.take_of_length_le hInner] at hAccept
          rw [sameDigest_iff (by rw [length_hashtext]; omega)] at hAccept
          exact hAccept
  · rintro ⟨outer, inner, hOuter, hInner, hSecret, hResponse⟩
    have hDouble := ((hexText_iff _ _).mp hSecret).1.length
    have hDigest := hResponse.length
    rw [List.length_append] at hDouble
    rw [length_hashtext] at hDigest
    rw [if_neg (by omega), (contextOf_iff (by omega) _).mpr hSecret]
    simp only [List.take_left' hOuter, List.drop_left' hOuter]
    rw [List.take_of_length_le (Nat.le_of_eq hInner),
      sameDigest_iff (by rw [length_hashtext]; omega)]
    exact hResponse

/-
  What is accepted is the hexadecimal form of the digest, and
  the secret is that of two contexts.
-/
def CramSound (hash : HashInfo) (challenge response hashsecret : List Byte) : Prop :=
  authVerifyCram hash challenge response hashsecret = true → ∃ outer inner,
      outer.length = hash.L ∧ inner.length = hash.L ∧ HexText hashsecret (outer ++ inner) ∧
        response.length = 2 * hash.L ∧
        HexText response (hash.hashtext challenge outer inner)

/-
  It is, unless characters that are no digits make up numbers
  of the digest.
-/
theorem cram_sound_iff (hash : HashInfo) (challenge response hashsecret : List Byte) :
    CramSound hash challenge response hashsecret ↔ ∀ outer inner,
        outer.length = hash.L → inner.length = hash.L →
            HexText hashsecret (outer ++ inner) → LooseText response
                  (hash.hashtext challenge outer inner) →
                ∀ c ∈ response, (hexValue c).isSome := by
  unfold CramSound
  rw [authVerifyCram_iff]
  constructor
  · intro hSound outer inner hOuter hInner hSecret hLoose
    rcases hSound ⟨outer, inner, hOuter, hInner, hSecret, hLoose⟩ with ⟨_, _, _, _, _, _, hResponse⟩
    exact ((hexText_iff _ _).mp hResponse).2
  · rintro hDigits ⟨outer, inner, hOuter, hInner, hSecret, hLoose⟩
    have hLength := hLoose.length
    rw [length_hashtext] at hLength
    exact ⟨outer, inner, hOuter, hInner, hSecret, by omega, (hexText_iff _ _).mpr ⟨hLoose,
        hDigits outer inner hOuter hInner hSecret hLoose⟩⟩

/- A hash whose digests are one byte. -/
def oneByte (digest : Byte) : HashInfo where
  Context := Unit
  name := bytes "one"
  B := 64
  L := 1
  init := ()
  hash _ _ := ()
  endhash _ _ := ()
  getdigest _ := [digest]
  setdigest _ := ()
  length_getdigest _ := rfl

/- The digest `ff` is also made up of `0` and `/`. -/
theorem not_cram_sound : ¬ CramSound (oneByte 0xFF) (bytes "challenge") (bytes "0/")
      (bytes "0000") := by
  intro hSound
  have hAccept : authVerifyCram (oneByte 0xFF) (bytes "challenge")
      (bytes "0/") (bytes "0000") = true := by
    decide
  rcases hSound hAccept with ⟨_, _, _, _, _, _, hResponse⟩
  have hDigit := ((hexText_iff _ _).mp hResponse).2 (chr '/') (by decide)
  exact absurd hDigit (by decide)

------------
-- The Keyed Hash of the Password
------------

/-
  The client answers with the digits of the keyed hash of the
  challenge under the password; with the secret of that
  password the server accepts what loosely reads as this hash.
-/
theorem cram_hmac_iff {hash : HashInfo} {H : IteratedHash Byte} (hStreams : Streams hash H)
    (hDigest : hash.L ≤ hash.B) (hSize : hash.B < 2 ^ 32) {password challenge : List Byte}
    (hKey : password.length < 2 ^ 32) (hText : challenge.length < 2 ^ 32)
    (userid response : List Byte) :
    authsaslclientCram ⟨some userid, some password⟩ (Rfc2045.base64Groups challenge) hash =
        some (Rfc2045.base64Groups (userid ++ [chr ' '] ++ hexOf (hmacOf H password challenge))) ∧
      (authVerifyCram hash challenge response (hashsecret hash password) = true ↔
        LooseText response (hmacOf H password challenge)) := by
  have hHmac := hmac_eq hStreams hDigest hSize hKey hText
  unfold HashInfo.hmac at hHmac
  rw [if_neg (Nat.not_le_of_lt hSize), Option.some.injEq] at hHmac
  rcases length_hashkey hash password with ⟨hOuter, hInner⟩
  constructor
  · unfold authsaslclientCram
    rw [authsaslFrombase64_base64Groups]
    dsimp only [Option.map_some, Option.getD_some]
    rw [hHmac, authsaslTobase64_eq]
  have hSecret : ∀ value, HexText (hashsecret hash password) value ↔
      value = (hash.hashkey password).1 ++ (hash.hashkey password).2 := by
    intro value
    unfold hashsecret
    rw [← contextOf_iff (by rw [length_hexOf]; omega), contextOf_hexOf, Option.some.injEq, eq_comm]
  rw [authVerifyCram_iff, ← hHmac]
  constructor
  · rintro ⟨outer, inner, hFirst, _, hHex, hLoose⟩
    rcases List.append_inj ((hSecret _).mp hHex) (hFirst.trans hOuter.symm) with ⟨rfl, rfl⟩
    exact hLoose
  · exact fun hLoose => ⟨_, _, hOuter, hInner, (hSecret _).mpr rfl, hLoose⟩

theorem cram_hmac_iff_md5 : let compress : Compress 4 := fun words _ => words
    let md5 := iterated compress md5ContextInit
      (fun l => littleEndian (UInt32.ofNat l <<< 3) ++ littleEndian (UInt32.ofNat l >>> 29))
      (fun _ => rfl) littleEndian
    authsaslclientCram ⟨some (bytes "joe"), some (bytes "secret")⟩
        (Rfc2045.base64Groups (bytes "<1@h>")) (hmacMd5 compress) =
      some (Rfc2045.base64Groups (bytes "joe" ++ [chr ' '] ++
        hexOf (hmacOf md5 (bytes "secret") (bytes "<1@h>")))) ∧
      (authVerifyCram (hmacMd5 compress) (bytes "<1@h>") (bytes "00")
          (hashsecret (hmacMd5 compress) (bytes "secret")) = true ↔
        LooseText (bytes "00") (hmacOf md5 (bytes "secret") (bytes "<1@h>"))) :=
  cram_hmac_iff (md5Streams fun words _ => words) (by decide) (by decide) (by decide) (by decide)
    (bytes "joe") (bytes "00")

end Wmail.Authlib
