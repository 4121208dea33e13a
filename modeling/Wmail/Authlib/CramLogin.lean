import Wmail.Authlib.Cram
import Wmail.Rfc2045.TransferRoundTrip

/-
  A client that knows the password is let in.

  Key theorems include:
    * `sameDigest_hexOf`
    * `cram_login`
-/

namespace Wmail.Authlib

open Rfc2045

/- The bytes that `write_challenge` copies. -/
def copied (b : Byte) : Bool :=
  b ≠ cr && b ≠ nl

/- Groups of three bytes are encoded on their own. -/
theorem base64Groups_append {front : List Byte} (hThree : 3 ∣ front.length) (rest : List Byte) :
    base64Groups (front ++ rest) = base64Groups front ++ base64Groups rest := by
  induction front using base64Groups.induct with
  | case1 => rfl
  | case2 a => simp at hThree
  | case3 a b =>
    rw [List.length_cons, List.length_singleton] at hThree
    omega
  | case4 a b c more ih =>
    have hMore : 3 ∣ more.length := by
      simp only [List.length_cons] at hThree
      omega
    simp only [List.cons_append, base64Groups, List.getD_cons_zero, List.getD_cons_succ, ih hMore]

theorem filter_copied_base64Groups (text : List Byte) :
    (base64Groups text).filter copied = base64Groups text := by
  have hAll := filter_base64Groups text
  rw [List.filter_eq_self] at hAll ⊢
  intro b hMem
  have hKept := hAll b hMem
  have hCr : b ≠ cr := by
    intro hEq
    rw [hEq] at hKept
    exact absurd hKept (by decide)
  have hNl : b ≠ nl := by
    intro hEq
    rw [hEq] at hKept
    exact absurd hKept (by decide)
  unfold copied
  rw [decide_eq_true hCr, decide_eq_true hNl]
  rfl

/-
  The input consists of bytes whose groups have been written,
  and of the bytes in the input buffer.
-/
def Base64Pending (input : List Byte) (info : EncodeInfo) : Prop :=
  info.inputBuffer.length ≤ inputBufferSize ∧ ∃ sent, 3 ∣ sent.length ∧
        input = sent ++ info.inputBuffer ∧
        info.output.filter copied = base64Groups sent

/- Flushing writes the groups of the buffered bytes. -/
theorem base64Flush_pending {sent : List Byte} {info : EncodeInfo}
    (hThree : 3 ∣ sent.length) (hOutput : info.output.filter copied = base64Groups sent) :
    ∃ next, base64Flush (Sink.accept Byte) info = (0, next) ∧
        next.inputBuffer = [] ∧
        next.output.filter copied = base64Groups (sent ++ info.inputBuffer) := by
  rcases eflush_accept { info with inputBuffer := [] } (base64Groups info.inputBuffer ++ [nl]) with
    ⟨next, hNext, hNextOut, hBuffer, _⟩
  have hNl : [nl].filter copied = [] := rfl
  have hSame : ({ info with inputBuffer := [] } : EncodeInfo).output = info.output := rfl
  refine ⟨next, hNext, hBuffer, ?_⟩
  rw [hNextOut, hSame, List.filter_append, List.filter_append, hOutput, filter_copied_base64Groups,
    hNl, List.append_nil, base64Groups_append hThree]

theorem base64Loop_pending (buf : List Byte) {input : List Byte} {info : EncodeInfo}
    (hRel : Base64Pending input info) :
    ∃ next, base64Loop (Sink.accept Byte) info buf = (0, next) ∧
        Base64Pending (input ++ buf) next := by
  induction buf generalizing input info with
  | nil =>
    rw [List.append_nil]
    exact ⟨info, rfl, hRel⟩
  | cons c buf ih =>
    rcases hRel with ⟨hSize, sent, hThree, hInput, hOutput⟩
    have hSplit : input ++ c :: buf = (input ++ [c]) ++ buf := by
      rw [List.append_assoc, List.singleton_append]
    rw [hSplit]
    unfold base64Loop
    by_cases hFull : info.inputBuffer.length = inputBufferSize
    · rcases base64Flush_pending hThree hOutput with ⟨room, hFlush, hEmpty, hRoom⟩
      rw [if_pos hFull, hFlush, Rc.andThen_zero]
      apply ih
      refine ⟨?_, sent ++ info.inputBuffer, ?_, ?_, hRoom⟩
      · rw [hEmpty]
        exact Nat.succ_le_succ (Nat.zero_le 56)
      · rw [List.length_append, hFull]
        unfold inputBufferSize
        omega
      · rw [hInput, hEmpty]
        rfl
    · rw [if_neg hFull, Rc.andThen_zero]
      apply ih
      refine ⟨?_, sent, hThree, ?_, hOutput⟩
      · rw [List.length_append, List.length_singleton]
        omega
      · rw [hInput, List.append_assoc]

/- The text that is sent is that of the groups. -/
theorem authsaslTobase64_eq (p : List Byte) : authsaslTobase64 p = base64Groups p := by
  have hStart : Base64Pending [] (encoder .base64).init :=
    ⟨Nat.zero_le _, [], Nat.dvd_zero 3, rfl, rfl⟩
  have hFunc : encodeStart (bytes "base64") = .base64 := by decide
  rcases base64Loop_pending p hStart with ⟨info, hLoop, _, sent, hThree, hInput, hOutput⟩
  rw [List.nil_append] at hInput
  have hFeed : (encoder .base64).feedAll [p] = info := by
    have hStep : (encoder .base64).feedAll [p] =
        (base64Loop (Sink.accept Byte) (encoder .base64).init p).2 := rfl
    rw [hStep, hLoop]
  have hEnd : ∃ next, base64 (Sink.accept Byte) info none = (0, next) ∧
        next.output.filter copied = base64Groups p := by
    unfold base64
    by_cases hEmpty : info.inputBuffer = []
    · refine ⟨info, by simp [hEmpty], ?_⟩
      rw [hOutput, hInput, hEmpty, List.append_nil]
    · rcases base64Flush_pending hThree hOutput with ⟨next, hNext, _, hWritten⟩
      refine ⟨next, by simp [hEmpty, hNext], ?_⟩
      rw [hWritten, hInput]
  rcases hEnd with ⟨next, hNext, hWritten⟩
  unfold authsaslTobase64
  rw [hFunc]
  unfold Transducer.run
  rw [hFeed]
  have hFinish : (encoder .base64).finish info = next.output := by
    simp only [encoder, encodeEnd, EncodingFunc.apply, hNext, Rc.andThen_zero]
    rw [sent_flatten_encodeEnd]
  rw [hFinish]
  exact hWritten

------------
-- Decoding Base64
------------

/- The table of the decoder inverts that of the encoder. -/
theorem saslDecode64tab_base64Char : ∀ i, i < 64 → saslDecode64tab (base64Char i) = i := by
  decide

theorem saslDecode64tab_lt {i : Nat} (hIndex : i < 64) : saslDecode64tab (base64Char i) < 100 := by
  rw [saslDecode64tab_base64Char i hIndex]
  omega

/- The groups decode to the text. -/
theorem frombase64Groups_base64Groups (text : List Byte) :
    frombase64Groups (base64Groups text) = text := by
  have hByte : ∀ b : Byte, b.toNat < 256 := fun b => b.toNat_lt
  induction text using base64Groups.induct with
  | case1 => rfl
  | case2 a =>
    have ha := hByte a
    have hFirst := decode64_first a 0
    simp only [base64Groups, base64_index_first, base64_index_second, List.getD_nil,
      frombase64Groups, frombase64Group]
    rw [saslDecode64tab_base64Char _ (by omega),
      saslDecode64tab_base64Char _ (by simp; omega), hFirst]
    simp
  | case3 a b =>
    have ha := hByte a
    have hb := hByte b
    have hFirst := decode64_first a b
    have hSecond := decode64_second a b 0
    have hThird : base64Char (b.toNat % 16 * 4) ≠ chr '=' := base64Char_ne_eq (by omega)
    simp only [base64Groups, base64_index_first, base64_index_second, base64_index_third,
      List.getD_cons_zero, List.getD_cons_succ, List.getD_nil, frombase64Groups, frombase64Group]
    rw [saslDecode64tab_base64Char _ (by omega), saslDecode64tab_base64Char _ (by omega),
      saslDecode64tab_base64Char _ (by simp; omega), hFirst,
      hSecond]
    simp [hThird]
  | case4 a b c rest ih =>
    have ha := hByte a
    have hb := hByte b
    have hc := hByte c
    have hFirst := decode64_first a b
    have hSecond := decode64_second a b c
    have hThird := decode64_third b c
    have hThirdChar : base64Char (b.toNat % 16 * 4 + c.toNat / 64) ≠ chr '=' :=
      base64Char_ne_eq (by omega)
    have hFourthChar : base64Char (c.toNat % 64) ≠ chr '=' := base64Char_ne_eq (by omega)
    simp only [base64Groups, base64_index_first, base64_index_second, base64_index_third,
      base64_index_fourth, List.getD_cons_zero,
      List.getD_cons_succ, frombase64Groups, frombase64Group]
    rw [saslDecode64tab_base64Char _ (by omega), saslDecode64tab_base64Char _ (by omega),
      saslDecode64tab_base64Char _ (by omega),
      saslDecode64tab_base64Char _ (by omega), hFirst,
      hSecond, hThird, ih]
    simp [hThirdChar, hFourthChar]

/- Characters of the alphabet, then at most two pads. -/
theorem base64Groups_shape (text : List Byte) : ∃ front pads,
      base64Groups text = front ++ List.replicate pads (chr '=') ∧ pads ≤ 2 ∧
        ∀ b ∈ front, saslDecode64tab b < 100 := by
  have hByte : ∀ b : Byte, b.toNat < 256 := fun b => b.toNat_lt
  induction text using base64Groups.induct with
  | case1 => exact ⟨[], 0, rfl, Nat.zero_le 2, by simp⟩
  | case2 a =>
    have ha := hByte a
    simp only [base64Groups, base64_index_first, base64_index_second, List.getD_nil]
    refine ⟨[_, _], 2, rfl, Nat.le_refl 2, ?_⟩
    rw [List.forall_mem_cons, List.forall_mem_singleton]
    exact ⟨saslDecode64tab_lt (by omega), saslDecode64tab_lt (by simp; omega)⟩
  | case3 a b =>
    have ha := hByte a
    have hb := hByte b
    simp only [base64Groups, base64_index_first, base64_index_second, base64_index_third,
      List.getD_cons_zero, List.getD_cons_succ, List.getD_nil]
    refine ⟨[_, _, _], 1, rfl, Nat.le_succ 1, ?_⟩
    rw [List.forall_mem_cons, List.forall_mem_cons, List.forall_mem_singleton]
    exact ⟨saslDecode64tab_lt (by omega), saslDecode64tab_lt (by omega),
      saslDecode64tab_lt (by simp; omega)⟩
  | case4 a b c rest ih =>
    have ha := hByte a
    have hb := hByte b
    have hc := hByte c
    rcases ih with ⟨front, pads, hShape, hPads, hFront⟩
    simp only [base64Groups, base64_index_first, base64_index_second, base64_index_third,
      base64_index_fourth, List.getD_cons_zero, List.getD_cons_succ, hShape]
    refine ⟨_ :: _ :: _ :: _ :: front, pads, rfl, hPads, ?_⟩
    rw [List.forall_mem_cons, List.forall_mem_cons, List.forall_mem_cons, List.forall_mem_cons]
    exact ⟨saslDecode64tab_lt (by omega), saslDecode64tab_lt (by omega),
      saslDecode64tab_lt (by omega),
      saslDecode64tab_lt (by omega), hFront⟩

/- What was encoded is decoded. -/
theorem authsaslFrombase64_base64Groups (text : List Byte) :
    authsaslFrombase64 (base64Groups text) = some text := by
  rcases base64Groups_shape text with ⟨front, pads, hShape, hPads, hFront⟩
  have hLength := base64Groups_length text
  have hGroups := frombase64Groups_base64Groups text
  have hAll : ∀ b ∈ front, decide (saslDecode64tab b < 100) = true := by
    intro b hMem
    rw [decide_eq_true_iff]
    exact hFront b hMem
  have hPad : ¬ decide (saslDecode64tab (chr '=') < 100) = true := by decide
  have hTake : (List.replicate pads (chr '=')).takeWhile (saslDecode64tab · < 100) = [] := by
    cases pads with
    | zero => rfl
    | succ pads =>
      rw [List.replicate_succ]
      exact List.takeWhile_cons_of_neg hPad
  have hDrop : (List.replicate pads (chr '=')).dropWhile (saslDecode64tab · < 100) =
        List.replicate pads (chr '=') := by
    cases pads with
    | zero => rfl
    | succ pads =>
      rw [List.replicate_succ]
      exact List.dropWhile_cons_of_neg hPad
  have hEquals : (List.replicate pads (chr '=')).takeWhile
      (· = chr '=') = List.replicate pads (chr '=') := by
    rw [List.takeWhile_eq_self_iff]
    intro b hMem
    rw [decide_eq_true_iff]
    exact (List.mem_replicate.mp hMem).2
  unfold authsaslFrombase64
  simp only [hShape, List.takeWhile_append_of_pos hAll, List.dropWhile_append_of_pos hAll, hTake,
    hDrop, hEquals, List.append_nil, List.length_replicate]
  rw [hShape] at hLength hGroups
  rw [if_neg, hGroups]
  omega

/- The two digits of a byte stand for it. -/
theorem nybble_xdigit : ∀ c : Byte, 0 ≤ nybble (xdigit (c >>> 4 &&& 0x0F)) ∧
        0 ≤ nybble (xdigit (c &&& 0x0F)) ∧
        UInt8.ofInt (nybble (xdigit (c >>> 4 &&& 0x0F)) * 16 + nybble (xdigit (c &&& 0x0F))) = c ∧
        xdigit (c >>> 4 &&& 0x0F) ≠ 0 ∧
        xdigit (c &&& 0x0F) ≠ 0 := by
  apply byte_forall
  decide +kernel

theorem hexOf_cons (c : Byte) (text : List Byte) : hexOf (c :: text) =
      xdigit (c >>> 4 &&& 0x0F) :: xdigit (c &&& 0x0F) :: hexOf text :=
  rfl

theorem length_hexOf (text : List Byte) : (hexOf text).length = text.length * 2 := by
  induction text with
  | nil => rfl
  | cons c text ih =>
    rw [hexOf_cons, List.length_cons, List.length_cons, ih, List.length_cons, Nat.succ_mul]

theorem nul_not_mem_hexOf (text : List Byte) : 0 ∉ hexOf text := by
  induction text with
  | nil => exact List.not_mem_nil
  | cons c text ih =>
    rcases nybble_xdigit c with ⟨_, _, _, hHigh, hLow⟩
    rw [hexOf_cons]
    intro hMem
    rcases List.mem_cons.mp hMem with hEq | hMem
    · exact hHigh hEq.symm
    rcases List.mem_cons.mp hMem with hEq | hMem
    · exact hLow hEq.symm
    · exact ih hMem

/- A stored context is read back. -/
theorem contextOf_hexOf (text : List Byte) : contextOf (hexOf text) = some text := by
  induction text with
  | nil => rfl
  | cons c text ih =>
    rcases nybble_xdigit c with ⟨hHigh, hLow, hByte, _, _⟩
    rw [hexOf_cons, contextOf, if_neg (by omega), ih, hByte]
    rfl

/- A digest is equal to its digits. -/
theorem sameDigest_hexOf (text : List Byte) : sameDigest (hexOf text) text = true := by
  induction text with
  | nil => rfl
  | cons c text ih =>
    rcases nybble_xdigit c with ⟨_, _, hByte, _, _⟩
    rw [hexOf_cons, sameDigest, hByte, ih, decide_eq_true rfl]
    rfl

/- The secret that is stored for a password. -/
def hashsecret (hash : HashInfo) (password : List Byte) : List Byte :=
  hexOf ((hash.hashkey password).1 ++ (hash.hashkey password).2)

/- A line is taken off. -/
theorem strtokLine_line {line : List Byte} (hSome : line ≠ []) (hLine : nl ∉ line)
    (rest : List Byte) : strtokLine (line ++ nl :: rest) = some (line, rest) := by
  have hAll : ∀ b ∈ line, decide (b ≠ nl) = true := by
    intro b hMem
    rw [decide_eq_true_iff]
    intro hEq
    rw [hEq] at hMem
    exact hLine hMem
  have hFront : (line ++ nl :: rest).dropWhile (· = nl) = line ++ nl :: rest := by
    cases line with
    | nil => exact absurd rfl hSome
    | cons b line =>
      have hStop : ¬ decide (b = nl) = true := by
        rw [decide_eq_true_iff]
        intro hEq
        exact hLine (hEq ▸ List.mem_cons_self)
      exact List.dropWhile_cons_of_neg hStop
  unfold strtokLine
  simp only [hFront, if_neg (List.append_ne_nil_of_left_ne_nil
    hSome (nl :: rest)), List.takeWhile_append_of_pos hAll,
    List.dropWhile_append_of_pos hAll]
  rw [List.takeWhile_cons_of_neg (by simp), List.dropWhile_cons_of_neg (by simp), List.append_nil]
  rfl

theorem base64Groups_ne_nil {text : List Byte} (hSome : text ≠ []) : base64Groups text ≠ [] := by
  have hText := List.length_pos_iff.mpr hSome
  apply List.length_pos_iff.mp
  rw [base64Groups_length]
  omega

/- The parts of a request are told apart. -/
theorem authGetCram_authdata {list : List HashInfo} {hash : HashInfo}
    (hList : list.find? (·.name = hash.name) = some hash)
    {challenge userid digest : List Byte} (hChallenge : challenge ≠ [] ∧ 0 ∉ challenge)
    (hUser : chr ' ' ∉ userid ∧ 0 ∉ userid) (hDigest : 0 ∉ digest) :
    authGetCram list (bytes "cram-" ++ hash.name) (authdataOf (base64Groups challenge)
          (base64Groups (userid ++ [chr ' '] ++ digest))) =
      some
        { hmac := hash
          user := userid
          challenge := challenge
          response := digest } := by
  have hResponse : userid ++ [chr ' '] ++ digest ≠ [] := by simp
  have hBlank : ∀ b ∈ userid, decide (b ≠ chr ' ') = true := by
    intro b hMem
    rw [decide_eq_true_iff]
    intro hEq
    rw [hEq] at hMem
    exact hUser.1 hMem
  have hData : authdataOf (base64Groups challenge) (base64Groups (userid ++ [chr ' '] ++ digest)) =
      base64Groups challenge ++ nl :: (base64Groups (userid ++ [chr ' '] ++ digest) ++
          nl :: []) := by
    unfold authdataOf
    simp
  have hType : (bytes "cram-" ++ hash.name).drop 5 = hash.name := rfl
  unfold authGetCram
  rw [if_neg (not_not.mpr (List.isPrefixOf_iff_prefix.mpr
    (List.prefix_append _ _))), hData, strtokLine_line
    (base64Groups_ne_nil hChallenge.1)
    (nl_not_mem_base64Groups challenge)]
  simp only [strtokLine_line (base64Groups_ne_nil hResponse)
    (nl_not_mem_base64Groups _), hType, hList,
    authsaslFrombase64_base64Groups]
  rw [if_pos (by simp), List.append_assoc, List.takeWhile_append_of_pos hBlank,
    List.dropWhile_append_of_pos hBlank, List.singleton_append,
    List.takeWhile_cons_of_neg (by simp),
    List.dropWhile_cons_of_neg (by simp), List.append_nil,
    List.drop_one, List.tail_cons, cString_eq_self hUser.2,
    cString_eq_self hChallenge.2, cString_eq_self hDigest]

/- The server computes what the client computed. -/
theorem authVerifyCram_hashsecret (hash : HashInfo) (challenge password : List Byte) :
    authVerifyCram hash challenge (hexOf (hash.hashtext challenge
          (hash.hashkey password).1 (hash.hashkey password).2))
        (hashsecret hash password) = true := by
  rcases length_hashkey hash password with ⟨hOuter, hInner⟩
  unfold authVerifyCram hashsecret
  rw [if_neg, contextOf_hexOf]
  · simp only [List.take_left' hOuter, List.drop_left' hOuter]
    rw [List.take_of_length_le (Nat.le_of_eq hInner)]
    exact sameDigest_hexOf _
  · rw [length_hexOf, length_hexOf, length_hashtext, List.length_append, hOuter, hInner]
    omega

/-
  A client that knows the password of a user is let in as that
  user, with each installed hash function.
-/
theorem cram_login (md5 : Compress 4) (sha1 : Compress 5) (hash : HashInfo)
    (hHash : hash ∈ hmacList md5 sha1) (userid password challenge : List Byte)
    (hUser : chr ' ' ∉ userid ∧ 0 ∉ userid) (hChallenge : challenge ≠ [] ∧ 0 ∉ challenge) :
    ∃ response request, authsaslclientCram
            { userid := some userid
              password := some password }
            (authsaslTobase64 challenge) hash =
          some response ∧
        authGetCram (hmacList md5 sha1) (bytes "cram-" ++ hash.name)
            (authdataOf (authsaslTobase64 challenge) response) =
          some request ∧
        request.hmac = hash ∧
        request.user = userid ∧
        authVerifyCram request.hmac request.challenge request.response (hashsecret hash password) =
          true := by
  have hFind : (hmacList md5 sha1).find? (·.name = hash.name) = some hash := by
    rcases List.mem_cons.mp hHash with hEq | hMem
    · rw [hEq]
      rfl
    · rw [List.mem_singleton.mp hMem]
      rfl
  have hClient : authsaslclientCram
      { userid := some userid
        password := some password }
      (authsaslTobase64 challenge) hash =
        some (base64Groups (userid ++ [chr ' '] ++
          hexOf (hash.hashtext challenge (hash.hashkey password).1
            (hash.hashkey password).2))) := by
    unfold authsaslclientCram
    rw [authsaslTobase64_eq, authsaslFrombase64_base64Groups]
    simp only [Option.map_some, Option.getD_some, authsaslTobase64_eq]
  have hServer := authGetCram_authdata hFind hChallenge hUser
    (nul_not_mem_hexOf (hash.hashtext challenge
      (hash.hashkey password).1 (hash.hashkey password).2))
  rw [← authsaslTobase64_eq challenge] at hServer
  exact ⟨_, _, hClient, hServer, rfl, rfl, authVerifyCram_hashsecret hash challenge password⟩

/- A compression function for the example. -/
def addBlock (n : Nat) : Compress n := fun words block =>
  words.map fun w => w * 31 + UInt32.ofNat (block.map UInt8.toNat).sum

/- A login with `cram-md5`. -/
theorem cram_login_fred : ∃ response request, authsaslclientCram
            { userid := some (bytes "fred")
              password := some (bytes "secret") }
            (authsaslTobase64 (bytes "<1@host>"))
            (hmacMd5 (addBlock 4)) =
          some response ∧
        authGetCram (hmacList (addBlock 4) (addBlock 5))
            (bytes "cram-" ++ (hmacMd5 (addBlock 4)).name)
            (authdataOf (authsaslTobase64 (bytes "<1@host>"))
              response) =
          some request ∧
        request.hmac = hmacMd5 (addBlock 4) ∧
        request.user = bytes "fred" ∧
        authVerifyCram request.hmac request.challenge request.response
            (hashsecret (hmacMd5 (addBlock 4))
              (bytes "secret")) =
          true :=
  cram_login (addBlock 4) (addBlock 5) (hmacMd5 (addBlock 4))
    List.mem_cons_self (bytes "fred") (bytes "secret")
    (bytes "<1@host>") (by decide) (by decide)

end Wmail.Authlib
