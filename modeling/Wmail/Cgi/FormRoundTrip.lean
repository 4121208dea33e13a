import Mathlib.Data.List.TakeWhile
import Wmail.Cgi.Cgi

/-
  A form that is encoded in a query comes back from it.

  Key theorems include:
    * `cgi_reverse`
    * `form_roundtrip`
-/

namespace Wmail.Cgi

/-
  The bytes that the decoder does not change: the end of a
  string, a carriage return and a hard blank are lost.
-/
def passes (b : Byte) : Bool :=
  b ≠ 0 && b ≠ cr && b ≠ 0xA0

/- A name and a value that the decoder does not change. -/
def Arg.Plain (a : Arg) : Prop :=
  (∀ b ∈ a.argname, passes b = true) ∧ (∀ b ∈ a.argvalue, passes b = true)

/- One field of a query. -/
def field (a : Arg) : List Byte :=
  cgiurlencode a.argname ++ chr '=' :: cgiurlencode a.argvalue

/- The fields with `&` between them. -/
def query : List Arg → List Byte
  | [] => []
  | [a] => field a
  | a :: more => field a ++ chr '&' :: query more

/- The value of the last field of that name. -/
def lastValue (pairs : List Arg) (name : List Byte) : List Byte :=
  (((pairs.filter (·.argname = name)).getLast?).map
    (·.argvalue)).getD []

/- A link with that query. -/
def getRequest (query : List Byte) : Request where
  requestMethod := some (bytes "GET")
  queryString := some query
  contentType := none
  contentLength := none
  stdin := []

/- A form with that query. -/
def postRequest (query : List Byte) : Request where
  requestMethod := some (bytes "POST")
  queryString := none
  contentType := some (bytes "application/x-www-form-urlencoded")
  contentLength := some (decimalDigits 20 query.length)
  stdin := query

/- A digit is in one of two ranges, and keeps its value. -/
theorem hexDigit_range : ∀ n : Byte, n < 16 → isalnum (hexDigit n) = true ∧
        (if chr '0' ≤ hexDigit n && hexDigit n ≤ chr '9' then
          hexDigit n - chr '0' = n
        else
          (chr 'A' ≤ hexDigit n &&
            hexDigit n ≤ chr 'F') = true ∧
            hexDigit n - chr 'A' + 10 = n) := by
  apply byte_forall
  decide +kernel

/- A hexadecimal digit is read back. -/
theorem nybble_hexDigit {n : Byte} (hDigit : n < 16) (c : Byte) (rest : List Byte) :
    nybble (hexDigit n :: rest) c = (rest, c * 16 + n) := by
  have hRange := (hexDigit_range n hDigit).2
  rw [nybble]
  by_cases hDecimal : (decide (chr '0' ≤ hexDigit n) &&
      decide (hexDigit n ≤ chr '9')) = true
  · rw [if_pos hDecimal] at hRange ⊢
    rw [hRange]
  · rw [if_neg hDecimal] at hRange ⊢
    rw [if_pos hRange.1, hRange.2]

theorem hexDigit_ne {n mark : Byte} (hDigit : n < 16) (hMark : isalnum mark = false) :
    hexDigit n ≠ mark := by
  intro hEq
  rw [← hEq, (hexDigit_range n hDigit).1] at hMark
  cases hMark

/- The two digits of a byte. -/
theorem byte_digits : ∀ b : Byte, b / 16 < 16 ∧ b &&& 15 < 16 ∧
      (0 * 16 + b / 16) * 16 + (b &&& 15) = b := by
  apply byte_forall
  decide +kernel

/- What has to be escaped does not show in the result. -/
theorem not_mem_encodeByte {punct : List Byte} {mark : Byte}
    (hPunct : (punct.contains mark || mark < 32 ||
      127 ≤ mark) = true) (hMark : isalnum mark = false) (hPercent : mark ≠ chr '%')
    (hPlus : mark ≠ chr '+') (b : Byte) : mark ∉ encodeByte punct b := by
  rcases byte_digits b with ⟨hHigh, hLow, _⟩
  unfold encodeByte
  split
  · intro hMem
    rcases List.mem_cons.mp hMem with hEq | hMem
    · exact hPercent hEq
    rcases List.mem_cons.mp hMem with hEq | hMem
    · exact hexDigit_ne hHigh hMark hEq.symm
    · exact hexDigit_ne hLow hMark (List.mem_singleton.mp hMem).symm
  · rename_i hSafe
    split
    · intro hMem
      exact hPlus (List.mem_singleton.mp hMem)
    · intro hMem
      rw [← List.mem_singleton.mp hMem] at hSafe
      exact hSafe hPunct

/- A byte that is encoded is decoded. -/
theorem cgiurldecode_encodeByte {b : Byte} (hPasses : passes b = true) (rest : List Byte) :
    cgiurldecode (encodeByte punct b ++ rest) = b :: cgiurldecode rest := by
  unfold passes at hPasses
  simp only [Bool.and_eq_true, decide_eq_true_eq] at hPasses
  rcases hPasses with ⟨⟨hZero, hCr⟩, hBlank⟩
  unfold encodeByte
  split
  · rcases byte_digits b with ⟨hHigh, hLow, hByte⟩
    have hWritten : escaped b = [b] := by
      unfold escaped
      simp [hZero, hCr, hBlank]
    rw [List.cons_append, List.cons_append, List.singleton_append, cgiurldecode]
    simp only [nybble_hexDigit hHigh, nybble_hexDigit hLow, hByte, hWritten, List.singleton_append]
    rfl
  · rename_i hSafe
    split
    · rename_i hSpace
      rw [List.singleton_append, cgiurldecode, hSpace]
      rfl
    · have hPlus : b ≠ chr '+' := by
        intro hEq
        rw [hEq] at hSafe
        exact hSafe rfl
      have hPercent : b ≠ chr '%' := by
        intro hEq
        rw [hEq] at hSafe
        exact hSafe rfl
      rw [List.singleton_append, cgiurldecode]
      simp [hPlus, hPercent, hBlank]

/- A text that is encoded is decoded. -/
theorem cgiurldecode_cgiurlencode {buf : List Byte} (hPasses : ∀ b ∈ buf, passes b = true) :
    cgiurldecode (cgiurlencode buf) = buf := by
  unfold cgiurlencode cgiurlencodeCommon
  induction buf with
  | nil => exact cgiurldecode.eq_1
  | cons b buf ih =>
    rw [List.flatMap_cons, cgiurldecode_encodeByte (hPasses b List.mem_cons_self)]
    rw [ih fun c hMem => hPasses c (List.mem_cons_of_mem b hMem)]

theorem not_mem_cgiurlencode {mark : Byte}
    (hPunct : (punct.contains mark || mark < 32 ||
      127 ≤ mark) = true) (hMark : isalnum mark = false) (hPercent : mark ≠ chr '%')
    (hPlus : mark ≠ chr '+') (buf : List Byte) : mark ∉ cgiurlencode buf := by
  intro hMem
  rcases List.mem_flatMap.mp hMem with ⟨b, _, hIn⟩
  exact not_mem_encodeByte hPunct hMark hPercent hPlus b hIn

/- What stands before and after the first separator. -/
theorem cut_at_separator {α : Type} [DecidableEq α] {sep : α} {front : List α}
    (hFront : sep ∉ front) (rest : List α) :
    (front ++ sep :: rest).takeWhile (· ≠ sep) = front ∧
      ((front ++ sep :: rest).dropWhile (· ≠ sep)).drop 1 = rest := by
  have hAll : ∀ b ∈ front, decide (b ≠ sep) = true := by
    intro b hMem
    rw [decide_eq_true_iff]
    intro hEq
    rw [hEq] at hMem
    exact hFront hMem
  constructor
  · rw [List.takeWhile_append_of_pos hAll, List.takeWhile_cons_of_neg (by simp), List.append_nil]
  · rw [List.dropWhile_append_of_pos hAll, List.dropWhile_cons_of_neg (by simp), List.drop_one,
      List.tail_cons]

/- A field is read as it was written. -/
theorem parseArg_field {a : Arg} (hPlain : a.Plain) : parseArg (field a) = a := by
  have hEquals : chr '=' ∉ cgiurlencode a.argname :=
    not_mem_cgiurlencode (by decide) (by decide) (by decide) (by decide) a.argname
  rcases cut_at_separator hEquals (cgiurlencode a.argvalue) with ⟨hName, hValue⟩
  unfold parseArg field
  rw [hName, hValue, cgiurldecode_cgiurlencode hPlain.1, cgiurldecode_cgiurlencode hPlain.2]

/- A field has no byte that ends it or ends the string. -/
theorem not_mem_field {mark : Byte}
    (hPunct : (punct.contains mark || mark < 32 ||
      127 ≤ mark) = true) (hMark : isalnum mark = false) (hPercent : mark ≠ chr '%')
    (hPlus : mark ≠ chr '+') (hEquals : mark ≠ chr '=') (a : Arg) : mark ∉ field a := by
  unfold field
  intro hMem
  rcases List.mem_append.mp hMem with hName | hMem
  · exact not_mem_cgiurlencode hPunct hMark hPercent hPlus _ hName
  rcases List.mem_cons.mp hMem with hEq | hValue
  · exact hEquals hEq
  · exact not_mem_cgiurlencode hPunct hMark hPercent hPlus _ hValue

theorem amp_not_mem_field (a : Arg) : chr '&' ∉ field a :=
  not_mem_field (by decide) (by decide) (by decide) (by decide) (by decide) a

theorem nul_not_mem_field (a : Arg) : 0 ∉ field a :=
  not_mem_field (by decide) (by decide) (by decide) (by decide) (by decide) a

theorem field_ne_nil (a : Arg) : field a ≠ [] :=
  List.append_ne_nil_of_right_ne_nil _ (List.cons_ne_nil _ _)

/- One turn of the loop over the query. -/
theorem parseArgs_cut {q : List Byte} (hSome : q ≠ []) (args : List Arg) :
    parseArgs q args = parseArgs ((q.dropWhile (· ≠ chr '&')).drop 1)
        (parseArg (q.takeWhile (· ≠ chr '&')) :: args) := by
  cases q with
  | nil => exact absurd rfl hSome
  | cons b q => rw [parseArgs]

/- The arguments of a query, the last one first. -/
theorem parseArgs_query {pairs : List Arg} (hPlain : ∀ a ∈ pairs, a.Plain)
    (args : List Arg) : parseArgs (query pairs) args = pairs.reverse ++ args := by
  induction pairs generalizing args with
  | nil =>
    rw [query, parseArgs]
    rfl
  | cons a more ih =>
    have hField := parseArg_field (hPlain a List.mem_cons_self)
    have hMore := ih fun c hMem => hPlain c (List.mem_cons_of_mem a hMem)
    cases more with
    | nil =>
      have hAll : ∀ b ∈ field a, decide (b ≠ chr '&') = true := by
        intro b hMem
        rw [decide_eq_true_iff]
        intro hEq
        rw [hEq] at hMem
        exact amp_not_mem_field a hMem
      rw [query, parseArgs_cut (field_ne_nil a), List.takeWhile_eq_self_iff.mpr hAll,
        List.dropWhile_eq_nil_iff.mpr hAll, hField]
      rw [List.drop_nil, parseArgs]
      rfl
    | cons c more =>
      rcases cut_at_separator (amp_not_mem_field a) (query (c :: more)) with ⟨hFront, hRest⟩
      have hSome : field a ++ chr '&' :: query (c :: more) ≠ [] :=
        List.append_ne_nil_of_right_ne_nil _ (List.cons_ne_nil _ _)
      rw [query, parseArgs_cut hSome, hFront, hRest, hField,
        hMore, List.reverse_cons (a := a), List.append_assoc]
      · rfl
      · exact List.cons_ne_nil c more

theorem nul_not_mem_query (pairs : List Arg) : 0 ∉ query pairs := by
  fun_induction query pairs with
  | case1 => exact List.not_mem_nil
  | case2 a => exact nul_not_mem_field a
  | case3 a more hMore ih =>
    intro hMem
    rcases List.mem_append.mp hMem with hIn | hMem
    · exact nul_not_mem_field a hIn
    rcases List.mem_cons.mp hMem with hEq | hIn
    · cases hEq
    · exact ih hIn

/- The value that `cgi` gives is the last one. -/
theorem cgi_reverse (pairs : List Arg) (name : List Byte) :
    cgi pairs.reverse name = lastValue pairs name := by
  unfold cgi lastValue
  rw [← List.head?_filter, List.filter_reverse, List.head?_reverse]

/- The length of a body is read back. -/
theorem atol_decimalDigits {n : Nat} (hRoom : n < 2 ^ 63) :
    (atol (decimalDigits 20 n)).toNat = n := by
  have hScan := @scanInt_numeral [] (decimalDigits 20 n) [] false
    (by simp) (fun b hMem => isdigit_decimalDigits hMem)
    (decimalDigits_ne_nil 19 n) (by simp)
  simp only [Bool.false_eq_true, if_false, List.nil_append, List.append_nil] at hScan
  rw [decimalValue_decimalDigits (by omega)] at hScan
  unfold atol
  rw [hScan]
  have hRange : max (-2 ^ 63) (min (2 ^ 63 - 1) (n : Int)) = n := by omega
  simp only [hRange]
  rw [Int64.ofInt_eq_ofNat, Int64.toUInt64_ofNat', UInt64.toNat_ofNat_of_lt'
      (Nat.lt_trans hRoom (by decide))]

/-
  A form that is not too long comes back from its query, the
  last field first, and each name has its last value.
-/
theorem form_roundtrip (formdata : Request → UInt64 → Except Exit (List Arg))
    (pairs : List Arg) (hPlain : ∀ a ∈ pairs, a.Plain)
    (hSize : (query pairs).length ≤ CGIMAXARG) :
    cgiSetup1 formdata (getRequest (query pairs)) = .ok pairs.reverse ∧
      cgiSetup1 formdata (postRequest (query pairs)) = .ok pairs.reverse ∧
      ∀ name, cgi pairs.reverse name = lastValue pairs name := by
  have hArgs : parseArgs (query pairs) [] = pairs.reverse := by
    rw [parseArgs_query hPlain, List.append_nil]
  have hFits : ¬ CGIMAXARG < (query pairs).length := Nat.not_lt.mpr hSize
  have hLength := atol_decimalDigits (n := (query pairs).length)
    (by unfold CGIMAXARG at hSize; omega)
  have hText : ((query pairs).take (query pairs).length).takeWhile (· ≠ 0) = query pairs := by
    rw [List.take_length, List.takeWhile_eq_self_iff]
    intro b hMem
    rw [decide_eq_true_iff]
    intro hEq
    rw [hEq] at hMem
    exact nul_not_mem_query pairs hMem
  refine ⟨?_, ?_, cgi_reverse pairs⟩
  · unfold cgiSetup1 getRequest
    simp only [if_true, if_neg hFits, hArgs]
  · have hPost : ¬ some (bytes "POST") = some (bytes "GET") := by decide
    have hForm : ¬ casePrefix (bytes "multipart/form-data;")
        (bytes "application/x-www-form-urlencoded") = true := by
      decide
    have hType : (bytes "application/x-www-form-urlencoded"
        ).isPrefixOf (bytes "application/x-www-form-urlencoded") =
        true := by
      decide
    unfold cgiSetup1 postRequest
    simp only [if_neg hPost, if_true, if_neg hForm, hType, hLength,
      if_neg hFits, if_neg (Nat.lt_irrefl _), hText, hArgs]

/- Two fields with one name, an empty one, and marks. -/
def testForm : List Arg :=
  [⟨bytes "to", bytes "a&b=c"⟩, ⟨[], []⟩, ⟨bytes "to", bytes "50% + x;"⟩]

theorem plain_testForm : ∀ a ∈ testForm, a.Plain := by
  have hAll : (testForm.all fun a => a.argname.all passes && a.argvalue.all passes) = true := by
    decide
  intro a hMem
  have hBoth := List.all_eq_true.mp hAll a hMem
  rw [Bool.and_eq_true] at hBoth
  exact ⟨List.all_eq_true.mp hBoth.1, List.all_eq_true.mp hBoth.2⟩

theorem form_roundtrip_testForm :
    cgiSetup1 (fun _ _ => .ok []) (getRequest (query testForm)) = .ok testForm.reverse ∧
      cgiSetup1 (fun _ _ => .ok []) (postRequest (query testForm)) = .ok testForm.reverse ∧
      ∀ name, cgi testForm.reverse name = lastValue testForm name :=
  form_roundtrip (fun _ _ => .ok []) testForm plain_testForm (by decide)

/- A form with one name of that length. -/
def longForm (n : Nat) : List Arg :=
  [⟨List.replicate n (chr 'a'), []⟩]

/- A query that is too long ends the program. -/
theorem cgiSetup1_too_long (formdata : Request → UInt64 → Except Exit (List Arg))
    {q : List Byte} (hLong : CGIMAXARG < q.length) :
    cgiSetup1 formdata (getRequest q) = .error .enomem := by
  unfold cgiSetup1 getRequest
  simp only [if_true, if_pos hLong]

/- A name that needs no escapes is as long as its encoding. -/
theorem length_cgiurlencode_replicate (n : Nat) :
    (cgiurlencode (List.replicate n (chr 'a'))).length = n := by
  have hByte : encodeByte punct (chr 'a') = [chr 'a'] := by decide
  unfold cgiurlencode cgiurlencodeCommon
  rw [List.length_flatMap, List.map_replicate, hByte, List.sum_replicate_nat]
  exact Nat.mul_one n

theorem longForm_plain {n : Nat} {a : Arg} (hMem : a ∈ longForm n) : a.Plain := by
  rw [List.mem_singleton.mp hMem]
  constructor
  · intro b hIn
    rw [(List.mem_replicate.mp hIn).2]
    decide
  · intro b hIn
    cases hIn

theorem length_query_longForm (n : Nat) : n < (query (longForm n)).length := by
  unfold longForm query field
  rw [List.length_append, length_cgiurlencode_replicate]
  exact Nat.lt_add_of_pos_right (Nat.succ_pos _)

/- A form with one long name is not read back. -/
theorem form_too_long : (∀ a ∈ longForm CGIMAXARG, a.Plain) ∧
      cgiSetup1 (fun _ _ => .ok []) (getRequest (query (longForm CGIMAXARG))) =
          .error .enomem := by
  constructor
  · intro a hMem
    exact longForm_plain hMem
  · exact cgiSetup1_too_long _ (length_query_longForm CGIMAXARG)

end Wmail.Cgi
