import Wmail.Core.Bytes

/-
  Decimal numerals, and the C library's way of reading them.

  Key theorems include:
    * `decimalValue_decimalDigits`
    * `scanInt_numeral`
-/

namespace Wmail

/- `isdigit`. -/
def isdigit (b : Byte) : Bool :=
  48 ≤ b && b ≤ 57

/- The digits of a number, as many as there is room for. -/
def decimalDigits : Nat → Nat → List Byte
  | 0, _ => []
  | room + 1, n =>
    (if n / 10 = 0 then [] else decimalDigits room (n / 10)) ++ [UInt8.ofNat (48 + n % 10)]

/- The number that digits stand for. -/
def decimalValue (digits : List Byte) : Nat :=
  digits.foldl (fun n b => n * 10 + (b.toNat - 48)) 0

theorem decimalValue_append (digits : List Byte) (b : Byte) :
    decimalValue (digits ++ [b]) = decimalValue digits * 10 + (b.toNat - 48) := by
  unfold decimalValue
  rw [List.foldl_append]
  rfl

theorem isdigit_ofNat {d : Nat} (hDigit : d < 10) :
    isdigit (UInt8.ofNat (48 + d)) = true ∧ (UInt8.ofNat (48 + d)).toNat = 48 + d := by
  have hValue : (UInt8.ofNat (48 + d)).toNat = 48 + d := by
    rw [UInt8.toNat_ofNat']
    omega
  refine ⟨?_, hValue⟩
  unfold isdigit
  rw [Bool.and_eq_true, decide_eq_true_iff, decide_eq_true_iff,
    UInt8.le_iff_toNat_le, UInt8.le_iff_toNat_le, hValue]
  constructor
  · exact Nat.le_add_right 48 d
  · exact Nat.le_of_lt_succ (Nat.add_lt_add_left hDigit 48)

theorem isdigit_decimalDigits {room n : Nat} {b : Byte} (hMem : b ∈ decimalDigits room n) :
    isdigit b = true := by
  induction room generalizing n with
  | zero => cases hMem
  | succ room ih =>
    rw [decimalDigits, List.mem_append] at hMem
    rcases hMem with hFront | hLast
    · split at hFront
      · cases hFront
      · exact ih hFront
    · rw [List.mem_singleton] at hLast
      rw [hLast]
      exact (isdigit_ofNat (Nat.mod_lt n (Nat.succ_pos 9))).1

theorem length_decimalDigits_le (room n : Nat) : (decimalDigits room n).length ≤ room := by
  induction room generalizing n with
  | zero => exact Nat.le_refl 0
  | succ room ih =>
    rw [decimalDigits, List.length_append]
    have hFront := ih (n / 10)
    split
    · simp
    · simp
      exact hFront

theorem decimalDigits_ne_nil (room n : Nat) : decimalDigits (room + 1) n ≠ [] := by
  rw [decimalDigits]
  exact List.append_ne_nil_of_right_ne_nil _ (List.cons_ne_nil _ _)

/- With enough room the digits stand for the number. -/
theorem decimalValue_decimalDigits {room n : Nat} (hRoom : n < 10 ^ room) :
    decimalValue (decimalDigits room n) = n := by
  induction room generalizing n with
  | zero =>
    rw [Nat.pow_zero, Nat.lt_one_iff] at hRoom
    rw [hRoom]
    rfl
  | succ room ih =>
    have hLast := (isdigit_ofNat (Nat.mod_lt n (Nat.succ_pos 9))).2
    rw [decimalDigits, decimalValue_append, hLast]
    have hSplit := Nat.div_add_mod n 10
    split
    · rename_i hZero
      have hNil : decimalValue [] = 0 := rfl
      rw [hNil]
      omega
    · have hLess : n / 10 < 10 ^ room := by
        rw [Nat.pow_succ] at hRoom
        exact Nat.div_lt_of_lt_mul (by rw [Nat.mul_comm]; exact hRoom)
      rw [ih hLess]
      omega

/- The digits at the front of a text. -/
def scanDigits (text : List Byte) : Option (Nat × List Byte) :=
  if text.takeWhile isdigit = [] then
    none
  else
    some (decimalValue (text.takeWhile isdigit), text.dropWhile isdigit)

/-
  A number as `sscanf` and `strtol` read it: blanks, a sign,
  digits.  What follows is given, too.
-/
def scanInt (text : List Byte) : Option (Int × List Byte) :=
  match text.dropWhile isspace with
  | [] => none
  | b :: rest =>
    if b = chr '-' then
      (scanDigits rest).map fun found => (-found.1, found.2)
    else if b = chr '+' then
      (scanDigits rest).map fun found => (found.1, found.2)
    else
      (scanDigits (b :: rest)).map
        fun found => (found.1, found.2)

theorem scanDigits_append {digits : List Byte}
    (hDigits : ∀ b, b ∈ digits → isdigit b = true) (hSome : digits ≠ []) {rest : List Byte}
    (hRest : ∀ b, rest.head? = some b → isdigit b = false) :
    scanDigits (digits ++ rest) = some (decimalValue digits, rest) := by
  have hNone : rest.takeWhile isdigit = [] ∧ rest.dropWhile isdigit = rest := by
    cases rest with
    | nil => exact ⟨rfl, rfl⟩
    | cons b more =>
      have hStop : ¬ isdigit b = true := Bool.eq_false_iff.mp (hRest b rfl)
      exact ⟨List.takeWhile_cons_of_neg hStop, List.dropWhile_cons_of_neg hStop⟩
  unfold scanDigits
  rw [List.takeWhile_append_of_pos hDigits, List.dropWhile_append_of_pos hDigits, hNone.1, hNone.2,
    List.append_nil, if_neg hSome]

theorem isspace_of_isdigit {b : Byte} (hDigit : isdigit b = true) :
    isspace b = false ∧ b ≠ chr '-' ∧ b ≠ chr '+' := by
  have hAll : ∀ b, isdigit b = true → isspace b = false ∧ b ≠ chr '-' ∧ b ≠ chr '+' := by
    apply byte_forall
    decide +kernel
  exact hAll b hDigit

/- A padded numeral is read back. -/
theorem scanInt_numeral {spaces digits rest : List Byte} {minus : Bool}
    (hSpaces : ∀ b, b ∈ spaces → isspace b = true)
    (hDigits : ∀ b, b ∈ digits → isdigit b = true) (hSome : digits ≠ [])
    (hRest : ∀ b, rest.head? = some b → isdigit b = false) :
    scanInt (spaces ++ ((if minus then [chr '-'] else []) ++ digits) ++ rest) =
      some (if minus then -(decimalValue digits : Int)
        else decimalValue digits, rest) := by
  have hScan := scanDigits_append hDigits hSome hRest
  unfold scanInt
  rw [List.append_assoc, List.dropWhile_append_of_pos hSpaces]
  cases minus with
  | true =>
    have hStop : ¬ isspace (chr '-') = true := by decide
    simp only [if_true, List.cons_append, List.nil_append]
    rw [List.dropWhile_cons_of_neg hStop]
    simp only [if_true]
    rw [hScan]
    rfl
  | false =>
    cases digits with
    | nil => exact absurd rfl hSome
    | cons d more =>
      rcases isspace_of_isdigit (hDigits d List.mem_cons_self) with ⟨hStop, hMinus, hPlus⟩
      have hHere : ¬ isspace d = true := Bool.eq_false_iff.mp hStop
      rw [List.cons_append] at hScan
      simp only [Bool.false_eq_true, if_false, List.nil_append, List.cons_append]
      rw [List.dropWhile_cons_of_neg hHere]
      simp only [if_neg hMinus, if_neg hPlus]
      rw [hScan]
      rfl

end Wmail
