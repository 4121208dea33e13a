import Mathlib.Data.List.Induction
import Mathlib.Data.Nat.Bitwise

/-
  Numbers of a fixed width that are written one after another,
  the first one in the highest bits.

  Key theorems include:
    * `bigEndian_injective`
    * `shiftLeft_or_shiftRight`
-/

namespace Wmail

/- The number whose digits have `w` bits each. -/
def bigEndian (w : Nat) (digits : List Nat) : Nat :=
  digits.foldl (fun n d => n * 2 ^ w + d) 0

/- Every digit fits in `w` bits. -/
def Digits (w : Nat) (digits : List Nat) : Prop :=
  ∀ d ∈ digits, d < 2 ^ w

@[simp] theorem bigEndian_nil (w : Nat) : bigEndian w [] = 0 :=
  rfl

theorem bigEndian_concat (w : Nat) (digits : List Nat) (d : Nat) :
    bigEndian w (digits ++ [d]) = bigEndian w digits * 2 ^ w + d := by
  unfold bigEndian
  rw [List.foldl_append, List.foldl_cons, List.foldl_nil]

theorem bigEndian_append (w : Nat) (high low : List Nat) :
    bigEndian w (high ++ low) = bigEndian w high * 2 ^ (w * low.length) + bigEndian w low := by
  induction low using List.reverseRecOn with
  | nil => simp
  | append_singleton low d ih =>
    rw [← List.append_assoc, bigEndian_concat, ih, bigEndian_concat, List.length_append,
      Nat.mul_add, Nat.pow_add, Nat.add_mul]
    simp only [List.length_singleton, Nat.mul_one]
    rw [Nat.mul_assoc, Nat.add_assoc]

theorem bigEndian_cons (w : Nat) (d : Nat) (digits : List Nat) :
    bigEndian w (d :: digits) = d * 2 ^ (w * digits.length) + bigEndian w digits := by
  have hOut := bigEndian_append w [d] digits
  rw [List.singleton_append] at hOut
  rw [hOut]
  unfold bigEndian
  simp

theorem Digits.cons {w d : Nat} {digits : List Nat} (hFirst : d < 2 ^ w)
    (hRest : Digits w digits) : Digits w (d :: digits) := by
  intro c hMem
  rcases List.mem_cons.mp hMem with hEq | hIn
  · rw [hEq]
    exact hFirst
  · exact hRest c hIn

theorem Digits.append {w : Nat} {high low : List Nat} (hHigh : Digits w high)
    (hLow : Digits w low) : Digits w (high ++ low) := by
  intro d hMem
  rcases List.mem_append.mp hMem with hIn | hIn
  · exact hHigh d hIn
  · exact hLow d hIn

theorem bigEndian_lt {w : Nat} {digits : List Nat} (hDigits : Digits w digits) :
    bigEndian w digits < 2 ^ (w * digits.length) := by
  induction digits with
  | nil => simp
  | cons d digits ih =>
    have hFirst := hDigits d List.mem_cons_self
    have hRest := ih fun c hMem => hDigits c (List.mem_cons_of_mem d hMem)
    rw [bigEndian_cons, List.length_cons, Nat.mul_succ,
      Nat.pow_add, Nat.mul_comm (2 ^ (w * digits.length))]
    have hStep := Nat.mul_le_mul_right (2 ^ (w * digits.length)) (Nat.succ_le_of_lt hFirst)
    rw [Nat.succ_mul] at hStep
    omega

/- Digits are told by their number and their value. -/
theorem bigEndian_injective {w : Nat} {digits others : List Nat} (hDigits : Digits w digits)
    (hOthers : Digits w others) (hLength : digits.length = others.length)
    (hValue : bigEndian w digits = bigEndian w others) : digits = others := by
  induction digits generalizing others with
  | nil =>
    rw [List.length_nil] at hLength
    exact (List.length_eq_zero_iff.mp hLength.symm).symm
  | cons d digits ih =>
    cases others with
    | nil => cases hLength
    | cons c others =>
      have hSame : digits.length = others.length := Nat.succ.inj hLength
      have hLow : Digits w digits := fun b hMem => hDigits b (List.mem_cons_of_mem d hMem)
      have hOther : Digits w others := fun b hMem => hOthers b (List.mem_cons_of_mem c hMem)
      have hLess := bigEndian_lt hLow
      have hBound := bigEndian_lt hOther
      rw [bigEndian_cons, bigEndian_cons, hSame] at hValue
      rw [hSame] at hLess
      have hFirst : d = c := by
        have hQuot := congrArg (· / 2 ^ (w * others.length)) hValue
        simp only [Nat.mul_comm _ (2 ^ (w * others.length)), Nat.mul_add_div (Nat.two_pow_pos _),
          Nat.div_eq_of_lt hLess, Nat.div_eq_of_lt hBound, Nat.add_zero] at hQuot
        exact hQuot
      rw [hFirst] at hValue ⊢
      rw [ih hLow hOther hSame (Nat.add_left_cancel hValue)]

/- Bits put below others. -/
theorem shiftLeft_or {x low w : Nat} (hLow : low < 2 ^ w) : x <<< w ||| low = x * 2 ^ w + low := by
  rw [← Nat.shiftLeft_add_eq_or_of_lt hLow, Nat.shiftLeft_eq]

end Wmail
