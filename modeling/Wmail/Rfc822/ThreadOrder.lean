import Wmail.Core.Ranking
import Wmail.Rfc822.Imaprefs

/-
  The order in which `rfc822_threadsortbydate` puts siblings.

  Messages with a date are compared by their dates, and by
  their sequence numbers otherwise.  That is an order as long
  as a message without a date never stands, by its number,
  between two messages whose dates say the opposite of their
  numbers.

  Key theorems include:
    * `strictWeak_cmpMsgs_iff`
    * `cmpMsgs_order`
-/

namespace Wmail.Rfc822

/- What `cmp_msgs` reads of a message: `ta` and `na`. -/
structure SortKey where
  time : Int
  seq : Nat

/- The key of a message, seen through dummies. -/
def sortKey (mt : Refmsgtable) (a : Nat) : SortKey :=
  let ma := firstReal mt.nmsgs mt (some a)
  { time := (ma.map fun m => (mt.msgs m).timestamp).getD 0
    seq := (ma.map fun m => (mt.msgs m).seqnum).getD 0 }

/- The result of `cmp_msgs` for two keys. -/
def SortKey.cmp (a b : SortKey) : Int :=
  if a.time ≠ 0 ∧ b.time ≠ 0 ∧ a.time ≠ b.time then
    if a.time < b.time then -1 else 1
  else if a.seq < b.seq then
    -1
  else if a.seq > b.seq then
    1
  else
    0

theorem cmpMsgs_eq (mt : Refmsgtable) (a b : Nat) :
    cmpMsgs mt a b = (sortKey mt a).cmp (sortKey mt b) :=
  rfl

/-
  Among three messages: `u` without a date is not behind `a`
  and not before `b` by number, and then the dates of `a` and
  `b` say the same.
-/
def SortKey.Agree (a b u : SortKey) : Prop :=
  a.time ≠ 0 → b.time ≠ 0 → u.time = 0 → b.seq ≤ u.seq → u.seq ≤ a.seq → b.time ≤ a.time

/- The dates of some messages agree with their numbers. -/
def DatesAgree (mt : Refmsgtable) (ms : List Nat) : Prop :=
  ∀ a, a ∈ ms → ∀ b, b ∈ ms → ∀ u, u ∈ ms → (sortKey mt a).Agree (sortKey mt b) (sortKey mt u)

instance (a b u : SortKey) : Decidable (a.Agree b u) := by
  unfold SortKey.Agree
  infer_instance

instance (mt : Refmsgtable) (ms : List Nat) : Decidable (DatesAgree mt ms) := by
  unfold DatesAgree
  infer_instance

namespace SortKey

/- What a negative result says. -/
theorem cmp_neg_iff (a b : SortKey) : a.cmp b < 0 ↔ (a.time ≠ 0 ∧ b.time ≠ 0 ∧ a.time < b.time) ∨
        ((a.time = 0 ∨ b.time = 0 ∨ a.time = b.time) ∧ a.seq < b.seq) := by
  unfold cmp
  split
  · split
    · omega
    · omega
  · split
    · omega
    · split
      · omega
      · omega

theorem cmp_swap (a b : SortKey) : b.cmp a = - a.cmp b := by
  unfold cmp
  by_cases hDates : a.time ≠ 0 ∧ b.time ≠ 0 ∧ a.time ≠ b.time
  · rw [if_pos hDates, if_pos (by omega)]
    by_cases hBefore : a.time < b.time
    · rw [if_pos hBefore, if_neg (by omega)]
      rfl
    · rw [if_neg hBefore, if_pos (by omega)]
  · rw [if_neg hDates, if_neg (by omega)]
    rcases Nat.lt_trichotomy a.seq b.seq with hBefore | hSame | hBehind
    · rw [if_pos hBefore, if_neg (by omega), if_pos hBefore]
      rfl
    · rw [hSame]
      simp
    · rw [if_pos hBehind, if_neg (by omega), if_pos hBehind]

theorem cmp_eq_zero_iff (a b : SortKey) : a.cmp b = 0 ↔
      (a.time = 0 ∨ b.time = 0 ∨ a.time = b.time) ∧ a.seq = b.seq := by
  have hNeg := cmp_neg_iff a b
  have hBack := cmp_neg_iff b a
  rw [cmp_swap a b] at hBack
  omega

end SortKey

/- `cmp_msgs` of two messages the other way around. -/
theorem cmpMsgs_swap (mt : Refmsgtable) (a b : Nat) : cmpMsgs mt b a = - cmpMsgs mt a b := by
  rw [cmpMsgs_eq, cmpMsgs_eq]
  exact SortKey.cmp_swap _ _

theorem strictWeak_cmpMsgs_iff (mt : Refmsgtable) (ms : List Nat) :
    StrictWeak (cmpMsgs mt) ms ↔ DatesAgree mt ms := by
  have hNeg : ∀ a b, cmpMsgs mt a b < 0 ↔ _ :=
    fun a b => SortKey.cmp_neg_iff (sortKey mt a) (sortKey mt b)
  have hZero : ∀ a b, cmpMsgs mt a b = 0 ↔ _ :=
    fun a b => SortKey.cmp_eq_zero_iff (sortKey mt a) (sortKey mt b)
  constructor
  · intro hOrder a hA b hB u hU hTimeA hTimeB hTimeU hLow hHigh
    by_contra hLater
    have hAB : cmpMsgs mt a b < 0 := by
      rw [hNeg]
      omega
    have hUA : ¬ cmpMsgs mt a u < 0 := by
      rw [hNeg]
      omega
    have hBU : ¬ cmpMsgs mt u b < 0 := by
      rw [hNeg]
      omega
    rw [cmpMsgs_swap mt u a] at hUA
    rw [cmpMsgs_swap mt b u] at hBU
    have hBA := hOrder.le_trans hB hU hA (by omega) (by omega)
    have hBehind := (hOrder.swap b hB a hA).mpr hAB
    omega
  · intro hAgree
    constructor
    · intro a _ b _
      rw [cmpMsgs_swap mt a b]
      omega
    · intro a hA b hB c hC hAB hBC
      have hCAB := hAgree c hC a hA b hB
      have hABC := hAgree a hA b hB c hC
      have hBCA := hAgree b hB c hC a hA
      unfold SortKey.Agree at hCAB hABC hBCA
      rw [hNeg] at hAB hBC ⊢
      rcases hAB with hDateAB | hNumberAB
      · rcases hBC with hDateBC | hNumberBC
        · left
          omega
        · clear hCAB hBCA
          omega
      · rcases hBC with hDateBC | hNumberBC
        · clear hCAB hABC
          omega
        · clear hABC hBCA
          omega
    · intro a hA b hB c hC hAB hBC
      have hABC := hAgree a hA c hC b hB
      have hCBA := hAgree c hC a hA b hB
      unfold SortKey.Agree at hABC hCBA
      rw [hZero] at hAB hBC ⊢
      omega

/- `qsort` sorts what the comparison function orders. -/
def Qsort.Sorts (qsort : Qsort) : Prop :=
  ∀ cmp ms, StrictWeak cmp ms → (qsort.sort cmp ms).Pairwise fun a b => cmp a b ≤ 0

/- The comparison function orders what it is called for. -/
theorem Qsort.mergeSort_sorts : Qsort.mergeSort.Sorts :=
  fun _ _ hOrder => hOrder.pairwise_mergeSort

/-
  `cmp_msgs` turns around with its arguments.  It orders some
  messages exactly when their dates agree with their numbers,
  and siblings then come out in one order, up to ties,
  whatever their order was before.
-/
theorem cmpMsgs_order (qsort : Qsort) (hSorts : qsort.Sorts) (mt : Refmsgtable) :
    (∀ a b, cmpMsgs mt b a = - cmpMsgs mt a b) ∧
      (∀ ms, StrictWeak (cmpMsgs mt) ms ↔ DatesAgree mt ms) ∧
      ∀ ms other, DatesAgree mt ms → ms.Perm other →
        List.Forall₂ (fun a b => cmpMsgs mt a b = 0) (qsort.sort (cmpMsgs mt) ms)
          (qsort.sort (cmpMsgs mt) other) := by
  refine ⟨cmpMsgs_swap mt, strictWeak_cmpMsgs_iff mt, ?_⟩
  intro ms other hAgree hPerm
  have hOther : DatesAgree mt other := by
    intro a hA b hB u hU
    exact hAgree a (hPerm.mem_iff.mpr hA) b (hPerm.mem_iff.mpr hB) u (hPerm.mem_iff.mpr hU)
  have hOrder := (strictWeak_cmpMsgs_iff mt ms).mpr hAgree
  have hOrder' := (strictWeak_cmpMsgs_iff mt other).mpr hOther
  exact hOrder.ties_of_perm (qsort.perm _ ms) ((qsort.perm _ other).trans hPerm.symm)
    (hSorts _ ms hOrder) (hSorts _ other hOrder')

/- Three messages, the second of which has no date. -/
def undatedSecond : Refmsgtable :=
  [⟨some (bytes "<a@x>"), none, none, some (bytes "3 Jan 2000 00:00:00 GMT"), 1⟩,
    ⟨some (bytes "<b@x>"), none, none, none, 2⟩,
    ⟨some (bytes "<c@x>"), none, none, some (bytes "1 Jan 2000 00:00:00 GMT"), 3⟩].foldl
    rfc822Threadmsg rfc822Threadalloc

theorem cmpMsgs_order_first : List.Forall₂ (fun a b => cmpMsgs undatedSecond a b = 0)
      (Qsort.mergeSort.sort (cmpMsgs undatedSecond) [0, 1])
      (Qsort.mergeSort.sort (cmpMsgs undatedSecond) [1, 0]) :=
  (cmpMsgs_order Qsort.mergeSort Qsort.mergeSort_sorts
    undatedSecond).2.2 [0, 1] [1, 0] (by decide) (List.Perm.swap 1 0 [])

/- The first is before the second, that before the third. -/
theorem cmpMsgs_cycle : cmpMsgs undatedSecond 0 1 < 0 ∧
      cmpMsgs undatedSecond 1 2 < 0 ∧ 0 < cmpMsgs undatedSecond 0 2 := by
  decide

end Wmail.Rfc822
