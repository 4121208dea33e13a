import Wmail.Core.Borders
import Wmail.Core.Bytes

/-
  The search for a string in a text (maildirsearch.c,
  maildirsearch.h).

  A string is the list of its bytes, without the terminating
  NUL; what is read there is `none`.  A string to look for is
  shorter than 2^32, so that `unsigned` indexes do not wrap.

  Key theorems include:
    * `searchLoop_longest`
    * `search_found_iff`
-/

namespace Wmail.Maildirsearch

/- `struct maildir_searchengine`. -/
structure Searchengine where
  string : List Byte
  ptr : Option (List Byte)
  r : List Nat
  i : Nat

/- `maildir_search_reset`. -/
def maildirSearchReset (si : Searchengine) : Searchengine :=
  { si with i := 0, ptr := some si.string }

/-
  The inner loop of `maildir_search_start`: `p` is `s` from
  `j` on, and `q` is `s` from `i + j` on.
-/
def backoffLoop (i : Nat) : Nat → List Byte → List Byte → List Nat → List Nat
  | j, a :: p, b :: q, r =>
    if a ≠ b then
      if r.getD (i + j) 0 < j then r.set (i + j) j else r
    else
      backoffLoop i (j + 1) p q r
  | _, _, _, r => r

/- The retry backoff indexes. -/
def backoffTable (s : List Byte) : List Nat :=
  (List.range s.length).foldl
    (fun r i => backoffLoop i 0 s (s.drop i) r)
    (List.replicate s.length 0)

/- `maildir_search_start`. -/
def maildirSearchStart (s : List Byte) : Searchengine :=
  maildirSearchReset
    { string := s
      ptr := none
      r := backoffTable s
      i := 0 }

/-
  The loop of `maildir_search_step`, with the turns that it
  may still take.
-/
def searchLoop (ptr : List Byte) (r : List Nat) (ch : Byte) : Nat → Nat → Option Nat
  | 0, _ => none
  | turns + 1, i =>
    if ptr[i]? = some ch then
      some (i + 1)
    else if i = 0 then
      some i
    else
      searchLoop ptr r ch turns (r.getD i 0)

/- `maildir_search_step`, in no more than `i + 1` turns. -/
def maildirSearchStep (sie : Searchengine) (ch : Byte) : Option Searchengine :=
  match sie.ptr with
  | none => some sie
  | some ptr =>
    if ptr[sie.i]? = none then
      some sie
    else
      (searchLoop ptr sie.r ch (sie.i + 1) sie.i).map
        fun i => { sie with i := i }

/- `maildir_search_found`. -/
def maildirSearchFound (si : Searchengine) : Bool :=
  match si.ptr with
  | none => false
  | some ptr => ptr[si.i]? = none

/- The characters of a text, one after the other. -/
def maildirSearchSteps (sie : Searchengine) (text : List Byte) : Option Searchengine :=
  text.foldlM maildirSearchStep sie

example : (maildirSearchStart (bytes "abacab")).r = [0, 0, 0, 1, 0, 0] := by
  decide

/-
  From `i` on, the string is its own beginning up to `k`, and
  not at `k`.
-/
structure Mismatch (s : List Byte) (i k : Nat) : Prop where
  less : k < s.length
  from_le : i ≤ k
  same : ∀ x, x < k - i → s[x]? = s[i + x]?
  differs : s[k - i]? ≠ s[k]?

variable {s : List Byte} {i k : Nat}

theorem Mismatch.pos (hAt : Mismatch s i k) : 0 < i := by
  rcases Nat.eq_zero_or_pos i with rfl | hPos
  · exact absurd rfl hAt.differs
  · exact hPos

/- There is one mismatch. -/
theorem Mismatch.unique {l : Nat} (hAt : Mismatch s i k) (hOther : Mismatch s i l) : k = l := by
  have hAll : ∀ k l, Mismatch s i k → Mismatch s i l → ¬ k < l := by
    intro k l hAt hOther hLess
    have hFrom := hAt.from_le
    have hSame := hOther.same (k - i) (by omega)
    rw [Nat.add_sub_cancel' hFrom] at hSame
    exact hAt.differs hSame
  have hOne := hAll k l hAt hOther
  have hTwo := hAll l k hOther hAt
  omega

/- The indexes that mismatches from below `m` give. -/
structure Backoffs (s : List Byte) (m : Nat) (r : List Nat) : Prop where
  length : r.length = s.length
  some : ∀ k, r.getD k 0 = 0 ∨ ∃ i, Mismatch s i k ∧ r.getD k 0 = k - i
  largest : ∀ i k, i < m → Mismatch s i k → k - i ≤ r.getD k 0

/- The mismatch from `i` on is the one that is found. -/
theorem Backoffs.mismatch {r : List Nat} (hTable : Backoffs s i r) (hAt : Mismatch s i k) :
    Backoffs s (i + 1) (if r.getD k 0 < k - i then r.set k (k - i) else r) := by
  have hLess : k < r.length := hTable.length ▸ hAt.less
  have hOnly : ∀ l, Mismatch s i l → l = k := fun l hOther => hOther.unique hAt
  split
  · rename_i hSmaller
    have hGet : ∀ l, (r.set k (k - i)).getD l 0 = if k = l then k - i else r.getD l 0 := by
      intro l
      rw [List.getD_eq_getElem?_getD, List.getElem?_set, List.getD_eq_getElem?_getD]
      split
      · rfl
      · rfl
    refine ⟨?_, ?_, ?_⟩
    · rw [List.length_set]
      exact hTable.length
    · intro l
      rw [hGet]
      split
      · rename_i hHere
        exact Or.inr ⟨i, hHere ▸ hAt, by rw [hHere]⟩
      · exact hTable.some l
    · intro j l hBelow hOther
      rw [hGet]
      rcases Nat.lt_succ_iff_lt_or_eq.mp hBelow with hBefore | rfl
      · have hOld := hTable.largest j l hBefore hOther
        split
        · rename_i hHere
          rw [← hHere] at hOld ⊢
          omega
        · exact hOld
      · rw [hOnly l hOther, if_pos rfl]
  · rename_i hLarger
    refine ⟨hTable.length, hTable.some, ?_⟩
    intro j l hBelow hOther
    rcases Nat.lt_succ_iff_lt_or_eq.mp hBelow with hBefore | rfl
    · exact hTable.largest j l hBefore hOther
    · rw [hOnly l hOther]
      exact Nat.not_lt.mp hLarger

theorem getElem?_of_drop {l : Nat} {a : Byte} {p : List Byte} (hDrop : a :: p = s.drop l) :
    s[l]? = some a ∧ p = s.drop (l + 1) := by
  constructor
  · rw [← List.head?_drop, ← hDrop]
    rfl
  · rw [← List.tail_drop, ← hDrop]
    rfl

/- The inner loop looks for the mismatch. -/
theorem backoffs_backoffLoop {j : Nat} {p q : List Byte} {r : List Nat} (hP : p = s.drop j)
    (hQ : q = s.drop (i + j)) (hSame : ∀ x, x < j → s[x]? = s[i + x]?)
    (hTable : Backoffs s i r) : Backoffs s (i + 1) (backoffLoop i j p q r) := by
  -- where both lists go on, the elements are those of `s`
  have hHere : ∀ {j a b p q}, a :: p = s.drop j → b :: q = s.drop (i + j) →
        (∀ x, x < j → s[x]? = s[i + x]?) → a ≠ b → Mismatch s i (i + j) := by
    intro j a b p q hP hQ hSame hDiffers
    have hA := (getElem?_of_drop hP).1
    have hB := (getElem?_of_drop hQ).1
    refine ⟨(List.getElem?_eq_some_iff.mp hB).1, Nat.le_add_right i j, ?_, ?_⟩
    · rw [Nat.add_sub_cancel_left]
      exact hSame
    · rw [Nat.add_sub_cancel_left, hA, hB]
      exact fun hEq => hDiffers (Option.some.inj hEq)
  fun_induction backoffLoop i j p q r with
  | case1 j a p b q r hDiffers hSmaller =>
    have hNext := hTable.mismatch (hHere hP hQ hSame hDiffers)
    rw [Nat.add_sub_cancel_left, if_pos hSmaller] at hNext
    exact hNext
  | case2 j a p b q r hDiffers hLarger =>
    have hNext := hTable.mismatch (hHere hP hQ hSame hDiffers)
    rw [Nat.add_sub_cancel_left, if_neg hLarger] at hNext
    exact hNext
  | case3 j a p b q r hAlike ih =>
    rcases getElem?_of_drop hP with ⟨hA, hP'⟩
    rcases getElem?_of_drop hQ with ⟨hB, hQ'⟩
    refine ih hP' hQ' ?_ hTable
    intro x hLess
    rcases Nat.lt_succ_iff_lt_or_eq.mp hLess with hBefore | rfl
    · exact hSame x hBefore
    · rw [hA, hB, Decidable.not_not.mp hAlike]
  | case4 p j q r hEnd =>
    refine ⟨hTable.length, hTable.some, ?_⟩
    intro l k hBelow hAt
    rcases Nat.lt_succ_iff_lt_or_eq.mp hBelow with hBefore | rfl
    · exact hTable.largest l k hBefore hAt
    -- the end of the string was reached before a mismatch
    exfalso
    have hLess := hAt.less
    have hFrom := hAt.from_le
    have hNear : k < l + j := by
      by_contra hFar
      have hInP : j < s.length := by omega
      have hInQ : l + j < s.length := by omega
      exact hEnd _ _ _ _ (hP.trans (List.drop_eq_getElem_cons hInP))
        (hQ.trans (List.drop_eq_getElem_cons hInQ))
    have hSameHere := hSame (k - l) (by omega)
    rw [Nat.add_sub_cancel' hFrom] at hSameHere
    exact hAt.differs hSameHere

theorem backoffs_backoffTable (s : List Byte) : Backoffs s s.length (backoffTable s) := by
  have hFrom : ∀ m, Backoffs s m ((List.range m).foldl (fun r i => backoffLoop i 0 s (s.drop i) r)
        (List.replicate s.length 0)) := by
    intro m
    induction m with
    | zero =>
      refine ⟨List.length_replicate, ?_, nofun⟩
      intro k
      left
      rw [List.range_zero, List.foldl_nil, List.getD_eq_getElem?_getD, List.getElem?_replicate]
      split <;> rfl
    | succ m ih =>
      rw [List.range_succ, List.foldl_append]
      exact backoffs_backoffLoop rfl rfl nofun ih
  exact hFrom s.length

/- Up to a mismatch, the string is its own beginning. -/
theorem fits_of_mismatch (hAt : Mismatch s i k) : Fits s (s.take k) (k - i) := by
  have hLess := hAt.less
  have hFrom := hAt.from_le
  refine ⟨by omega, s.take i, ?_⟩
  apply List.ext_getElem?
  intro x
  rw [List.getElem?_append, List.length_take, Nat.min_eq_left (by omega)]
  split
  · rename_i hBefore
    rw [List.getElem?_take_of_lt hBefore, List.getElem?_take_of_lt (by omega)]
  · rename_i hBehind
    rw [List.getElem?_take, List.getElem?_take]
    by_cases hIn : x < k
    · rw [if_pos (by omega), if_pos hIn, hAt.same (x - i) (by omega),
        Nat.add_sub_cancel' (Nat.not_lt.mp hBehind)]
    · rw [if_neg (by omega), if_neg hIn]

/- A border that goes on otherwise is a mismatch. -/
theorem mismatch_of_fits {j : Nat} (hLess : k < s.length) (hShorter : j < k)
    (hFits : Fits s (s.take k) j) (hDiffers : s[j]? ≠ s[k]?) : Mismatch s (k - j) k := by
  have hBack : k - (k - j) = j := by omega
  refine ⟨hLess, Nat.sub_le k j, ?_, ?_⟩
  · rw [hBack]
    intro x hX
    rcases hFits.2 with ⟨front, hFront⟩
    have hLength : front.length = k - j := by
      have hBoth := congrArg List.length hFront
      rw [List.length_append, List.length_take, List.length_take] at hBoth
      omega
    have hRead : (front ++ s.take j)[k - j + x]? = (s.take k)[k - j + x]? := by rw [hFront]
    rw [List.getElem?_append_right (by omega), hLength,
      Nat.add_sub_cancel_left, List.getElem?_take_of_lt hX,
      List.getElem?_take_of_lt (by omega)] at hRead
    exact hRead
  · rw [hBack]
    exact hDiffers

/- A backoff index is where to go on. -/
theorem fallsBack_backoffTable (hPos : 0 < k) (hLess : k < s.length) :
    FallsBack s k ((backoffTable s).getD k 0) := by
  have hTable := backoffs_backoffTable s
  refine ⟨?_, ?_, ?_⟩
  · rcases hTable.some k with hZero | ⟨i, hAt, hIs⟩
    · rw [hZero]
      exact hPos
    · have hStart := hAt.pos
      omega
  · rcases hTable.some k with hZero | ⟨i, hAt, hIs⟩
    · rw [hZero]
      exact fits_zero s _
    · rw [hIs]
      exact fits_of_mismatch hAt
  · intro j hMore hShorter hFits
    by_contra hDiffers
    have hAt := mismatch_of_fits hLess hShorter hFits hDiffers
    have hLargest := hTable.largest (k - j) k (by omega) hAt
    omega

/- The loop of a step ends, with the longest part there is. -/
theorem searchLoop_longest {text : List Byte} {ch : Byte} {turns : Nat}
    (hLess : i < s.length) (hTurns : i < turns) (hUntried : Untried s text ch i) :
    ∃ j, searchLoop s (backoffTable s) ch turns i = some j ∧ Longest s (text ++ [ch]) j := by
  induction turns generalizing i with
  | zero => exact absurd hTurns (Nat.not_lt_zero i)
  | succ turns ih =>
    unfold searchLoop
    by_cases hNext : s[i]? = some ch
    · rw [if_pos hNext]
      exact ⟨i + 1, rfl, hUntried.hit hNext⟩
    rw [if_neg hNext]
    by_cases hZero : i = 0
    · subst hZero
      rw [if_pos rfl]
      exact ⟨0, rfl, hUntried.miss hNext⟩
    rw [if_neg hZero]
    have hBack := fallsBack_backoffTable (Nat.pos_of_ne_zero hZero) hLess
    have hSmaller := hBack.less
    exact ih (by omega) (by omega) (hUntried.fallBack hNext hBack)

/- A search for `s`, when it has seen the text. -/
structure Searching (s text : List Byte) (sie : Searchengine) : Prop where
  ptr : sie.ptr = some s
  r : sie.r = backoffTable s
  tracks : Tracks s text sie.i

theorem searching_start (s : List Byte) : Searching s [] (maildirSearchStart s) where
  ptr := rfl
  r := rfl
  tracks := tracks_start s

variable {sie : Searchengine}

/- A step ends, and takes one character more. -/
theorem Searching.step {text : List Byte} (hSearch : Searching s text sie) (ch : Byte) :
    ∃ sie', maildirSearchStep sie ch = some sie' ∧ Searching s (text ++ [ch]) sie' := by
  unfold maildirSearchStep
  rw [hSearch.ptr, hSearch.r]
  simp only []
  rcases hSearch.tracks with ⟨hAll, hFound⟩ | hOpen
  · have hEnd : s[sie.i]? = none := List.getElem?_eq_none (Nat.le_of_eq hAll.symm)
    rw [if_pos hEnd]
    exact ⟨sie, rfl, hSearch.ptr, hSearch.r, hSearch.tracks.done hAll ch⟩
  · rcases hOpen with ⟨hLess, hLongest, _⟩
    have hIn : s[sie.i]? ≠ none := by
      rw [List.getElem?_eq_getElem hLess]
      exact Option.some_ne_none _
    rcases searchLoop_longest hLess (Nat.lt_succ_self sie.i)
      (Untried.of_longest hLongest) with ⟨j, hLoop, hNext⟩
    rw [if_neg hIn, hLoop]
    exact ⟨_, rfl, rfl, rfl, hSearch.tracks.next hLess hNext⟩

theorem Searching.steps {seen : List Byte} (hSearch : Searching s seen sie) (text : List Byte) :
    ∃ sie', maildirSearchSteps sie text = some sie' ∧ Searching s (seen ++ text) sie' := by
  induction text generalizing seen sie with
  | nil =>
    rw [List.append_nil]
    exact ⟨sie, rfl, hSearch⟩
  | cons ch text ih =>
    rcases hSearch.step ch with ⟨next, hStep, hNext⟩
    rcases ih hNext with ⟨last, hSteps, hLast⟩
    rw [List.append_assoc, List.singleton_append] at hLast
    refine ⟨last, ?_, hLast⟩
    unfold maildirSearchSteps at hSteps ⊢
    rw [List.foldlM_cons, hStep]
    exact hSteps

theorem Searching.found_iff {text : List Byte} (hSearch : Searching s text sie) :
    maildirSearchFound sie = true ↔ s <:+: text := by
  unfold maildirSearchFound
  rw [hSearch.ptr, decide_eq_true_iff, ← hSearch.tracks.found_iff, List.getElem?_eq_none_iff]
  rcases hSearch.tracks with ⟨hAll, _⟩ | ⟨hLess, _⟩
  · exact iff_of_true (Nat.le_of_eq hAll.symm) hAll
  · exact iff_of_false (Nat.not_le.mpr hLess) (Nat.ne_of_lt hLess)

/-
  Every step of a search ends, and the string has been found
  when it is somewhere in the text.
-/
theorem search_found_iff (s text : List Byte) :
    ∃ sie, maildirSearchSteps (maildirSearchStart s) text = some sie ∧
        (maildirSearchFound sie = true ↔ s <:+: text) := by
  rcases (searching_start s).steps text with ⟨sie, hSteps, hSearch⟩
  exact ⟨sie, hSteps, hSearch.found_iff⟩

end Wmail.Maildirsearch
