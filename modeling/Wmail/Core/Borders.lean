import Mathlib.Data.List.Infix

/-
  Looking for a list in a text that comes element by element.

  The state is how much of the list the text ends with; a
  table says how much to try after a mismatch.

  Key theorems include:
    * `Tracks.next`
    * `Tracks.found_iff`
-/

namespace Wmail

section Borders

variable {α : Type}

/- The text ends with the first `j` elements of the list. -/
def Fits (s text : List α) (j : Nat) : Prop :=
  j ≤ s.length ∧ s.take j <:+ text

/- The text ends with `j` elements of the list, and not with
more. -/
def Longest (s text : List α) (j : Nat) : Prop :=
  Fits s text j ∧ ∀ k, Fits s text k → k ≤ j

variable {s text : List α} {c : α} {i j k : Nat}

theorem fits_zero (s text : List α) : Fits s text 0 := by
  refine ⟨Nat.zero_le _, ?_⟩
  rw [List.take_zero]
  exact List.nil_suffix

theorem fits_length : Fits s text s.length ↔ s <:+ text := by
  unfold Fits
  rw [List.take_length]
  exact and_iff_right le_rfl

theorem Fits.le_length (hFits : Fits s text j) : j ≤ text.length := by
  have hLength := hFits.2.length_le
  rwa [List.length_take, Nat.min_eq_left hFits.1] at hLength

/- One element more on both sides. -/
theorem fits_concat : Fits s (text ++ [c]) (j + 1) ↔ Fits s text j ∧ s[j]? = some c := by
  constructor
  · rintro ⟨hLe, hSuffix⟩
    have hLess : j < s.length := hLe
    rw [List.take_succ_eq_append_getElem hLess] at hSuffix
    rcases List.suffix_concat_iff.mp hSuffix with hNil | ⟨front, hSame, hFront⟩
    · exact absurd hNil (List.append_ne_nil_of_right_ne_nil _ (List.cons_ne_nil _ _))
    · rcases List.append_inj' hSame rfl with ⟨rfl, hLast⟩
      exact ⟨⟨Nat.le_of_lt hLess, hFront⟩, (List.getElem?_eq_getElem hLess).trans
          (congrArg some (List.singleton_inj.mp hLast))⟩
  · rintro ⟨⟨_, hSuffix⟩, hNext⟩
    rcases List.getElem?_eq_some_iff.mp hNext with ⟨hLess, rfl⟩
    refine ⟨hLess, ?_⟩
    rw [List.take_succ_eq_append_getElem hLess]
    rcases hSuffix with ⟨front, rfl⟩
    exact ⟨front, (List.append_assoc front _ _).symm⟩

/- What fits is compared with what fits and is longer. -/
theorem fits_of_longer (hLonger : Fits s text k) (hLe : j ≤ k) :
    Fits s text j ↔ Fits s (s.take k) j := by
  have hLength : (s.take j).length ≤ (s.take k).length := by
    rw [List.length_take, List.length_take]
    omega
  constructor
  · rintro ⟨hJ, hSuffix⟩
    exact ⟨hJ, List.suffix_of_suffix_length_le hSuffix hLonger.2 hLength⟩
  · rintro ⟨hJ, hSuffix⟩
    exact ⟨hJ, hSuffix.trans hLonger.2⟩

/-
  Where `k` elements fit and the next one does not, `next` are
  tried; those between would have the same element next.
-/
structure FallsBack (s : List α) (k next : Nat) : Prop where
  less : next < k
  fits : Fits s (s.take k) next
  between : ∀ j, next < j → j < k → Fits s (s.take k) j → s[j]? = s[k]?

/-
  In front of the element `c`, `i` elements fit, and whatever
  fits and is longer goes on with another element.
-/
structure Untried (s text : List α) (c : α) (i : Nat) : Prop where
  fits : Fits s text i
  others : ∀ j, Fits s text j → i < j → s[j]? ≠ some c

theorem Untried.of_longest (hLongest : Longest s text i) : Untried s text c i where
  fits := hLongest.1
  others := fun j hFits hLess => absurd (hLongest.2 j hFits) (Nat.not_le.mpr hLess)

/- The next element is there. -/
theorem Untried.hit (hUntried : Untried s text c i) (hNext : s[i]? = some c) :
    Longest s (text ++ [c]) (i + 1) := by
  refine ⟨fits_concat.mpr ⟨hUntried.fits, hNext⟩, ?_⟩
  intro k hFits
  cases k with
  | zero => exact Nat.zero_le _
  | succ k =>
    rcases fits_concat.mp hFits with ⟨hShorter, hSame⟩
    by_contra hMore
    exact hUntried.others k hShorter (Nat.lt_of_succ_lt_succ (Nat.not_le.mp hMore)) hSame

/- Nothing fits. -/
theorem Untried.miss (hUntried : Untried s text c 0) (hNext : s[0]? ≠ some c) :
    Longest s (text ++ [c]) 0 := by
  refine ⟨fits_zero _ _, ?_⟩
  intro k hFits
  cases k with
  | zero => exact le_rfl
  | succ k =>
    rcases fits_concat.mp hFits with ⟨hShorter, hSame⟩
    rcases Nat.eq_zero_or_pos k with rfl | hPos
    · exact absurd hSame hNext
    · exact absurd hSame (hUntried.others k hShorter hPos)

/- Less is tried. -/
theorem Untried.fallBack (hUntried : Untried s text c i) (hNext : s[i]? ≠ some c)
    (hBack : FallsBack s i j) : Untried s text c j := by
  refine ⟨?_, ?_⟩
  · exact (fits_of_longer hUntried.fits (Nat.le_of_lt hBack.less)).mpr hBack.fits
  · intro k hFits hMore
    rcases Nat.lt_trichotomy k i with hLess | rfl | hLonger
    · have hBorder := (fits_of_longer hUntried.fits (Nat.le_of_lt hLess)).mp hFits
      rw [hBack.between k hMore hLess hBorder]
      exact hNext
    · exact hNext
    · exact hUntried.others k hFits hLonger

/-
  The whole list was found, or the longest part of it that
  the text ends with is known.
-/
def Tracks (s text : List α) (i : Nat) : Prop :=
  (i = s.length ∧ s <:+: text) ∨ (i < s.length ∧ Longest s text i ∧ ¬ s <:+: text)

theorem tracks_start (s : List α) : Tracks s [] 0 := by
  cases s with
  | nil => exact Or.inl ⟨rfl, List.nil_infix⟩
  | cons a s =>
    refine Or.inr ⟨Nat.succ_pos _, ⟨fits_zero _ _, ?_⟩, ?_⟩
    · intro k hFits
      exact hFits.le_length
    · intro hInfix
      cases List.infix_nil.mp hInfix

theorem Tracks.found_iff (hTracks : Tracks s text i) : i = s.length ↔ s <:+: text := by
  rcases hTracks with ⟨hAll, hFound⟩ | ⟨hLess, _, hNot⟩
  · exact iff_of_true hAll hFound
  · exact iff_of_false (Nat.ne_of_lt hLess) hNot

/- What was found stays found. -/
theorem Tracks.done (hTracks : Tracks s text i) (hAll : i = s.length) (c : α) :
    Tracks s (text ++ [c]) i := by
  have hFound := hTracks.found_iff.mp hAll
  exact Or.inl ⟨hAll, List.infix_concat_iff.mpr (Or.inr hFound)⟩

/- One element more. -/
theorem Tracks.next (hTracks : Tracks s text i) (hMore : i < s.length)
    (hLongest : Longest s (text ++ [c]) j) : Tracks s (text ++ [c]) j := by
  have hNot : ¬ s <:+: text := fun hFound => Nat.ne_of_lt hMore (hTracks.found_iff.mpr hFound)
  rcases Nat.eq_or_lt_of_le hLongest.1.1 with hAll | hLess
  · refine Or.inl ⟨hAll, ?_⟩
    rw [hAll] at hLongest
    exact (fits_length.mp hLongest.1).isInfix
  · refine Or.inr ⟨hLess, hLongest, ?_⟩
    intro hFound
    rcases List.infix_concat_iff.mp hFound with hEnd | hBefore
    · exact absurd (hLongest.2 s.length (fits_length.mpr hEnd)) (Nat.not_le.mpr hLess)
    · exact hNot hBefore

end Borders

end Wmail
