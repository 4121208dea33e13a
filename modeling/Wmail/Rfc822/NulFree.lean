import Mathlib.Data.List.TakeWhile
import Wmail.Rfc822.Address

/-
  Addresses that come from a text are printed without a zero
  byte, as the text ends at its first one.

  Key theorems include:
    * `nulFree_of_text`
    * `zero_printAddr`
-/

namespace Wmail.Rfc822

/- The token points into a text without a zero byte. -/
def Token.NulFree (t : Token) : Prop :=
  0 ∉ t.ptr

structure Addr.NulFree (a : Addr) : Prop where
  tokens : ∀ t, t ∈ a.tokens → t.NulFree
  name : ∀ t, t ∈ a.name → t.NulFree

theorem nulFree_tokenizeLoop (fuel : Nat) (inbracket : Bool) {s : List Byte} (hText : 0 ∉ s)
    {t : Token} (hMem : t ∈ tokenizeLoop fuel inbracket s) : t.NulFree := by
  induction fuel generalizing inbracket s with
  | zero => cases hMem
  | succ fuel ih =>
    cases s with
    | nil => cases hMem
    | cons c rest =>
      have hRest : 0 ∉ rest := fun hIn => hText (List.mem_cons_of_mem c hIn)
      have hDrop : ∀ n, 0 ∉ (c :: rest).drop n := fun n hIn => hText (List.mem_of_mem_drop hIn)
      have hSkip : ∀ n, 0 ∉ rest.drop n := fun n hIn => hRest (List.mem_of_mem_drop hIn)
      rw [tokenizeLoop] at hMem
      split at hMem
      · exact ih _ hRest hMem
      split at hMem
      · dsimp only at hMem
        split at hMem
        · rcases List.mem_cons.mp hMem with rfl | hLater
          · exact hText
          · exact ih _ (hDrop _) hLater
        · rw [List.mem_singleton.mp hMem]
          exact hText
      split at hMem
      · dsimp only at hMem
        split at hMem
        · rcases List.mem_cons.mp hMem with rfl | hLater
          · exact hRest
          · exact ih _ (hSkip _) hLater
        · rw [List.mem_singleton.mp hMem]
          exact hRest
      split at hMem
      · exact ih _ hRest hMem
      split at hMem
      · split at hMem
        · exact ih _ hRest hMem
        · rcases List.mem_cons.mp hMem with rfl | hOther
          · exact hText
          rcases List.mem_append.mp hOther with hFake | hLater
          · split at hFake
            · rw [List.mem_singleton.mp hFake]
              exact List.not_mem_nil
            · cases hFake
          · exact ih _ hRest hLater
      · rcases List.mem_cons.mp hMem with rfl | hLater
        · exact hText
        · exact ih _ (hDrop _) hLater

theorem nulFree_routeName {before : List Token} (hFree : ∀ t, t ∈ before → t.NulFree)
    {t : Token} (hMem : t ∈ routeName before) : t.NulFree := by
  unfold routeName at hMem
  rcases List.mem_map.mp hMem with ⟨u, hU, rfl⟩
  have hOld : u.NulFree := by
    split at hU
    · exact hFree u hU
    · cases before with
      | nil => cases hU
      | cons first others =>
        rw [List.mem_singleton.mp hU]
        exact hFree first List.mem_cons_self
  split
  · exact hOld
  · exact hOld

theorem nulFree_parseaddrLoop (fuel : Nat) {tokens : List Token}
    (hFree : ∀ t, t ∈ tokens → t.NulFree) {a : Addr}
    (hMem : a ∈ parseaddrLoop fuel tokens) : a.NulFree := by
  induction fuel generalizing tokens with
  | zero => cases hMem
  | succ fuel ih =>
    cases tokens with
    | nil => cases hMem
    | cons first others =>
      have hDrop : ∀ n t, t ∈ (first :: others).drop n → t.NulFree :=
        fun n t hIn => hFree t (List.mem_of_mem_drop hIn)
      have hTake : ∀ n t, t ∈ (first :: others).take n → t.NulFree :=
        fun n t hIn => hFree t (List.mem_of_mem_take hIn)
      have hOthers : ∀ t, t ∈ others → t.NulFree :=
        fun t hIn => hFree t (List.mem_cons_of_mem first hIn)
      have hNone : ∀ t : Token, t ∈ [] → t.NulFree := fun t hIn => absurd hIn List.not_mem_nil
      rw [parseaddrLoop] at hMem
      dsimp only at hMem
      split at hMem
      · rcases List.mem_cons.mp hMem with rfl | hLater
        · exact ⟨hNone, hTake _⟩
        · exact ih (hDrop _) hLater
      split at hMem
      · exact ih hOthers hMem
      split at hMem
      · rcases List.mem_cons.mp hMem with rfl | hLater
        · refine ⟨hNone, ?_⟩
          intro t hIn
          rw [List.mem_singleton.mp hIn]
          exact hFree first List.mem_cons_self
        · exact ih hOthers hLater
      split at hMem
      · rcases List.mem_cons.mp hMem with rfl | hLater
        · constructor
          · intro t hIn
            exact hDrop _ t (List.mem_of_mem_drop (List.takeWhile_subset _ hIn))
          · intro t hIn
            exact nulFree_routeName (fun u hU => hFree u (List.takeWhile_subset _ hU)) hIn
        · exact ih (fun t hIn => hDrop _ t (List.mem_of_mem_drop hIn)) hLater
      split at hMem
      · exact ih hOthers hMem
      · rcases List.mem_cons.mp hMem with rfl | hLater
        · constructor
          · intro t hIn
            exact hTake _ t (List.mem_of_mem_filter hIn)
          · intro t hIn
            rw [Option.mem_toList] at hIn
            exact hTake _ t (List.mem_of_mem_filter (List.mem_of_getLast? hIn))
        · exact ih (hDrop _) hLater

theorem nulFree_of_text {text : List Byte} {a : Addr}
    (hMem : a ∈ parseaddr (tokenize text)) : a.NulFree := by
  have hText : 0 ∉ text.takeWhile (· ≠ 0) := by
    intro hIn
    have hOther := List.mem_takeWhile_imp hIn
    rw [decide_eq_true_eq] at hOther
    exact hOther rfl
  exact nulFree_parseaddrLoop _ (fun t hIn => nulFree_tokenizeLoop _ _ hText hIn) hMem

theorem zero_printQuoted (n : Nat) (q : List Byte) (hLength : q.length ≤ n)
    (hText : 0 ∉ q) : 0 ∉ printQuoted q := by
  induction n generalizing q with
  | zero =>
    rw [List.eq_nil_of_length_eq_zero (Nat.le_zero.mp hLength)]
    exact List.not_mem_nil
  | succ n ih =>
    cases q with
    | nil => exact List.not_mem_nil
    | cons c rest =>
      rw [List.length_cons] at hLength
      rw [List.mem_cons, not_or] at hText
      have hRest := ih rest (Nat.le_of_succ_le_succ hLength) hText.2
      rw [printQuoted.eq_def]
      dsimp only
      split
      · cases rest with
        | nil => decide
        | cons d after =>
          rw [List.length_cons] at hLength
          rw [List.mem_cons, not_or] at hText
          have hAfter := ih after (by omega) hText.2.2
          simp only [List.mem_cons, not_or]
          exact ⟨by decide, hText.2.1, hAfter⟩
      split
      · simp only [List.mem_cons, not_or]
        exact ⟨by decide, hText.1, hRest⟩
      · rw [List.mem_cons, not_or]
        exact ⟨hText.1, hRest⟩

theorem zero_tokPrint {tokens : List Token} (hFree : ∀ t, t ∈ tokens → t.NulFree)
    (prevIsatom : Bool) : 0 ∉ tokPrint prevIsatom tokens := by
  induction tokens generalizing prevIsatom with
  | nil => exact List.not_mem_nil
  | cons t rest ih =>
    have hText : 0 ∉ t.text := fun hIn => hFree t List.mem_cons_self (List.mem_of_mem_take hIn)
    have hToken : 0 ∉ printToken t := by
      unfold printToken
      split
      · exact hText
      rename_i hOther
      rw [not_or] at hOther
      split
      · rw [List.mem_singleton]
        exact fun hZero => hOther.1 hZero.symm
      · have hInside := zero_printQuoted _ _ (Nat.le_refl _) hText
        simp only [List.mem_cons, List.mem_append, not_or]
        exact ⟨by decide, hInside, by decide, List.not_mem_nil⟩
    rw [tokPrint, List.mem_append, List.mem_append, not_or, not_or]
    refine ⟨?_, hToken, ih (fun u hIn => hFree u (List.mem_cons_of_mem t hIn)) _⟩
    split
    · decide
    · exact List.not_mem_nil

section Printed

variable {a : Addr}

theorem zero_printAddr (hFree : a.NulFree) : 0 ∉ printAddr a := by
  have hTokens : 0 ∉ rfc822tokPrint a.tokens := zero_tokPrint hFree.tokens false
  have hName : 0 ∉ rfc822tokPrint a.name := zero_tokPrint hFree.name false
  have hMarks : (0 : Byte) ≠ chr ' ' ∧ (0 : Byte) ≠ chr '<' ∧ (0 : Byte) ≠ chr '>' := by decide
  unfold printAddr
  split_ifs
  all_goals
    simp only [List.mem_append, List.mem_cons, List.not_mem_nil, hTokens, hName, hMarks.1,
      hMarks.2.1, hMarks.2.2, or_self, not_false_eq_true]

end Printed

end Wmail.Rfc822
