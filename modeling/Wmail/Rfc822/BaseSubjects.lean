import Mathlib.Data.List.TakeWhile
import Mathlib.Data.List.Chain
import Wmail.Rfc822.Subject

/-
  The base subject: the loops that strip a subject come to an
  end, stripping a base subject again changes nothing, and the
  marks of replies and forwards are stripped.

  Key theorems include:
    * `baseOf_word`
    * `rfc822Coresubj_stable`
-/

namespace Wmail.Rfc822

/- A blob is at the beginning of the text. -/
theorem skipblob_suffix (p : List Byte) : ∃ front, p = front ++ skipblob p := by
  unfold skipblob
  split
  · exact ⟨[], rfl⟩
  · rename_i c rest
    split
    · split
      · exact ⟨[], rfl⟩
      · rename_i d after hStop
        split
        · have hRest : rest = rest.takeWhile (fun d => d != chr '[' && d != chr ']') ++
                d :: after := by
            rw [← hStop, List.takeWhile_append_dropWhile]
          have hAfter := (List.takeWhile_append_dropWhile (p := isspace) (l := after)).symm
          refine ⟨c :: rest.takeWhile (fun d => d != chr '[' && d != chr ']') ++
              d :: after.takeWhile isspace, ?_⟩
          rw [List.append_assoc, List.cons_append, List.cons_append, ← hAfter, ← hRest]
        · exact ⟨[], rfl⟩
    · exact ⟨[], rfl⟩

theorem length_skipblob (p : List Byte) : skipblob p = p ∨ (skipblob p).length < p.length := by
  rcases skipblob_suffix p with ⟨front, hP⟩
  cases front with
  | nil => exact Or.inl hP.symm
  | cons c front =>
    right
    have hLength := congrArg List.length hP
    rw [List.length_append, List.length_cons] at hLength
    omega

theorem skipblob_other {c : Byte} (hOther : c ≠ chr '[') (rest : List Byte) :
    skipblob (c :: rest) = c :: rest := by
  unfold skipblob
  exact if_neg hOther

variable {p : List Byte}

/- Two runs that have enough fuel agree. -/
theorem skipblobsLoop_enough {m n : Nat} (hM : p.length ≤ m) (hN : p.length ≤ n) :
    skipblobsLoop m p = skipblobsLoop n p := by
  induction m generalizing n p with
  | zero =>
    have hNil := List.eq_nil_of_length_eq_zero (Nat.le_zero.mp hM)
    subst hNil
    cases n with
    | zero => rfl
    | succ n => rfl
  | succ m ih =>
    rcases length_skipblob p with hSame | hLess
    · cases n with
      | zero =>
        have hNil := List.eq_nil_of_length_eq_zero (Nat.le_zero.mp hN)
        subst hNil
        rfl
      | succ n => simp only [skipblobsLoop, if_pos hSame]
    · cases n with
      | zero => omega
      | succ n =>
        have hOther : skipblob p ≠ p := by
          intro hEq
          rw [hEq] at hLess
          exact Nat.lt_irrefl _ hLess
        simp only [skipblobsLoop, if_neg hOther]
        exact ih (by omega) (by omega)

theorem skipblobsLoop_suffix (n : Nat) (p : List Byte) :
    ∃ front, p = front ++ skipblobsLoop n p := by
  induction n generalizing p with
  | zero => exact ⟨[], rfl⟩
  | succ n ih =>
    rcases skipblob_suffix p with ⟨front, hP⟩
    simp only [skipblobsLoop]
    split
    · exact ⟨front, hP⟩
    · rcases ih (skipblob p) with ⟨more, hMore⟩
      refine ⟨front ++ more, ?_⟩
      rw [List.append_assoc, ← hMore]
      exact hP

/- Two runs that have enough fuel agree. -/
theorem stripTrailerLoop_enough {m n : Nat} (flag : Bool) (hM : p.length ≤ m)
    (hN : p.length ≤ n) : stripTrailerLoop m p flag = stripTrailerLoop n p flag := by
  induction m generalizing n p flag with
  | zero =>
    have hNil := List.eq_nil_of_length_eq_zero (Nat.le_zero.mp hM)
    subst hNil
    cases n with
    | zero => rfl
    | succ n => rfl
  | succ m ih =>
    cases p with
    | nil =>
      cases n with
      | zero => rfl
      | succ n => rfl
    | cons c rest =>
      rw [List.length_cons] at hM hN
      cases n with
      | zero => omega
      | succ n =>
        have hDrop : ((c :: rest).drop 5).length ≤ rest.length := by
          rw [List.length_drop, List.length_cons]
          omega
        simp only [stripTrailerLoop]
        split
        · exact ih flag (by omega) (by omega)
        · split
          · exact ih true (by omega) (by omega)
          · rfl

/- Nothing to strip, on the subject read backwards. -/
def NoTrailer (p : List Byte) : Prop :=
  p = [] ∨ ∃ c rest, p = c :: rest ∧ isspace c = false ∧
    casePrefix (bytes "(FWD)").reverse p = false

theorem stripTrailerLoop_done (n : Nat) (flag : Bool) (hDone : NoTrailer p) :
    stripTrailerLoop n p flag = (p, flag) := by
  rcases hDone with hNil | ⟨c, rest, hP, hSpace, hFwd⟩
  · subst hNil
    cases n with
    | zero => rfl
    | succ n => rfl
  · subst hP
    cases n with
    | zero => rfl
    | succ n => simp only [stripTrailerLoop, hSpace, hFwd, Bool.false_eq_true, if_false]

/- What is left is the end of the text, and has no trailer. -/
theorem stripTrailerLoop_spec {n : Nat} {p : List Byte} (flag : Bool) (hN : p.length ≤ n) :
    NoTrailer (stripTrailerLoop n p flag).1 ∧
      ∃ front, p = front ++ (stripTrailerLoop n p flag).1 := by
  induction n generalizing p flag with
  | zero =>
    have hNil := List.eq_nil_of_length_eq_zero (Nat.le_zero.mp hN)
    subst hNil
    exact ⟨Or.inl rfl, [], rfl⟩
  | succ n ih =>
    cases p with
    | nil => exact ⟨Or.inl rfl, [], rfl⟩
    | cons c rest =>
      rw [List.length_cons] at hN
      cases hSpace : isspace c with
      | true =>
        simp only [stripTrailerLoop, hSpace, if_true]
        rcases @ih rest flag (by omega) with ⟨hDone, front, hRest⟩
        refine ⟨hDone, c :: front, ?_⟩
        rw [List.cons_append, ← hRest]
      | false =>
        cases hFwd : casePrefix (bytes "(FWD)").reverse (c :: rest) with
        | true =>
          simp only [stripTrailerLoop, hSpace, hFwd, Bool.false_eq_true, if_false, if_true]
          have hDrop : ((c :: rest).drop 5).length ≤ n := by
            rw [List.length_drop, List.length_cons]
            omega
          rcases @ih _ true hDrop with ⟨hDone, front, hRest⟩
          refine ⟨hDone, (c :: rest).take 5 ++ front, ?_⟩
          rw [List.append_assoc, ← hRest, List.take_append_drop]
        | false =>
          simp only [stripTrailerLoop, hSpace, hFwd, Bool.false_eq_true, if_false]
          exact ⟨Or.inr ⟨c, rest, rfl, hSpace, hFwd⟩, [], rfl⟩

/- The text that is left does not depend on the flag. -/
theorem stripTrailerLoop_flag (n : Nat) (p : List Byte) (flag other : Bool) :
    (stripTrailerLoop n p flag).1 = (stripTrailerLoop n p other).1 := by
  induction n generalizing p flag other with
  | zero => rfl
  | succ n ih =>
    cases p with
    | nil => rfl
    | cons c rest =>
      simp only [stripTrailerLoop]
      split
      · exact ih rest flag other
      · split
        · rfl
        · rfl

/- The text after `re:` or the like is shorter. -/
theorem skipReply_suffix {p after : List Byte} (hReply : skipReply p = some after) :
    ∃ front, p = front ++ after ∧ front ≠ [] := by
  unfold skipReply at hReply
  rcases skipblobsLoop_suffix p.length p with ⟨front, hP⟩
  cases hRefwd : skipRefwd (skipblobs p) with
  | none =>
    rw [hRefwd] at hReply
    cases hReply
  | some q =>
    simp only [hRefwd] at hReply
    have hQ : ∃ word, skipblobs p = word ++ q := by
      unfold skipRefwd at hRefwd
      split at hRefwd
      · cases hRefwd
        exact ⟨_, (List.take_append_drop 2 _).symm⟩
      · split at hRefwd
        · cases hRefwd
          exact ⟨_, (List.take_append_drop 3 _).symm⟩
        · split at hRefwd
          · cases hRefwd
            exact ⟨_, (List.take_append_drop 2 _).symm⟩
          · cases hRefwd
    rcases hQ with ⟨word, hWord⟩
    rcases skipblob_suffix q with ⟨blob, hBlob⟩
    cases hText : skipblob q with
    | nil =>
      rw [hText] at hReply
      cases hReply
    | cons c rest =>
      simp only [hText] at hReply
      split at hReply
      · cases hReply
        refine ⟨front ++ (word ++ (blob ++ [c])), ?_, by simp⟩
        rw [hText] at hBlob
        unfold skipblobs at hWord
        rw [hP, hWord, hBlob]
        simp
      · cases hReply

/- Nothing to strip at the beginning of the subject. -/
def NoLeader (p : List Byte) : Prop :=
  p = [] ∨ ∃ c rest, p = c :: rest ∧ isspace c = false ∧
    skipReply p = none ∧ (skipblob p = p ∨ skipblob p = [])

/- One round of the loop over the leaders. -/
theorem stripLeaderLoop_cons (n : Nat) (c : Byte) (rest : List Byte) (flag : Bool) :
    stripLeaderLoop (n + 1) (c :: rest) flag =
      if isspace c then
        stripLeaderLoop n rest flag
      else
        match skipReply (c :: rest) with
        | some after => stripLeaderLoop n after true
        | none =>
          if skipblob (c :: rest) ≠ c :: rest ∧ skipblob (c :: rest) ≠ [] then
            stripLeaderLoop n (skipblob (c :: rest)) flag
          else
            (c :: rest, flag) :=
  rfl

theorem length_skipReply {p after : List Byte} (hReply : skipReply p = some after) :
    after.length < p.length := by
  rcases skipReply_suffix hReply with ⟨front, hP, hFront⟩
  have hLength := congrArg List.length hP
  rw [List.length_append] at hLength
  have hPos := List.length_pos_iff.mpr hFront
  omega

/- Two runs that have enough fuel agree. -/
theorem stripLeaderLoop_enough {m n : Nat} (flag : Bool) (hM : p.length ≤ m)
    (hN : p.length ≤ n) : stripLeaderLoop m p flag = stripLeaderLoop n p flag := by
  induction m generalizing n p flag with
  | zero =>
    have hNil := List.eq_nil_of_length_eq_zero (Nat.le_zero.mp hM)
    subst hNil
    cases n with
    | zero => rfl
    | succ n => rfl
  | succ m ih =>
    cases p with
    | nil =>
      cases n with
      | zero => rfl
      | succ n => rfl
    | cons c rest =>
      rw [List.length_cons] at hM hN
      cases n with
      | zero => omega
      | succ n =>
        rw [stripLeaderLoop_cons, stripLeaderLoop_cons]
        split
        · exact ih flag (by omega) (by omega)
        · split
          · rename_i after hReply
            have hLess := length_skipReply hReply
            rw [List.length_cons] at hLess
            exact ih true (by omega) (by omega)
          · split
            · rename_i hBlob
              have hLess := (length_skipblob (c :: rest)).resolve_left hBlob.1
              rw [List.length_cons] at hLess
              exact ih flag (by omega) (by omega)
            · rfl

theorem stripLeaderLoop_done (n : Nat) (flag : Bool) (hDone : NoLeader p) :
    stripLeaderLoop n p flag = (p, flag) := by
  rcases hDone with hNil | ⟨c, rest, hP, hSpace, hReply, hBlob⟩
  · subst hNil
    cases n with
    | zero => rfl
    | succ n => rfl
  · subst hP
    cases n with
    | zero => rfl
    | succ n =>
      have hStay : ¬ (skipblob (c :: rest) ≠ c :: rest ∧ skipblob (c :: rest) ≠ []) := by
        rintro ⟨hOther, hSome⟩
        rcases hBlob with hSame | hNone
        · exact hOther hSame
        · exact hSome hNone
      rw [stripLeaderLoop_cons, if_neg (by rw [hSpace]; decide), hReply]
      exact if_neg hStay

/- What is left ends the text, and has no leader. -/
theorem stripLeaderLoop_spec {n : Nat} {p : List Byte} (flag : Bool) (hN : p.length ≤ n) :
    NoLeader (stripLeaderLoop n p flag).1 ∧ ∃ front, p = front ++ (stripLeaderLoop n p flag).1 := by
  induction n generalizing p flag with
  | zero =>
    have hNil := List.eq_nil_of_length_eq_zero (Nat.le_zero.mp hN)
    subst hNil
    exact ⟨Or.inl rfl, [], rfl⟩
  | succ n ih =>
    cases p with
    | nil => exact ⟨Or.inl rfl, [], rfl⟩
    | cons c rest =>
      rw [List.length_cons] at hN
      rw [stripLeaderLoop_cons]
      cases hSpace : isspace c with
      | true =>
        rw [if_pos rfl]
        rcases @ih rest flag (by omega) with ⟨hDone, front, hRest⟩
        refine ⟨hDone, c :: front, ?_⟩
        rw [List.cons_append, ← hRest]
      | false =>
        rw [if_neg Bool.false_ne_true]
        cases hReply : skipReply (c :: rest) with
        | some after =>
          have hLess := length_skipReply hReply
          rw [List.length_cons] at hLess
          rcases skipReply_suffix hReply with ⟨front, hP, _⟩
          rcases @ih after true (by omega) with ⟨hDone, more, hAfter⟩
          refine ⟨hDone, front ++ more, ?_⟩
          rw [List.append_assoc, ← hAfter]
          exact hP
        | none =>
          simp only []
          by_cases hBlob : skipblob (c :: rest) ≠ c :: rest ∧ skipblob (c :: rest) ≠ []
          · rw [if_pos hBlob]
            have hLess := (length_skipblob (c :: rest)).resolve_left hBlob.1
            rw [List.length_cons] at hLess
            rcases skipblob_suffix (c :: rest) with ⟨front, hP⟩
            rcases @ih _ flag (Nat.le_of_lt_succ (Nat.lt_of_lt_of_le hLess hN)) with
              ⟨hDone, more, hAfter⟩
            refine ⟨hDone, front ++ more, ?_⟩
            rw [List.append_assoc, ← hAfter]
            exact hP
          · rw [if_neg hBlob]
            refine ⟨Or.inr ⟨c, rest, rfl, hSpace, hReply, ?_⟩, [], rfl⟩
            rw [not_and_or, not_not, not_not] at hBlob
            exact hBlob

theorem stripLeaderLoop_flag (n : Nat) (p : List Byte) (flag other : Bool) :
    (stripLeaderLoop n p flag).1 = (stripLeaderLoop n p other).1 := by
  induction n generalizing p flag other with
  | zero => rfl
  | succ n ih =>
    cases p with
    | nil => rfl
    | cons c rest =>
      rw [stripLeaderLoop_cons, stripLeaderLoop_cons]
      split
      · exact ih rest flag other
      · split
        · rfl
        · split
          · exact ih _ flag other
          · rfl

------------
-- Rounds
------------

/- The text in `[fwd: ... ]` is shorter. -/
theorem length_unwrapFwd {p inner : List Byte} (hInner : unwrapFwd p = some inner) :
    inner.length < p.length ∧ ∃ front back, p = front ++ inner ++ back := by
  unfold unwrapFwd at hInner
  split at hInner
  · rename_i hFwd
    cases hInner
    cases p with
    | nil => cases hFwd.2
    | cons c rest =>
      constructor
      · rw [List.length_drop, List.length_dropLast, List.length_cons]
        omega
      · have hSome : c :: rest ≠ [] := List.cons_ne_nil c rest
        refine ⟨(c :: rest).dropLast.take 5, [(c :: rest).getLast hSome], ?_⟩
        rw [List.take_append_drop, List.dropLast_append_getLast hSome]
  · cases hInner

/- What a round of the `do` loop leaves. -/
def stripRound (s : List Byte) : List Byte :=
  (stripLeader (stripTrailer s false).1 false).1

theorem stripTrailer_flag (s : List Byte) (flag : Bool) :
    (stripTrailer s flag).1 = (stripTrailer s false).1 := by
  unfold stripTrailer
  simp only []
  rw [stripTrailerLoop_flag s.length s.reverse flag false]

theorem stripsubjLoop_succ (n : Nat) (s : List Byte) (flag : Bool) :
    (stripsubjLoop (n + 1) s flag).1 =
      match unwrapFwd (stripRound s) with
      | some inner => (stripsubjLoop n inner true).1
      | none => stripRound s := by
  have hRound : (stripLeader (stripTrailer s flag).1 (stripTrailer s flag).2).1 = stripRound s := by
    unfold stripRound stripLeader
    rw [stripTrailer_flag s flag]
    exact stripLeaderLoop_flag _ _ _ _
  simp only [stripsubjLoop, hRound]
  cases unwrapFwd (stripRound s) with
  | some inner => rfl
  | none => exact hRound

/- The trailers that are not there. -/
theorem stripTrailer_spec (s : List Byte) (flag : Bool) :
    NoTrailer (stripTrailer s flag).1.reverse ∧ ∃ back, s = (stripTrailer s flag).1 ++ back := by
  rcases @stripTrailerLoop_spec s.length s.reverse flag
    (Nat.le_of_eq s.length_reverse) with ⟨hDone, front, hS⟩
  unfold stripTrailer
  simp only []
  refine ⟨?_, front.reverse, ?_⟩
  · rw [List.reverse_reverse]
    exact hDone
  · rw [← List.reverse_append, ← hS, List.reverse_reverse]

/- The end of a text without trailers has none. -/
theorem NoTrailer.suffix {front p : List Byte} (hDone : NoTrailer (front ++ p).reverse) :
    NoTrailer p.reverse := by
  rw [List.reverse_append] at hDone
  cases hRev : p.reverse with
  | nil => exact Or.inl rfl
  | cons c rest =>
    rw [hRev] at hDone
    rcases hDone with hNil | ⟨d, more, hEq, hSpace, hFwd⟩
    · cases hNil
    · rw [List.cons_append] at hEq hFwd
      rcases List.cons_eq_cons.mp hEq with ⟨hSame, _⟩
      refine Or.inr ⟨c, rest, rfl, by rw [hSame]; exact hSpace, ?_⟩
      rw [Bool.eq_false_iff] at hFwd ⊢
      intro hPrefix
      apply hFwd
      unfold casePrefix at hPrefix ⊢
      rw [List.isPrefixOf_iff_prefix] at hPrefix ⊢
      rw [← List.cons_append, List.map_append]
      exact hPrefix.trans (List.prefix_append _ _)

/- Nothing to strip at either end. -/
def Stripped (p : List Byte) : Prop :=
  NoTrailer p.reverse ∧ NoLeader p

theorem stripped_stripRound (s : List Byte) : Stripped (stripRound s) ∧
      ∃ front back, s = front ++ stripRound s ++ back := by
  rcases stripTrailer_spec s false with ⟨hTrailer, back, hS⟩
  rcases @stripLeaderLoop_spec (stripTrailer s false).1.length (stripTrailer s false).1
    false (Nat.le_refl _) with ⟨hLeader, front, hT⟩
  unfold stripRound stripLeader
  refine ⟨⟨?_, hLeader⟩, front, back, ?_⟩
  · rw [hT] at hTrailer
    exact hTrailer.suffix
  · rw [← hT]
    exact hS

theorem stripRound_stripped (hStripped : Stripped p) : stripRound p = p := by
  have hTrailer : stripTrailer p false = (p, false) := by
    unfold stripTrailer
    rw [stripTrailerLoop_done _ false hStripped.1]
    simp only [List.reverse_reverse]
  unfold stripRound
  rw [hTrailer]
  unfold stripLeader
  rw [stripLeaderLoop_done _ false hStripped.2]

/- Two runs that have enough fuel agree. -/
theorem stripsubjLoop_enough {m n : Nat} {s : List Byte} (flag : Bool) (hM : s.length < m)
    (hN : s.length < n) : stripsubjLoop m s flag = stripsubjLoop n s flag := by
  induction m generalizing n s flag with
  | zero => omega
  | succ m ih =>
    cases n with
    | zero => omega
    | succ n =>
      have hRound : (stripLeader (stripTrailer s flag).1
          (stripTrailer s flag).2).1 = stripRound s := by
        unfold stripRound stripLeader
        rw [stripTrailer_flag s flag]
        exact stripLeaderLoop_flag _ _ _ _
      rcases stripped_stripRound s with ⟨_, front, back, hS⟩
      have hLength := congrArg List.length hS
      simp only [List.length_append] at hLength
      simp only [stripsubjLoop, hRound]
      split
      · rename_i inner hInner
        have hLess := (length_unwrapFwd hInner).1
        exact ih true (by omega) (by omega)
      · rfl

/- The base subject is stripped, and a part of the text. -/
theorem stripped_stripsubjLoop {n : Nat} {s : List Byte} (flag : Bool) (hN : s.length < n) :
    Stripped (stripsubjLoop n s flag).1 ∧
      unwrapFwd (stripsubjLoop n s flag).1 = none ∧ ∃ front back,
          s = front ++ (stripsubjLoop n s flag).1 ++ back := by
  induction n generalizing s flag with
  | zero => omega
  | succ n ih =>
    rcases stripped_stripRound s with ⟨hStripped, front, back, hS⟩
    rw [stripsubjLoop_succ]
    cases hInner : unwrapFwd (stripRound s) with
    | none => exact ⟨hStripped, hInner, front, back, hS⟩
    | some inner =>
      rcases length_unwrapFwd hInner with ⟨hLess, first, last, hRound⟩
      have hLength := congrArg List.length hS
      simp only [List.length_append] at hLength
      rcases @ih inner true (by omega) with ⟨hDone, hNone, more, after, hEq⟩
      refine ⟨hDone, hNone, front ++ (first ++ more), after ++ (last ++ back), ?_⟩
      simp only []
      generalize (stripsubjLoop n inner true).1 = result at hEq
      rw [hRound, hEq] at hS
      rw [hS]
      simp only [List.append_assoc]

/- The base subject of a folded text. -/
def baseOf (s : List Byte) : List Byte :=
  (stripsubjLoop (s.length + 1) s false).1

theorem baseOf_congr {s t : List Byte} (hRound : stripRound s = stripRound t) :
    baseOf s = baseOf t := by
  unfold baseOf
  rw [stripsubjLoop_succ, stripsubjLoop_succ, hRound]
  cases hInner : unwrapFwd (stripRound t) with
  | none => rfl
  | some inner =>
    have hShort := (length_unwrapFwd hInner).1
    rcases stripped_stripRound s with ⟨_, front, back, hS⟩
    rcases stripped_stripRound t with ⟨_, first, last, hT⟩
    have hLengthS := congrArg List.length hS
    have hLengthT := congrArg List.length hT
    rw [hRound] at hLengthS
    simp only [List.length_append] at hLengthS hLengthT
    simp only []
    rw [@stripsubjLoop_enough s.length t.length inner true (by omega) (by omega)]

/- The only white space is the blank, and never twice. -/
def Folded (s : List Byte) : Prop :=
  (∀ b ∈ s, isspace b = true → b = chr ' ') ∧ s.IsChain (fun a b => ¬ (isspace a ∧ isspace b))

theorem Folded.part {front s back : List Byte} (hFolded : Folded (front ++ s ++ back)) :
    Folded s := by
  rcases hFolded with ⟨hBlank, hChain⟩
  constructor
  · intro b hB
    exact hBlank b (by simp [hB])
  · exact hChain.left_of_append.right_of_append

theorem foldSpaces_cons (c : Byte) (rest : List Byte) : foldSpaces (c :: rest) =
      if isspace c then
        if rest.head?.any isspace then foldSpaces rest else chr ' ' :: foldSpaces rest
      else
        c :: foldSpaces rest := by
  cases rest with
  | nil => rfl
  | cons d rest => rfl

theorem foldSpaces_of_folded {s : List Byte} (hFolded : Folded s) : foldSpaces s = s := by
  induction s with
  | nil => rfl
  | cons c rest ih =>
    have hRest : foldSpaces rest = rest := by
      apply ih
      apply @Folded.part [c] rest []
      simpa using hFolded
    rcases hFolded with ⟨hBlank, hChain⟩
    rw [foldSpaces_cons, hRest]
    cases hSpace : isspace c with
    | true =>
      have hC := hBlank c List.mem_cons_self hSpace
      cases rest with
      | nil =>
        rw [hC]
        rfl
      | cons d rest =>
        have hOther := (List.isChain_cons_cons.mp hChain).1
        have hNone : isspace d = false := by
          rw [Bool.eq_false_iff]
          intro hD
          exact hOther ⟨hSpace, hD⟩
        simp only [List.head?_cons, Option.any_some, hNone, Bool.false_eq_true, if_false, if_true]
        rw [hC]
    | false => rw [if_neg Bool.false_ne_true]

/- White space comes first in both texts or in none. -/
theorem head?_foldSpaces (s : List Byte) :
    (foldSpaces s).head?.any isspace = s.head?.any isspace := by
  induction s with
  | nil => rfl
  | cons c rest ih =>
    rw [foldSpaces_cons]
    cases hSpace : isspace c with
    | true =>
      cases hRest : rest.head?.any isspace with
      | true =>
        rw [if_pos rfl, if_pos rfl, ih, hRest]
        exact hSpace.symm
      | false =>
        rw [if_pos rfl, if_neg Bool.false_ne_true]
        exact hSpace.symm
    | false => rfl

theorem folded_foldSpaces (s : List Byte) : Folded (foldSpaces s) := by
  induction s with
  | nil =>
    constructor
    · intro b hB
      cases hB
    · exact List.isChain_nil
  | cons c rest ih =>
    rcases ih with ⟨hBlank, hChain⟩
    have hHead := head?_foldSpaces rest
    rw [foldSpaces_cons]
    cases hSpace : isspace c with
    | true =>
      cases hRest : rest.head?.any isspace with
      | true =>
        rw [if_pos rfl, if_pos rfl]
        exact ⟨hBlank, hChain⟩
      | false =>
        rw [if_pos rfl, if_neg Bool.false_ne_true]
        constructor
        · intro b hB hB'
          rcases List.mem_cons.mp hB with hEq | hMem
          · exact hEq
          · exact hBlank b hMem hB'
        · rw [List.isChain_cons]
          refine ⟨?_, hChain⟩
          rintro d hD ⟨_, hOther⟩
          rw [hRest, Option.mem_def.mp hD] at hHead
          rw [Option.any_some, hOther] at hHead
          cases hHead
    | false =>
      rw [if_neg Bool.false_ne_true]
      constructor
      · intro b hB hB'
        rcases List.mem_cons.mp hB with hEq | hMem
        · rw [hEq, hSpace] at hB'
          cases hB'
        · exact hBlank b hMem hB'
      · rw [List.isChain_cons]
        refine ⟨?_, hChain⟩
        rintro d hD ⟨hOther, _⟩
        rw [hSpace] at hOther
        cases hOther

theorem map_foldSpaces {s : List Byte} (hUpper : s.map toupper = s) :
    (foldSpaces s).map toupper = foldSpaces s := by
  induction s with
  | nil => rfl
  | cons c rest ih =>
    rw [List.map_cons] at hUpper
    rcases List.cons_eq_cons.mp hUpper with ⟨hC, hUpper⟩
    have hRest := ih hUpper
    rw [foldSpaces_cons]
    split
    · split
      · exact hRest
      · rw [List.map_cons, hRest]
        rfl
    · rw [List.map_cons, hRest, hC]

variable {word : List Byte}

/- A word without blanks before the text. -/
theorem foldSpaces_word (hWord : ∀ b ∈ word, isspace b = false) (s : List Byte) :
    foldSpaces (word ++ s) = word ++ foldSpaces s := by
  induction word with
  | nil => rfl
  | cons c word ih =>
    have hC := hWord c List.mem_cons_self
    have hRest := ih fun b hB => hWord b (List.mem_cons_of_mem c hB)
    rw [List.cons_append, foldSpaces_cons, hC, hRest]
    rfl

/- A blank at the end of the text, and a trailer. -/
theorem foldSpaces_append (s : List Byte) (hWord : ∀ b ∈ word, isspace b = false) :
    ∃ gap, (gap = [] ∨ gap = [chr ' ']) ∧
      foldSpaces (s ++ chr ' ' :: word) = foldSpaces s ++ gap ++ word := by
  have hBlank : isspace (chr ' ') = true := rfl
  have hEnd : foldSpaces (chr ' ' :: word) = chr ' ' :: word := by
    have hHead : word.head?.any isspace = false := by
      cases word with
      | nil => rfl
      | cons b word => exact hWord b List.mem_cons_self
    have hFold := foldSpaces_word hWord []
    rw [List.append_nil] at hFold
    rw [foldSpaces_cons, hBlank, hHead, if_pos rfl, if_neg Bool.false_ne_true, hFold]
    exact congrArg _ (List.append_nil word)
  induction s with
  | nil => exact ⟨[chr ' '], Or.inr rfl, hEnd⟩
  | cons c rest ih =>
    rcases ih with ⟨gap, hGap, hRest⟩
    rw [List.cons_append, foldSpaces_cons, foldSpaces_cons]
    cases hSpace : isspace c with
    | false =>
      refine ⟨gap, hGap, ?_⟩
      rw [if_neg Bool.false_ne_true, if_neg Bool.false_ne_true, hRest]
      rfl
    | true =>
      rw [if_pos rfl, if_pos rfl]
      cases rest with
      | nil =>
        refine ⟨[], Or.inl rfl, ?_⟩
        rw [List.nil_append, hEnd]
        rfl
      | cons d rest =>
        refine ⟨gap, hGap, ?_⟩
        rw [hRest, List.cons_append, List.head?_cons, List.head?_cons]
        split
        · rfl
        · rfl

theorem foldSpaces_blank (s : List Byte) : ∃ rest, foldSpaces (chr ' ' :: s) = chr ' ' :: rest ∧
      (foldSpaces s = rest ∨ foldSpaces s = chr ' ' :: rest) := by
  have hBlank : isspace (chr ' ') = true := rfl
  rw [foldSpaces_cons, hBlank, if_pos rfl]
  cases hHead : s.head?.any isspace with
  | false => exact ⟨foldSpaces s, rfl, Or.inl rfl⟩
  | true =>
    rw [if_pos rfl]
    have hFold := head?_foldSpaces s
    rw [hHead] at hFold
    cases hText : foldSpaces s with
    | nil =>
      rw [hText] at hFold
      cases hFold
    | cons c rest =>
      have hC := (folded_foldSpaces s).1 c (by rw [hText]; exact List.mem_cons_self)
      rw [hText] at hFold
      rw [hC hFold]
      exact ⟨rest, rfl, Or.inr rfl⟩

------------
-- Replies and forwards
------------

/- What is left of the subject read backwards. -/
def trailed (p : List Byte) : List Byte :=
  (stripTrailerLoop p.length p false).1

theorem trailed_cons (c : Byte) (rest : List Byte) : trailed (c :: rest) =
      if isspace c then
        trailed rest
      else if casePrefix (bytes "(FWD)").reverse (c :: rest) then
        trailed ((c :: rest).drop 5)
      else
        c :: rest := by
  unfold trailed
  rw [List.length_cons]
  simp only [stripTrailerLoop]
  split
  · rfl
  · split
    · rw [stripTrailerLoop_flag _ _ true false]
      have hDrop : ((c :: rest).drop 5).length ≤ rest.length := by
        rw [List.length_drop, List.length_cons]
        omega
      rw [stripTrailerLoop_enough false hDrop (Nat.le_refl _)]
    · rfl

/- What is left of the subject without its leaders. -/
def led (p : List Byte) : List Byte :=
  (stripLeaderLoop p.length p false).1

theorem led_blank {c : Byte} (hSpace : isspace c = true) (rest : List Byte) :
    led (c :: rest) = led rest := by
  unfold led
  rw [List.length_cons, stripLeaderLoop_cons, hSpace, if_pos rfl]

theorem led_reply {p after : List Byte} (hSpace : p.head?.any isspace = false)
    (hReply : skipReply p = some after) : led p = led after := by
  unfold led
  have hLess := length_skipReply hReply
  cases p with
  | nil => cases hReply
  | cons c rest =>
    rw [List.head?_cons, Option.any_some] at hSpace
    rw [List.length_cons] at hLess ⊢
    rw [stripLeaderLoop_cons, hSpace, hReply, if_neg Bool.false_ne_true]
    simp only []
    rw [stripLeaderLoop_flag _ _ true false,
      stripLeaderLoop_enough false (Nat.le_of_lt_succ hLess) (Nat.le_refl _)]

theorem stripRound_eq (s : List Byte) : stripRound s = led (trailed s.reverse).reverse := by
  unfold stripRound stripLeader stripTrailer led trailed
  simp only [List.length_reverse]

/- A word cannot go past a byte that is not in it. -/
theorem isPrefixOf_append_other {d : Byte} (hOther : ∀ b ∈ word, b ≠ d) (p x : List Byte) :
    word.isPrefixOf (p ++ d :: x) = word.isPrefixOf p := by
  induction word generalizing p with
  | nil => rfl
  | cons b word ih =>
    have hRest := fun c hC => hOther c (List.mem_cons_of_mem b hC)
    cases p with
    | nil =>
      have hB := hOther b List.mem_cons_self
      rw [List.nil_append, List.isPrefixOf_cons_cons, beq_false_of_ne hB]
      rfl
    | cons c p =>
      rw [List.cons_append, List.isPrefixOf_cons_cons, List.isPrefixOf_cons_cons, ih hRest]

theorem casePrefix_fwd (p x : List Byte) : casePrefix (bytes "(FWD)").reverse (p ++ chr ' ' :: x) =
      casePrefix (bytes "(FWD)").reverse p := by
  unfold casePrefix
  rw [List.map_append, List.map_cons]
  apply isPrefixOf_append_other
  intro b hB
  have hAll : ((bytes "(FWD)").reverse.map tolower).all
      (fun b => b != tolower (chr ' ')) = true := by
    decide
  exact bne_iff_ne.mp (List.all_eq_true.mp hAll b hB)

/- A trailer does not go over a blank. -/
theorem trailed_blank (p x : List Byte) : trailed (p ++ chr ' ' :: x) =
      if trailed p = [] then trailed x else trailed p ++ chr ' ' :: x := by
  have hBlank : isspace (chr ' ') = true := rfl
  generalize hN : p.length = n
  induction n using Nat.strong_induction_on generalizing p with
  | h n ih =>
    cases p with
    | nil =>
      rw [List.nil_append, trailed_cons, hBlank, if_pos rfl]
      exact (if_pos rfl).symm
    | cons c rest =>
      rw [List.length_cons] at hN
      rw [List.cons_append, trailed_cons, trailed_cons, ← List.cons_append, casePrefix_fwd]
      cases hSpace : isspace c with
      | true =>
        rw [if_pos rfl, if_pos rfl]
        exact ih rest.length (by omega) rest rfl
      | false =>
        rw [if_neg Bool.false_ne_true, if_neg Bool.false_ne_true]
        cases hFwd : casePrefix (bytes "(FWD)").reverse (c :: rest) with
        | false =>
          rw [if_neg Bool.false_ne_true, if_neg Bool.false_ne_true,
            if_neg (List.cons_ne_nil c rest)]
        | true =>
          have hFive : 5 ≤ (c :: rest).length := by
            unfold casePrefix at hFwd
            rw [List.isPrefixOf_iff_prefix] at hFwd
            have hLength := hFwd.length_le
            rw [List.length_map, List.length_map] at hLength
            exact hLength
          rw [if_pos rfl, if_pos rfl, List.drop_append_of_le_length hFive]
          apply ih ((c :: rest).drop 5).length _ _ rfl
          rw [List.length_drop, List.length_cons]
          omega

/- A word that is a leader, and a blank, before a text. -/
theorem stripRound_word {word : List Byte} (hTrailed : trailed word.reverse = word.reverse)
    (hLed : ∀ x, led (word ++ x) = led x) (rest : List Byte) :
    stripRound (word ++ chr ' ' :: rest) = stripRound rest := by
  have hBlank : isspace (chr ' ') = true := rfl
  rw [stripRound_eq, stripRound_eq, List.reverse_append, List.reverse_cons, List.append_assoc,
    List.singleton_append, trailed_blank, hTrailed]
  split
  · rename_i hNone
    rw [hNone, List.reverse_reverse]
    have hEmpty := hLed []
    rw [List.append_nil] at hEmpty
    exact hEmpty
  · rw [List.reverse_append, List.reverse_cons, List.reverse_reverse, List.append_assoc,
      List.singleton_append, hLed, led_blank hBlank]

/- No byte of a word is a space, as evaluation finds. -/
theorem unspaced_of_all (hAll : (word.all fun b => !isspace b) = true) :
    ∀ b ∈ word, isspace b = false := by
  intro b hMem
  exact (Bool.not_eq_true' _).mp (List.all_eq_true.mp hAll b hMem)

theorem baseOf_word {word : List Byte} (hWord : ∀ b ∈ word, isspace b = false)
    (hTrailed : trailed word.reverse = word.reverse) (hLed : ∀ x, led (word ++ x) = led x)
    (s : List Byte) : baseOf (foldSpaces (word ++ chr ' ' :: s)) = baseOf (foldSpaces s) := by
  rcases foldSpaces_blank s with ⟨rest, hRest, hS⟩
  rw [foldSpaces_word hWord, hRest]
  apply baseOf_congr
  rw [stripRound_word hTrailed hLed]
  rcases hS with hSame | hMore
  · rw [hSame]
  · rw [hMore]
    exact (@stripRound_word [] rfl (fun _ => rfl) rest).symm

theorem baseOf_trailer (s : List Byte) :
    baseOf (foldSpaces (s ++ chr ' ' :: bytes "(FWD)")) = baseOf (foldSpaces s) := by
  have hWord : ∀ b ∈ bytes "(FWD)", isspace b = false := unspaced_of_all (by decide)
  rcases foldSpaces_append s hWord with ⟨gap, hGap, hFold⟩
  apply baseOf_congr
  have hTrailed : trailed (foldSpaces s ++ gap ++
      bytes "(FWD)").reverse = trailed (foldSpaces s).reverse := by
    have hFirst : ∀ x, trailed ((bytes "(FWD)").reverse ++ x) = trailed x := by
      intro x
      have hFwd : casePrefix (bytes "(FWD)").reverse ((bytes "(FWD)").reverse ++ x) = true := by
        unfold casePrefix
        rw [List.isPrefixOf_iff_prefix, List.map_append]
        exact List.prefix_append _ _
      have hCons : (bytes "(FWD)").reverse ++ x = chr ')' :: (bytes "(FWD").reverse ++ x := rfl
      rw [hCons, List.cons_append, trailed_cons, ← List.cons_append, ← hCons, hFwd]
      rfl
    rw [List.reverse_append, List.reverse_append, hFirst]
    rcases hGap with hNone | hBlank
    · rw [hNone]
      rfl
    · rw [hBlank, List.reverse_singleton, List.singleton_append, trailed_cons]
      rfl
  rw [hFold, stripRound_eq, stripRound_eq, hTrailed]

theorem skipblobs_other {c : Byte} (hOther : c ≠ chr '[') (rest : List Byte) :
    skipblobs (c :: rest) = c :: rest := by
  unfold skipblobs
  rw [List.length_cons]
  simp only [skipblobsLoop, skipblob_other hOther, if_true]

/- A word of a reply or a forward, and its colon. -/
theorem led_word {c : Byte} {word x : List Byte} (hOther : c ≠ chr '[')
    (hSpace : isspace c = false)
    (hRefwd : skipRefwd (c :: word ++ chr ':' :: x) =
      some (chr ':' :: x)) : led (c :: word ++ chr ':' :: x) = led x := by
  rw [List.cons_append] at hRefwd ⊢
  refine led_reply hSpace ?_
  unfold skipReply
  rw [skipblobs_other hOther, hRefwd]
  simp only []
  rw [skipblob_other (by decide)]
  exact if_pos rfl

theorem rfc822Coresubj_eq (s : List Byte) :
    (rfc822Coresubj s).1 = baseOf (foldSpaces (s.map toupper)) :=
  rfl

/-
  Every loop comes to its own end: what it leaves meets the
  condition it stops on, and more rounds change nothing.
-/
structure LoopsEnd : Prop where
  skipblobs : ∀ n p, p.length ≤ n → skipblobsLoop n p = skipblobs p ∧
      skipblob (skipblobs p) = skipblobs p
  trailers : ∀ n p flag, p.length ≤ n → stripTrailerLoop n p flag =
        stripTrailerLoop p.length p flag ∧
      NoTrailer (stripTrailerLoop p.length p flag).1
  leaders : ∀ n p flag, p.length ≤ n →
    stripLeaderLoop n p flag = stripLeader p flag ∧ NoLeader (stripLeader p flag).1
  rounds : ∀ n s flag, s.length < n → stripsubjLoop n s flag = stripsubjLoop (s.length + 1) s flag ∧
      unwrapFwd (stripsubjLoop (s.length + 1) s flag).1 = none

theorem skipblob_skipblobsLoop {n : Nat} (hN : p.length ≤ n) :
    skipblob (skipblobsLoop n p) = skipblobsLoop n p := by
  induction n generalizing p with
  | zero =>
    have hNil := List.eq_nil_of_length_eq_zero (Nat.le_zero.mp hN)
    subst hNil
    rfl
  | succ n ih =>
    simp only [skipblobsLoop]
    split
    · rename_i hSame
      rw [hSame, hSame]
    · rename_i hOther
      have hLess := (length_skipblob p).resolve_left hOther
      exact ih (by omega)

theorem loopsEnd : LoopsEnd where
  skipblobs _ _ hN :=
    ⟨skipblobsLoop_enough hN (Nat.le_refl _), skipblob_skipblobsLoop (Nat.le_refl _)⟩
  trailers _ _ flag hN :=
    ⟨stripTrailerLoop_enough flag hN (Nat.le_refl _),
      (stripTrailerLoop_spec flag (Nat.le_refl _)).1⟩
  leaders _ _ flag hN :=
    ⟨stripLeaderLoop_enough flag hN (Nat.le_refl _), (stripLeaderLoop_spec flag (Nat.le_refl _)).1⟩
  rounds _ _ flag hN :=
    ⟨stripsubjLoop_enough flag hN (Nat.lt_succ_self _),
      (stripped_stripsubjLoop flag (Nat.lt_succ_self _)).2.1⟩

/- A base subject is its own base subject. -/
theorem baseOf_baseOf (s : List Byte) : baseOf (baseOf s) = baseOf s := by
  rcases stripped_stripsubjLoop false (Nat.lt_succ_self s.length) with ⟨hStripped, hNone, _⟩
  have hRound : stripRound (baseOf s) = baseOf s := stripRound_stripped hStripped
  have hInner : unwrapFwd (baseOf s) = none := hNone
  generalize baseOf s = base at hRound hInner
  unfold baseOf
  rw [stripsubjLoop_succ, hRound, hInner]

theorem baseOf_part (s : List Byte) : ∃ front back, s = front ++ baseOf s ++ back :=
  (stripped_stripsubjLoop false (Nat.lt_succ_self s.length)).2.2

/- The base subject is folded and in upper case. -/
theorem foldSpaces_coresubj (s : List Byte) :
    foldSpaces ((rfc822Coresubj s).1.map toupper) = (rfc822Coresubj s).1 := by
  have hTwice : ∀ b, toupper (toupper b) = toupper b := by
    intro b
    unfold toupper
    grind
  have hUpper : (s.map toupper).map toupper = s.map toupper := by
    rw [List.map_map]
    exact List.map_congr_left fun b _ => hTwice b
  have hFold := map_foldSpaces hUpper
  rw [rfc822Coresubj_eq]
  rcases baseOf_part (foldSpaces (s.map toupper)) with ⟨front, back, hPart⟩
  have hFolded := folded_foldSpaces (s.map toupper)
  generalize baseOf (foldSpaces (s.map toupper)) = base at hPart ⊢
  rw [hPart] at hFold hFolded
  have hBase : base.map toupper = base := by
    rw [List.map_append, List.map_append] at hFold
    have hFront := List.append_inj_left' hFold (List.length_map _)
    exact List.append_inj_right hFront (List.length_map _)
  rw [hBase]
  exact foldSpaces_of_folded hFolded.part

/-
  `rfc822_coresubj` ends for every subject; the base subject
  of a base subject is itself, and a subject keeps its base
  subject when it is replied to or forwarded.
-/
theorem rfc822Coresubj_stable : LoopsEnd ∧ ∀ s : List Byte,
      (rfc822Coresubj (rfc822Coresubj s).1).1 = (rfc822Coresubj s).1 ∧
        (rfc822Coresubj (bytes "Re: " ++ s)).1 = (rfc822Coresubj s).1 ∧
        (rfc822Coresubj (bytes "Fwd: " ++ s)).1 = (rfc822Coresubj s).1 ∧
        (rfc822Coresubj (bytes "Fw: " ++ s)).1 = (rfc822Coresubj s).1 ∧
        (rfc822Coresubj (s ++ bytes " (fwd)")).1 = (rfc822Coresubj s).1 := by
  refine ⟨loopsEnd, fun s => ⟨?_, ?_, ?_, ?_, ?_⟩⟩
  · rw [rfc822Coresubj_eq (rfc822Coresubj s).1, foldSpaces_coresubj, rfc822Coresubj_eq]
    exact baseOf_baseOf _
  · exact @baseOf_word (bytes "RE:") (unspaced_of_all (by decide)) (by decide)
      (fun _ => @led_word (chr 'R') [chr 'E'] _ (by decide) rfl
        rfl) (s.map toupper)
  · exact @baseOf_word (bytes "FWD:") (unspaced_of_all (by decide)) (by decide)
      (fun _ => @led_word (chr 'F') [chr 'W', chr 'D'] _
        (by decide) rfl rfl) (s.map toupper)
  · exact @baseOf_word (bytes "FW:") (unspaced_of_all (by decide)) (by decide)
      (fun _ => @led_word (chr 'F') [chr 'W'] _ (by decide) rfl
        rfl) (s.map toupper)
  · rw [rfc822Coresubj_eq, List.map_append]
    exact baseOf_trailer (s.map toupper)

end Wmail.Rfc822
