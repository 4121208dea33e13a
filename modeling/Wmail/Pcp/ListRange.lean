import Wmail.Pcp.Gmtime
import Wmail.Pcp.Session

/-
  The time range of a `LIST` command, as the client writes it
  (pcpnet.c) and as the server reads it (pcpd.c).

  Key theorems include:
    * `listRange_rangeText`
    * `turn_listallevents_iff`
-/

namespace Wmail.Pcp

open Maildir (caseEqual)

/- A time, or nothing where there is no bound. -/
def boundText (t : Int) : List Byte :=
  if t ≠ 0 then pcpGmtimestr t else []

/- The range behind `FROM`. -/
def rangeText (listFrom listTo : Int) : List Byte :=
  boundText listFrom ++ chr '-' :: boundText listTo

/- The command that `listallevents` writes. -/
def listallevents (listFrom listTo : Int) : List Byte :=
  bytes "LIST" ++ ((if listFrom ≠ 0 ∨ listTo ≠ 0 then
      bytes " FROM " ++ rangeText listFrom listTo
    else
      []) ++ [nl])

/- A time up to the year 3000, or 0 for no bound. -/
def IsBound (t : Int) : Prop :=
  t = 0 ∨ 0 < t ∧ t < lastStamp

/-
  The server's clock: its zone is a number of minutes, less
  than a day, from UTC.
-/
def KeepsTime (srv : Server) : Prop :=
  ∃ offset fuel, offset % 60 = 0 ∧ -86400 < offset ∧ offset < 86400 ∧ 2 ≤ fuel ∧
      srv.gmtime = fun p => (pcpGmtimeS offset fuel p).getD 0

section Range

variable {srv : Server} {t listFrom listTo : Int}

theorem gmtime_pcpGmtimestr (hZone : KeepsTime srv) (hTime : 0 < t ∧ t < lastStamp) :
    srv.gmtime (pcpGmtimestr t) = t := by
  rcases hZone with ⟨offset, fuel, hMinutes, hLow, hHigh, hFuel, hClock⟩
  rw [hClock]
  dsimp only
  rw [(pcpGmtimeS_pcpGmtimestr hMinutes ⟨hLow, hHigh⟩).2 t hTime.1 hTime.2 fuel hFuel]
  rfl

/- The range has 15 or 29 characters, or a dash before 14. -/
theorem listRange_rangeText (hZone : KeepsTime srv) (hFrom : IsBound listFrom)
    (hTo : IsBound listTo) :
    listRange srv (rangeText listFrom listTo) =
      if listTo ≠ 0 then some (listFrom, listTo) else none := by
  have hBound : ∀ t, IsBound t → t ≠ 0 → (pcpGmtimestr t).length = 14 ∧
        (pcpGmtimestr t).head? ≠ some (chr '-') ∧
        srv.gmtime (pcpGmtimestr t) = t := by
    intro t hBound hSome
    have hTime := hBound.resolve_left hSome
    have hDigits := digits_of_stamp hTime
    refine ⟨hDigits.1, ?_, gmtime_pcpGmtimestr hZone hTime⟩
    intro hHead
    have hDash := hDigits.2 _ (List.mem_of_mem_head? hHead)
    cases hDash
  have hStop : ∀ start : Int, (if (decide (chr '-' ≠ chr '-') ||
          decide ((boundText listTo).length ≠ 14) ||
          decide (srv.gmtime (boundText listTo) = 0)) = true then
        (none : Option (Int × Int))
      else
        some (start, srv.gmtime (boundText listTo))) =
      if listTo ≠ 0 then some (start, listTo) else none := by
    intro start
    unfold boundText
    by_cases hNone : listTo = 0
    · simp [hNone]
    · have hText := hBound listTo hTo hNone
      simp [hNone, hText.1, hText.2.2]
  unfold listRange rangeText
  dsimp only
  by_cases hNone : listFrom = 0
  · have hStart : boundText listFrom = [] := by
      unfold boundText
      rw [if_neg (not_not.mpr hNone)]
    rw [hStart, hNone, List.nil_append, if_pos List.head?_cons]
    exact hStop 0
  · have hText := hBound listFrom hFrom hNone
    have hStart : boundText listFrom = pcpGmtimestr listFrom := if_pos hNone
    have hHead : ¬ (pcpGmtimestr listFrom ++
        chr '-' :: boundText listTo).head? = some (chr '-') := by
      rw [List.head?_append_of_ne_nil]
      · exact hText.2.1
      · intro hNil
        rw [hNil] at hText
        cases hText.1
    have hLong : ¬ (pcpGmtimestr listFrom ++ chr '-' :: boundText listTo).length < 14 := by
      rw [List.length_append, hText.1]
      omega
    rw [hStart, if_neg hHead, ← hText.1, List.take_left, List.drop_left, hText.2.2, hText.1,
      decide_eq_false hLong, decide_eq_false hNone]
    exact hStop listFrom

/- A character of a line that keeps its words apart. -/
def InLine (b : Byte) : Prop :=
  b ≠ nl ∧ b ≠ 0 ∧ (isspace b = true → b = 32)

theorem lineWords_line {line : List Byte} (hLine : ∀ b, b ∈ line → InLine b) :
    lineWords ((line ++ [nl]).takeWhile (· ≠ nl)) = wordsOf 32 line := by
  have hTake : (line ++ [nl]).takeWhile (· ≠ nl) = line := by
    rw [List.takeWhile_append_of_pos fun b hMem => decide_eq_true (hLine b hMem).1]
    simp
  have hZero : line.takeWhile (· ≠ 0) = line :=
    List.takeWhile_eq_self_iff.mpr fun b hMem => decide_eq_true (hLine b hMem).2.1
  have hBlank : (line.map fun b => if isspace b then 32 else b) = line := by
    conv_rhs => rw [← List.map_id line]
    apply List.map_congr_left
    intro b hMem
    split
    · rename_i hSpace
      exact ((hLine b hMem).2.2 hSpace).symm
    · rfl
  unfold lineWords
  rw [hTake, hZero, hBlank]

/- The range is one word of the line. -/
theorem inLine_rangeText (hFrom : IsBound listFrom) (hTo : IsBound listTo) {b : Byte}
    (hMem : b ∈ rangeText listFrom listTo) : InLine b ∧ b ≠ 32 := by
  have hPlain : ∀ b, (isdigit b || b == chr '-') = true →
      (b ≠ nl ∧ b ≠ 0 ∧ (isspace b = true → b = 32)) ∧ b ≠ 32 := by
    apply byte_forall
    decide +kernel
  have hDigit : ∀ t, IsBound t → b ∈ boundText t → isdigit b = true := by
    intro t hBound hIn
    unfold boundText at hIn
    split at hIn
    · rename_i hSome
      exact (digits_of_stamp (hBound.resolve_left hSome)).2 b hIn
    · cases hIn
  apply hPlain
  rw [Bool.or_eq_true, beq_iff_eq]
  rcases List.mem_append.mp hMem with hStart | hEnd
  · exact Or.inl (hDigit _ hFrom hStart)
  · rcases List.mem_cons.mp hEnd with hDash | hStop
    · exact Or.inr hDash
    · exact Or.inl (hDigit _ hTo hStop)

/- The words of the line that the server reads. -/
theorem lineWords_listallevents (hFrom : IsBound listFrom) (hTo : IsBound listTo) :
    lineWords ((listallevents listFrom listTo).takeWhile (· ≠ nl)) = bytes "LIST" ::
        if listFrom ≠ 0 ∨ listTo ≠ 0 then [bytes "FROM", rangeText listFrom listTo] else [] := by
  have hLetters : (bytes "LIST" ++ bytes " FROM ").all (fun b => decide (b ≠ nl ∧ b ≠ 0 ∧
        (isspace b = true → b = 32))) = true := by
    decide
  have hFront : ∀ b, b ∈ bytes "LIST" ++ bytes " FROM " →
      b ≠ nl ∧ b ≠ 0 ∧ (isspace b = true → b = 32) := by
    intro b hMem
    exact of_decide_eq_true (List.all_eq_true.mp hLetters b hMem)
  unfold listallevents
  rw [← List.append_assoc]
  by_cases hSome : listFrom ≠ 0 ∨ listTo ≠ 0
  · have hRange := @inLine_rangeText listFrom listTo hFrom hTo
    have hNe : rangeText listFrom listTo ≠ [] :=
      List.append_ne_nil_of_right_ne_nil _ (List.cons_ne_nil _ _)
    have hWord : (32 : Byte) ∉ rangeText listFrom listTo := fun hMem => (hRange hMem).2 rfl
    have hText : bytes "LIST" ++ bytes " FROM " =
        bytes "LIST" ++ 32 :: (bytes "FROM" ++ [32]) := rfl
    rw [if_pos hSome, if_pos hSome, ← List.append_assoc, lineWords_line, hText]
    · rw [List.append_assoc, List.cons_append, wordsOf_append_sep, List.append_assoc,
        List.singleton_append, wordsOf_append_sep, wordsOf_word hWord hNe]
      rfl
    · intro b hMem
      rcases List.mem_append.mp hMem with hIn | hIn
      · exact hFront b hIn
      · exact (hRange hIn).1
  · rw [if_neg hSome, if_neg hSome, List.append_nil, lineWords_line]
    · rfl
    · intro b hMem
      exact hFront b (List.mem_append_left _ hMem)

theorem doline_list (srv : Server) {flags : UInt32} (hAcl : checkAcl flags pcpAclList = false)
    (ans : Answers) (s : Session) (args : List (List Byte)) :
    doline srv ans flags (bytes "LIST" :: args) s =
      match list srv args (0, 0) with
      | none => idle s
      | some range => ([⟨.own, .listAll range.1 range.2⟩], .goesOn s) := by
  have hQuit : caseEqual (bytes "LIST") (bytes "QUIT") = false := rfl
  have hNoop : caseEqual (bytes "LIST") (bytes "NOOP") = false := rfl
  have hCap : caseEqual (bytes "LIST") (bytes "CAPABILITY") = false := rfl
  have hName : caseEqual (bytes "LIST") (bytes "LIST") = true := rfl
  cases hRange : list srv args (0, 0) with
  | none =>
    simp only [doline, hQuit, hNoop, hCap, hName, hAcl, hRange,
      Bool.false_eq_true, if_false, if_true]
  | some range =>
    simp only [doline, hQuit, hNoop, hCap, hName, hAcl, hRange,
      Bool.false_eq_true, if_false, if_true]

/-
  The server takes the range as it was meant, unless it has a
  start and no end: behind the dash it wants a time.
-/
theorem turn_listallevents_iff (hZone : KeepsTime srv) (hFrom : IsBound listFrom)
    (hTo : IsBound listTo) {flags : UInt32} (hAcl : checkAcl flags pcpAclList = false)
    (ans : Answers) (s : Session) :
    turn srv flags s (.line ((listallevents listFrom listTo).takeWhile (· ≠ nl)) ans) =
      ([⟨.own, .listAll listFrom listTo⟩], some s) ↔
    listFrom = 0 ∨ listTo ≠ 0 := by
  have hLine := lineWords_listallevents hFrom hTo
  have hList := doline_list srv hAcl ans s
  have hWord : caseEqual (bytes "FROM") (bytes "FROM") = true := rfl
  unfold turn
  dsimp only
  rw [hLine, hList]
  by_cases hSome : listFrom ≠ 0 ∨ listTo ≠ 0
  · have hRange := listRange_rangeText hZone hFrom hTo
    rw [if_pos hSome]
    simp only [list, hWord, hRange, if_true, ne_eq, not_true_eq_false, if_false]
    by_cases hStop : listTo = 0
    · have hStart := hSome.resolve_right (not_not.mpr hStop)
      simp [hStop, hStart, idle]
    · simp [hStop]
  · rw [not_or, not_not, not_not] at hSome
    rw [if_neg (by simp [hSome.1, hSome.2]), hSome.1, hSome.2]
    simp [list]

end Range

/- A server whose zone is UTC. -/
def utcServer : Server where
  proxyUserid := none
  hasAcl := false
  acl := none
  publicAcl := none
  myhostname := none
  gmtime := fun p => (pcpGmtimeS 0 2 p).getD 0

theorem keepsTime_utcServer : KeepsTime utcServer :=
  ⟨0, 2, rfl, by decide, by decide, Nat.le_refl 2, rfl⟩

theorem turn_listallevents_day : turn utcServer pcpAclList Session.start
        (.line ((listallevents 951782400 951868800).takeWhile
          (· ≠ nl)) Answers.accepting) =
      ([⟨.own, .listAll 951782400 951868800⟩], some Session.start) :=
  (turn_listallevents_iff keepsTime_utcServer
    (Or.inr ⟨by decide, by decide⟩)
    (Or.inr ⟨by decide, by decide⟩) (by decide)
    Answers.accepting Session.start).mpr (Or.inr (by decide))

/- A range that has no end is a syntax error to the server. -/
theorem not_turn_listallevents : ¬ ∀ srv : Server, KeepsTime srv →
      ∀ listFrom listTo : Int, IsBound listFrom → IsBound listTo → ∀ s : Session,
          turn srv pcpAclList s (.line ((listallevents listFrom listTo).takeWhile
                (· ≠ nl)) Answers.accepting) =
            ([⟨.own, .listAll listFrom listTo⟩], some s) := by
  intro hAll
  have hDone := hAll utcServer keepsTime_utcServer 951782400 0
    (Or.inr ⟨by decide, by decide⟩) (Or.inl rfl) Session.start
  have hNone : (turn utcServer pcpAclList Session.start
      (.line ((listallevents 951782400 0).takeWhile (· ≠ nl))
        Answers.accepting)).1 = [] := by
    decide +kernel
  rw [hDone] at hNone
  cases hNone

end Wmail.Pcp
