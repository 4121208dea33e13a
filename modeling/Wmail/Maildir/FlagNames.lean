import Wmail.Core.Runs
import Wmail.Maildir.Msgmove

/-
  The flags in the names of messages (sqwebmail/maildir.c).

  Here names are paths.  A byte behind the NUL of a name is a
  parameter where it is read.

  Key theorems include:
    * `room_of_insertFlag`
    * `dropFlag_append`
-/

namespace Wmail.Maildir

/- What a path has up to its last slash, and behind it. -/
def dirPart (filename : List Byte) : List Byte :=
  (filename.reverse.dropWhile (· ≠ chr '/')).reverse

def basePart (filename : List Byte) : List Byte :=
  (filename.reverse.takeWhile (· ≠ chr '/')).reverse

/- A byte of what follows the colon, or one behind its end. -/
def infoAt (past : Byte) (info : List Byte) (k : Nat) : Byte :=
  (info ++ [0, past]).getD k 0

/-
  The part of `maildir_addflagfilename` that looks for the
  colon: what stands in front of it, and behind it.  Where
  both characters are wrong, everything from the last slash on
  is overwritten.
-/
def colonFor (past : Byte) (filename : List Byte) : List Byte × List Byte :=
  match cutAt (chr ':') (basePart filename) with
  | none => (filename, bytes "2,")
  | some (name, info) =>
    if infoAt past info 0 ≠ chr '2' ∧ infoAt past info 1 ≠ chr ',' then
      ((dirPart filename).dropLast, bytes "2,")
    else
      (dirPart filename ++ name, info)

/-
  `maildir_addflagfilename`.  With nothing behind the colon
  the flag is stored behind the end of the name.
-/
def maildirAddflagfilename (past : Byte) (filename : List Byte) (flag : Byte) :
    Option (List Byte) :=
  let (front, info) := colonFor past filename
  if (chr ':' :: info).contains flag then
    none
  else
    match info with
    | [] => some (front ++ [chr ':'])
    | c :: rest => some (front ++ chr ':' :: c :: insertFlag flag rest)

/-
  `maildir_remflagname`.  What is changed behind the end of a
  name leaves the name as it is.
-/
def maildirRemflagname (filename : List Byte) (flag : Byte) : List Byte :=
  match cutAt (chr ':') (basePart filename) with
  | none => filename
  | some (name, info) =>
    if info[0]? ≠ some (chr '2') ∧ info[1]? ≠ some (chr ',') then
      filename
    else
      dirPart filename ++ name ++ chr ':' :: (info.take 2 ++ dropFlag flag (info.drop 2))

def MSGTYPE_NEW : Byte := chr 'N'
def MSGTYPE_DELETED : Byte := chr 'D'
def MSGTYPE_REPLIED : Byte := chr 'R'

/- The letters that `maildirfile_type` goes through. -/
def flagsOf (p : List Byte) : List Byte :=
  match cutAt (chr ':') (basePart p) with
  | none => []
  | some (_, info) =>
    if bytes "2," <+: info then (info.drop 2).takeWhile isalpha else []

/- `maildirfile_type`. -/
def maildirfileType (p : List Byte) : Byte :=
  let seen := flagsOf p
  if seen.contains (chr 'T') then
    MSGTYPE_DELETED
  else if seen.contains (chr 'S') then
    if seen.contains (chr 'R') then MSGTYPE_REPLIED else 0
  else
    MSGTYPE_NEW

/- The directory and the base name, up to the colon. -/
def stemOf (filename : List Byte) : List Byte :=
  dirPart filename ++ (basePart filename).takeWhile (· ≠ chr ':')

/- A directory, as `dirPart` gives it. -/
def IsDir (dir : List Byte) : Prop :=
  dir = [] ∨ ∃ up, dir = up ++ [chr '/']

theorem parts_append {dir base : List Byte} (hDir : IsDir dir) (hBase : chr '/' ∉ base) :
    dirPart (dir ++ base) = dir ∧ basePart (dir ++ base) = base := by
  have hBack : chr '/' ∉ base.reverse := by
    rw [List.mem_reverse]
    exact hBase
  unfold dirPart basePart
  rw [List.reverse_append]
  rcases hDir with rfl | ⟨up, rfl⟩
  · rw [List.reverse_nil, List.append_nil, takeWhile_unclosed hBack, List.reverse_reverse]
    refine ⟨?_, rfl⟩
    rw [List.dropWhile_eq_nil_iff.mpr (not_separator hBack)]
    rfl
  · rw [List.reverse_append, List.reverse_singleton, List.singleton_append, takeWhile_quoted hBack,
      dropWhile_quoted hBack, List.reverse_reverse, List.reverse_cons, List.reverse_reverse]
    exact ⟨rfl, rfl⟩

theorem isDir_dirPart (filename : List Byte) :
    IsDir (dirPart filename) ∧ chr '/' ∉ basePart filename ∧
      dirPart filename ++ basePart filename = filename := by
  unfold dirPart basePart IsDir
  refine ⟨?_, ?_, ?_⟩
  · rcases dropWhile_separator (chr '/') filename.reverse with hNone | ⟨rest, hSome⟩
    · rw [hNone]
      exact Or.inl rfl
    · rw [hSome]
      exact Or.inr ⟨rest.reverse, List.reverse_cons⟩
  · rw [List.mem_reverse]
    exact not_mem_takeWhile_separator (chr '/') _
  · rw [← List.reverse_append, List.takeWhile_append_dropWhile, List.reverse_reverse]

/- `*p < flag`, where a `char` is signed. -/
def below (flag c : Byte) : Bool :=
  128 ≤ c || c < flag

theorem insertFlag_append {flag : Byte} {front : List Byte}
    (hFront : ∀ c, c ∈ front → below flag c = true) (rest : List Byte) :
    insertFlag flag (front ++ rest) = front ++ insertFlag flag rest := by
  induction front with
  | nil => rfl
  | cons c front ih =>
    have hHere := hFront c List.mem_cons_self
    unfold below at hHere
    rw [Bool.or_eq_true, decide_eq_true_iff, decide_eq_true_iff] at hHere
    rw [List.cons_append, insertFlag, if_pos hHere,
      ih (fun d hMem => hFront d (List.mem_cons_of_mem c hMem))]
    rfl

/- A character that comes once is moved on. -/
theorem insertFlag_once {flag c : Byte} {rest : List Byte} (hHere : below flag c = false)
    (hOnce : c ∉ rest) : insertFlag flag (c :: rest) = flag :: c :: rest := by
  unfold below at hHere
  rw [Bool.or_eq_false_iff, decide_eq_false_iff_not, decide_eq_false_iff_not, ← not_or] at hHere
  have hBack : c ∉ rest.reverse := by
    rw [List.mem_reverse]
    exact hOnce
  unfold insertFlag
  rw [if_neg hHere, List.reverse_cons, takeWhile_quoted hBack, List.reverse_reverse]
  simp only [Nat.sub_self, List.take_zero, List.nil_append]

/- Otherwise what is moved begins with the last one. -/
theorem insertFlag_again {flag c : Byte} {front rest : List Byte}
    (hHere : below flag c = false) (hLast : c ∉ rest) :
    insertFlag flag (c :: (front ++ c :: rest)) = flag :: (front ++ c :: c :: rest) := by
  unfold below at hHere
  rw [Bool.or_eq_false_iff, decide_eq_false_iff_not, decide_eq_false_iff_not, ← not_or] at hHere
  have hBack : c ∉ rest.reverse := by
    rw [List.mem_reverse]
    exact hLast
  have hText : (c :: (front ++ c :: rest)).reverse =
      rest.reverse ++ c :: (front.reverse ++ [c]) := by
    simp only [List.reverse_cons, List.reverse_append,
      List.append_assoc, List.cons_append, List.nil_append]
  unfold insertFlag
  rw [if_neg hHere, hText, takeWhile_quoted hBack, List.reverse_reverse]
  have hCount : (front ++ c :: rest).length - rest.length = (front ++ [c]).length := by
    simp only [List.length_append, List.length_cons, List.length_nil]
    omega
  have hTake : (front ++ c :: rest).take ((front ++ c :: rest).length - rest.length) =
        front ++ [c] := by
    have hSplit := List.append_cons front c rest
    rw [hCount, hSplit]
    exact List.take_left
  simp only [hTake, List.append_assoc, List.singleton_append]

/- The last place of an element. -/
theorem exists_last {c : Byte} {l : List Byte} (hMem : c ∈ l) :
    ∃ front rest, l = front ++ c :: rest ∧ c ∉ rest := by
  rcases List.eq_append_cons_of_mem (List.mem_reverse.mpr hMem) with ⟨back, front, hText, hBack⟩
  refine ⟨front.reverse, back.reverse, ?_, ?_⟩
  · rw [← List.reverse_reverse l, hText, List.reverse_append, List.reverse_cons, List.append_assoc,
      List.singleton_append]
  · rw [List.mem_reverse]
    exact hBack

/-
  There is room for a flag behind the flags below it: the
  place is among the letters, and no later byte is like the
  one there, or it is behind them.
-/
def Room (flags behind : List Byte) (flag : Byte) : Prop :=
  flag ∉ behind ∧
    match flags.dropWhile (below flag), behind with
    | c :: _, _ => c ∉ behind
    | [], [] => True
    | [], d :: rest =>
      below flag d = false ∧ (d ∈ rest → ∀ e, rest.head? = some e → isalpha e = false)

/- A flag that is put in its place among the others. -/
def withFlag (flag : Byte) (flags : List Byte) : List Byte :=
  flags.takeWhile (below flag) ++ flag :: flags.dropWhile (below flag)

/- The flags, and what is behind them. -/
structure Flags (flags behind : List Byte) : Prop where
  letters : ∀ c, c ∈ flags → isalpha c = true
  stop : ∀ c, behind.head? = some c → isalpha c = false

theorem Flags.takeWhile {flags behind : List Byte} (hFlags : Flags flags behind) :
    (flags ++ behind).takeWhile isalpha = flags :=
  takeWhile_run hFlags.letters hFlags.stop

section Insert

variable {flag : Byte} {flags behind : List Byte}

theorem not_below_iff {c : Byte} (hLetter : isalpha c = true) :
    below flag c = false ↔ flag ≤ c := by
  have hSmall : ¬ 128 ≤ c := by
    unfold isalpha isupper at hLetter
    simp only [Bool.or_eq_true, Bool.and_eq_true, decide_eq_true_iff] at hLetter
    intro hLarge
    rcases hLetter with ⟨_, hLess⟩ | ⟨_, hLess⟩
    · exact absurd (UInt8.le_trans hLarge hLess) (by decide)
    · exact absurd (UInt8.le_trans hLarge hLess) (by decide)
  unfold below
  rw [decide_eq_false hSmall, Bool.false_or, decide_eq_false_iff_not, UInt8.not_lt]

/- What is in order from a place on is not below it. -/
theorem ge_of_dropWhile {c : Byte} {rest : List Byte} (hFlags : Flags flags behind)
    (hOrder : flags.Pairwise (· ≤ ·)) (hDrop : flags.dropWhile (below flag) = c :: rest) :
    flag ≤ c ∧ ∀ d, d ∈ rest → c ≤ d := by
  have hSuffix : c :: rest <:+ flags := hDrop ▸ List.dropWhile_suffix _
  have hStop : below flag c = false := by
    apply head_dropWhile_stop c
    rw [hDrop]
    rfl
  have hLetter := hFlags.letters c (hSuffix.subset List.mem_cons_self)
  refine ⟨(not_below_iff hLetter).mp hStop, ?_⟩
  exact (List.pairwise_cons.mp (hOrder.sublist hSuffix.sublist)).1

/- A run of equal elements may begin or end with one more. -/
theorem append_cons_of_same {c : Byte} {run : List Byte} (hRun : ∀ d, d ∈ run → d = c)
    (rest : List Byte) : run ++ c :: rest = c :: (run ++ rest) := by
  induction run with
  | nil => rfl
  | cons d run ih =>
    rw [hRun d List.mem_cons_self, List.cons_append,
      ih fun e hMem => hRun e (List.mem_cons_of_mem d hMem)]
    rfl

/- The letter in a flag's place, and those like it, move on. -/
theorem insertFlag_letter {c : Byte} {rest : List Byte} (hOrder : flags.Pairwise (· ≤ ·))
    (hDrop : flags.dropWhile (below flag) = c :: rest) (hBehind : c ∉ behind) :
    insertFlag flag (c :: (rest ++ behind)) = flag :: c :: (rest ++ behind) := by
  have hHere : below flag c = false := by
    apply head_dropWhile_stop c
    rw [hDrop]
    rfl
  by_cases hMem : c ∈ rest
  · rcases exists_last hMem with ⟨run, more, rfl, hMore⟩
    have hOrdered : (c :: (run ++ c :: more)).Pairwise (· ≤ ·) := by
      rw [← hDrop]
      exact hOrder.sublist (List.dropWhile_suffix _).sublist
    rcases List.pairwise_cons.mp hOrdered with ⟨hLeast, hRest⟩
    have hRun : ∀ d, d ∈ run → d = c := by
      intro d hIn
      have hBefore := (List.pairwise_append.mp hRest).2.2 d hIn c List.mem_cons_self
      exact UInt8.le_antisymm hBefore (hLeast d (List.mem_append_left _ hIn))
    have hLast : c ∉ more ++ behind := by
      rw [List.mem_append, not_or]
      exact ⟨hMore, hBehind⟩
    rw [List.append_assoc, List.cons_append, insertFlag_again hHere hLast, append_cons_of_same hRun]
  · apply insertFlag_once hHere
    rw [List.mem_append, not_or]
    exact ⟨hMem, hBehind⟩

/- A flag behind all letters stays there. -/
theorem insertFlag_behind (hFlags : Flags flags behind)
    (hDrop : flags.dropWhile (below flag) = []) (hRoom : Room flags behind flag) :
    ∃ more, insertFlag flag behind = flag :: more ∧
      ∀ c, more.head? = some c → isalpha c = false := by
  have hPlace := hRoom.2
  rw [hDrop] at hPlace
  cases behind with
  | nil => exact ⟨[], rfl, nofun⟩
  | cons d rest =>
    rcases hPlace with ⟨hHere, hLike⟩
    by_cases hMem : d ∈ rest
    · have hNext := hLike hMem
      rcases exists_last hMem with ⟨front, more, rfl, hMore⟩
      refine ⟨_, insertFlag_again hHere hMore, ?_⟩
      intro c hHead
      cases front with
      | nil =>
        cases hHead
        exact hFlags.stop _ rfl
      | cons e front =>
        cases hHead
        exact hNext _ rfl
    · exact ⟨_, insertFlag_once hHere hMem, hFlags.stop⟩

/- With room, a flag is put among the letters in its place. -/
theorem insertFlag_room (hFlags : Flags flags behind) (hFlag : isalpha flag = true)
    (hOrder : flags.Pairwise (· ≤ ·)) (hRoom : Room flags behind flag) :
    (insertFlag flag (flags ++ behind)).takeWhile isalpha = withFlag flag flags := by
  have hSplit := List.takeWhile_append_dropWhile (p := below flag) (l := flags)
  have hFront : ∀ c, c ∈ flags.takeWhile (below flag) → below flag c = true := forall_takeWhile _ _
  have hLetters : ∀ c, c ∈ withFlag flag flags → isalpha c = true := by
    intro c hMem
    unfold withFlag at hMem
    rcases List.mem_append.mp hMem with hBefore | hMem
    · exact hFlags.letters c ((List.takeWhile_prefix _).subset hBefore)
    · rcases List.mem_cons.mp hMem with rfl | hAfter
      · exact hFlag
      · exact hFlags.letters c ((List.dropWhile_suffix _).subset hAfter)
  have hAll : ∃ more, insertFlag flag (flags ++ behind) = withFlag flag flags ++ more ∧
        ∀ c, more.head? = some c → isalpha c = false := by
    unfold withFlag
    nth_rewrite 1 [← hSplit]
    rw [List.append_assoc, insertFlag_append hFront]
    cases hDrop : flags.dropWhile (below flag) with
    | cons c rest =>
      have hPlace := hRoom.2
      rw [hDrop] at hPlace
      refine ⟨behind, ?_, hFlags.stop⟩
      rw [List.cons_append, insertFlag_letter hOrder hDrop hPlace, List.append_assoc]
      rfl
    | nil =>
      rcases insertFlag_behind hFlags hDrop hRoom with ⟨more, hInsert, hStop⟩
      refine ⟨more, ?_, hStop⟩
      rw [List.nil_append, hInsert, List.append_assoc]
      rfl
  rcases hAll with ⟨more, hInsert, hStop⟩
  rw [hInsert]
  exact takeWhile_run hLetters hStop

theorem filter_other {c : Byte} (hOther : c ≠ flag) (rest : List Byte) :
    (c :: rest).filter (· ≠ flag) = c :: rest.filter (· ≠ flag) :=
  List.filter_cons_of_pos (decide_eq_true hOther)

/- Where a flag is put among the letters, there is room. -/
theorem room_of_insertFlag (hFlags : Flags flags behind) (hNew : flag ∉ flags)
    (hBehind : flag ∉ behind)
    (hIn : flag ∈ (insertFlag flag (flags ++ behind)).takeWhile isalpha)
    (hOthers :
      ((insertFlag flag (flags ++ behind)).takeWhile isalpha).filter (· ≠ flag) =
        flags.filter (· ≠ flag)) :
    Room flags behind flag := by
  have hSplit := List.takeWhile_append_dropWhile (p := below flag) (l := flags)
  have hFront : ∀ c, c ∈ flags.takeWhile (below flag) → below flag c = true := forall_takeWhile _ _
  have hBefore : ∀ c, c ∈ flags.takeWhile (below flag) → isalpha c = true := fun c hMem =>
    hFlags.letters c ((List.takeWhile_prefix _).subset hMem)
  -- the other flags are those behind the place
  have hCompare : ∀ letters : List Byte, (insertFlag flag (flags ++ behind)).takeWhile isalpha =
          flags.takeWhile (below flag) ++ flag :: letters →
        letters.filter (· ≠ flag) = (flags.dropWhile (below flag)).filter (· ≠ flag) := by
    intro letters hLetters
    rw [hLetters] at hOthers
    nth_rewrite 2 [← hSplit] at hOthers
    rw [List.filter_append, List.filter_append, List.filter_cons_of_neg (by simp),
      List.append_cancel_left_eq] at hOthers
    exact hOthers
  have hInsert : insertFlag flag (flags ++ behind) = flags.takeWhile (below flag) ++ insertFlag flag
        (flags.dropWhile (below flag) ++ behind) := by
    nth_rewrite 1 [← hSplit]
    rw [List.append_assoc, insertFlag_append hFront]
  have hFlag : isalpha flag = true := forall_takeWhile _ _ _ hIn
  refine ⟨hBehind, ?_⟩
  cases hDrop : flags.dropWhile (below flag) with
  | cons c rest =>
    intro hMem
    have hHere : below flag c = false := by
      apply head_dropWhile_stop c
      rw [hDrop]
      rfl
    have hSuffix : c :: rest <:+ flags := hDrop ▸ List.dropWhile_suffix _
    rcases exists_last hMem with ⟨front, more, rfl, hMore⟩
    have hLetters : (insertFlag flag (flags ++ (front ++ c :: more))).takeWhile isalpha =
          flags.takeWhile (below flag) ++ flag :: rest := by
      rw [hInsert, hDrop, List.cons_append, ← List.append_assoc, insertFlag_again hHere hMore,
        List.takeWhile_append_of_pos hBefore, List.takeWhile_cons_of_pos hFlag, List.append_assoc]
      congr 2
      apply takeWhile_run
      · intro d hIn
        exact hFlags.letters d (hSuffix.subset (List.mem_cons_of_mem c hIn))
      · intro d hHead
        apply hFlags.stop d
        cases front with
        | nil => exact hHead
        | cons e front => exact hHead
    have hSame := congrArg List.length (hCompare rest hLetters)
    have hOther : c ≠ flag := by
      rintro rfl
      exact hNew (hSuffix.subset List.mem_cons_self)
    rw [hDrop, filter_other hOther, List.length_cons] at hSame
    omega
  | nil =>
    rw [hDrop, List.nil_append] at hInsert
    cases behind with
    | nil => trivial
    | cons d rest =>
      have hStop := hFlags.stop d rfl
      have hHere : below flag d = false := by
        cases hBelow : below flag d with
        | false => rfl
        | true =>
          have hOne : ∀ e, e ∈ [d] → below flag e = true := by
            intro e hMem
            rw [List.mem_singleton.mp hMem]
            exact hBelow
          have hPass := insertFlag_append hOne rest
          rw [hInsert, ← List.singleton_append, hPass, List.takeWhile_append_of_pos hBefore,
            List.singleton_append, List.takeWhile_cons_of_neg (Bool.eq_false_iff.mp hStop),
            List.append_nil] at hIn
          exact absurd ((List.takeWhile_prefix _).subset hIn) hNew
      refine ⟨hHere, ?_⟩
      intro hMem e hHead
      rcases exists_last hMem with ⟨front, more, rfl, hMore⟩
      cases front with
      | nil =>
        cases hHead
        exact hStop
      | cons first front =>
        cases hHead
        cases hLetter : isalpha e with
        | false => rfl
        | true =>
          have hLetters : (insertFlag flag (flags ++
              d :: (e :: front ++ d :: more))).takeWhile isalpha =
              flags.takeWhile (below flag) ++ flag :: e :: (front ++ d :: d :: more).takeWhile
                  isalpha := by
            rw [hInsert, insertFlag_again hHere hMore, List.takeWhile_append_of_pos hBefore,
              List.takeWhile_cons_of_pos hFlag, List.cons_append,
              List.takeWhile_cons_of_pos hLetter]
          have hOther : e ≠ flag := by
            rintro rfl
            exact hBehind (List.mem_cons_of_mem _ List.mem_cons_self)
          have hSame := hCompare _ hLetters
          rw [hDrop, filter_other hOther] at hSame
          cases hSame

/- A flag is dropped where it first stands. -/
theorem dropFlag_append (hFlags : Flags flags behind) :
    dropFlag flag (flags ++ behind) = flags.erase flag ++ behind := by
  rcases hFlags with ⟨hLetters, hStop⟩
  induction flags with
  | nil =>
    cases behind with
    | nil => rfl
    | cons d rest =>
      rw [List.nil_append, dropFlag, hStop d rfl]
      rfl
  | cons c flags ih =>
    rw [List.cons_append, dropFlag, hLetters c List.mem_cons_self, List.erase_cons]
    by_cases hHere : c = flag
    · subst hHere
      simp
    · have hRest := ih fun d hMem => hLetters d (List.mem_cons_of_mem c hMem)
      simp [hHere, hRest]

end Insert

end Wmail.Maildir
