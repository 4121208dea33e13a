import Wmail.Maildir.FlagNames

/-
  What the edits of flags leave of a name.

  Key theorems include:
    * `flagEdits_erased`
    * `flagEdits_iff`
-/

namespace Wmail.Maildir

/-
  A name after an edit: it has the flag or not, and the rest
  is as it was, with the flags in order.
-/
structure Edited (flag : Byte) (present : Prop) (old new : List Byte) : Prop where
  stem : stemOf new = stemOf old
  hasFlag : flag ∈ flagsOf new ↔ present
  others : (flagsOf new).filter (· ≠ flag) = (flagsOf old).filter (· ≠ flag)
  order : (flagsOf new).Pairwise (· ≤ ·)

/- Names of the same message, with the same flags. -/
structure Equivalent (old new : List Byte) : Prop where
  stem : stemOf new = stemOf old
  flags : flagsOf new = flagsOf old
  type : maildirfileType new = maildirfileType old

theorem Equivalent.of_flags {old new : List Byte} (hStem : stemOf new = stemOf old)
    (hFlags : flagsOf new = flagsOf old) : Equivalent old new := by
  refine ⟨hStem, hFlags, ?_⟩
  unfold maildirfileType
  rw [hFlags]

/-
  A flag is added, and removed, and removed after it has been
  added.  Without a result the name stays.
-/
structure FlagEdits (past : Byte) (name : List Byte) (flag : Byte) : Prop where
  added : Edited flag True name ((maildirAddflagfilename past name flag).getD name)
  removed : Edited flag False name (maildirRemflagname name flag)
  undone : flag ∉ flagsOf name → Equivalent name (maildirRemflagname
          ((maildirAddflagfilename past name flag).getD name)
          flag)

/-
  There is no colon; or flags in order follow it, with the
  flag once or not at all, and with room for it; or nothing
  stands in front of it and something else follows.
-/
def Tidy (past : Byte) (name : List Byte) (flag : Byte) : Prop :=
  match cutAt (chr ':') (basePart name) with
  | none => True
  | some (_, info) =>
    if bytes "2," <+: info then
      let flags := (info.drop 2).takeWhile isalpha
      flags.Pairwise (· ≤ ·) ∧ flags.count flag ≤ 1 ∧ (flag ∈ flags ∨
          Room flags ((info.drop 2).dropWhile isalpha) flag)
    else
      stemOf name = [] ∧ infoAt past info 0 ≠ chr '2' ∧ infoAt past info 1 ≠ chr ','

/- A path, a name and what is behind the colon. -/
structure Named (dir front info : List Byte) : Prop where
  dir : IsDir dir
  front : chr '/' ∉ front ∧ chr ':' ∉ front
  info : chr '/' ∉ info

section Named

variable {dir front info : List Byte}

theorem Named.parts (hNamed : Named dir front info) :
    dirPart (dir ++ front ++ chr ':' :: info) = dir ∧ cutAt (chr ':')
          (basePart (dir ++ front ++ chr ':' :: info)) =
        some (front, info) ∧
      stemOf (dir ++ front ++ chr ':' :: info) = dir ++ front := by
  have hBase : chr '/' ∉ front ++ chr ':' :: info := by
    rw [List.mem_append, List.mem_cons, not_or, not_or]
    exact ⟨hNamed.front.1, by decide, hNamed.info⟩
  rcases parts_append hNamed.dir hBase with ⟨hDir, hRest⟩
  unfold stemOf
  rw [List.append_assoc, hDir, hRest, cutAt_quoted hNamed.front.2, takeWhile_quoted hNamed.front.2]
  exact ⟨rfl, rfl, rfl⟩

theorem Named.flagsOf (hNamed : Named dir front info) :
    Maildir.flagsOf (dir ++ front ++ chr ':' :: info) =
      if bytes "2," <+: info then (info.drop 2).takeWhile isalpha else [] := by
  unfold Maildir.flagsOf
  rw [hNamed.parts.2.1]

/- Every path has no colon behind its last slash, or this
form. -/
theorem exists_named (name : List Byte) : chr ':' ∉ basePart name ∨
      ∃ dir front info, name = dir ++ front ++ chr ':' :: info ∧ Named dir front info := by
  rcases isDir_dirPart name with ⟨hDir, hBase, hName⟩
  by_cases hColon : chr ':' ∈ basePart name
  · right
    rcases List.eq_append_cons_of_mem hColon with ⟨front, info, hSplit, hFront⟩
    rw [hSplit, List.mem_append, List.mem_cons, not_or, not_or] at hBase
    refine ⟨dirPart name, front, info, ?_, hDir, ⟨hBase.1, hFront⟩, hBase.2.2⟩
    rw [List.append_assoc, ← hSplit, hName]
  · exact Or.inl hColon

------------
-- Names With Flags
------------

variable {flags behind : List Byte} {flag past : Byte}

/- A name with these flags. -/
def flagName (dir front flags behind : List Byte) : List Byte :=
  dir ++ front ++ chr ':' :: chr '2' :: chr ',' :: (flags ++ behind)

theorem flagsOf_flagName
    (hNamed : Named dir front (chr '2' :: chr ',' :: (flags ++ behind))) :
    flagsOf (flagName dir front flags behind) = (flags ++ behind).takeWhile isalpha ∧
      stemOf (flagName dir front flags behind) = dir ++ front := by
  have hPrefix : bytes "2," <+: chr '2' :: chr ',' :: (flags ++ behind) := ⟨flags ++ behind, rfl⟩
  refine ⟨?_, hNamed.parts.2.2⟩
  unfold flagName
  rw [hNamed.flagsOf, if_pos hPrefix]
  rfl

set_option maxRecDepth 8000 in
/- A letter is none of the bytes around it. -/
theorem letter_ne (hFlag : isalpha flag = true) : flag ≠ chr ':' ∧ flag ≠ chr '2' ∧ flag ≠ chr ',' ∧
      flag ≠ chr '/' ∧ below flag (chr ',') = true := by
  have hBelow : below flag (chr ',') = true := by
    revert flag
    apply byte_forall
    decide +kernel
  refine ⟨?_, ?_, ?_, ?_, hBelow⟩
  all_goals
    rintro rfl
    exact absurd hFlag (by decide)

theorem maildirAddflagfilename_flagName (past : Byte) (hFlag : isalpha flag = true)
    (hNamed : Named dir front (chr '2' :: chr ',' :: (flags ++ behind))) :
    maildirAddflagfilename past (flagName dir front flags behind) flag =
      if flag ∈ flags ++ behind then
        none
      else
        some (flagName dir front [] (insertFlag flag (flags ++ behind))) := by
  rcases letter_ne hFlag with ⟨hColon, hTwo, hComma, _, hBelow⟩
  have hOne : ∀ c, c ∈ [chr ','] → below flag c = true := by
    intro c hMem
    rw [List.mem_singleton.mp hMem]
    exact hBelow
  have hInsert := insertFlag_append hOne (flags ++ behind)
  have hColonFor : colonFor past (flagName dir front flags behind) = (dir ++ front,
          chr '2' :: chr ',' :: (flags ++ behind)) := by
    unfold colonFor flagName
    rw [hNamed.parts.2.1, hNamed.parts.1]
    exact if_neg fun hBoth => hBoth.1 rfl
  have hContains : (chr ':' :: chr '2' :: chr ',' :: (flags ++ behind)).contains flag = true ↔
        flag ∈ flags ++ behind := by
    rw [List.contains_iff_mem, List.mem_cons, List.mem_cons, List.mem_cons, or_iff_right hColon,
      or_iff_right hTwo, or_iff_right hComma]
  unfold maildirAddflagfilename
  rw [hColonFor]
  simp only [hContains]
  rw [List.singleton_append] at hInsert
  rw [hInsert]
  rfl

theorem maildirRemflagname_flagName (hFlags : Flags flags behind)
    (hNamed : Named dir front (chr '2' :: chr ',' :: (flags ++ behind))) :
    maildirRemflagname (flagName dir front flags behind) flag =
      flagName dir front (flags.erase flag) behind := by
  unfold maildirRemflagname flagName
  rw [hNamed.parts.2.1, hNamed.parts.1]
  simp only []
  rw [if_neg (fun hBoth => hBoth.1 rfl), List.drop_succ_cons,
    List.drop_succ_cons, List.drop_zero, dropFlag_append hFlags]
  rfl

/- What a flag in its place leaves of the others. -/
theorem withFlag_spec (hFlags : Flags flags behind) (hOrder : flags.Pairwise (· ≤ ·))
    (hNew : flag ∉ flags) :
    (withFlag flag flags).Pairwise (· ≤ ·) ∧
      (withFlag flag flags).filter (· ≠ flag) = flags.filter (· ≠ flag) ∧
      (withFlag flag flags).erase flag = flags := by
  have hSplit := List.takeWhile_append_dropWhile (p := below flag) (l := flags)
  have hFront : ∀ c, c ∈ flags.takeWhile (below flag) → c ≤ flag := by
    intro c hMem
    have hBelow := forall_takeWhile (below flag) flags c hMem
    have hLetter := hFlags.letters c ((List.takeWhile_prefix _).subset hMem)
    have hNot := (@not_below_iff flag c hLetter).not
    rw [hBelow, Bool.true_eq_false, not_false_eq_true, true_iff, UInt8.not_le] at hNot
    exact UInt8.le_of_lt hNot
  have hBehind : ∀ c, c ∈ flags.dropWhile (below flag) → flag ≤ c := by
    intro c hMem
    cases hDrop : flags.dropWhile (below flag) with
    | nil =>
      rw [hDrop] at hMem
      exact absurd hMem List.not_mem_nil
    | cons d rest =>
      rcases ge_of_dropWhile hFlags hOrder hDrop with ⟨hFirst, hRest⟩
      rw [hDrop] at hMem
      rcases List.mem_cons.mp hMem with rfl | hLater
      · exact hFirst
      · exact UInt8.le_trans hFirst (hRest c hLater)
  rw [← hSplit, List.pairwise_append] at hOrder
  unfold withFlag
  refine ⟨?_, ?_, ?_⟩
  · rw [List.pairwise_append, List.pairwise_cons]
    refine ⟨hOrder.1, ⟨hBehind, hOrder.2.1⟩, ?_⟩
    intro c hMem d hLater
    rcases List.mem_cons.mp hLater with rfl | hLater
    · exact hFront c hMem
    · exact hOrder.2.2 c hMem d hLater
  · nth_rewrite 3 [← hSplit]
    rw [List.filter_append, List.filter_append, List.filter_cons_of_neg (by simp)]
  · have hNot : flag ∉ flags.takeWhile (below flag) := fun hMem =>
      hNew ((List.takeWhile_prefix _).subset hMem)
    rw [List.erase_append_right _ hNot, List.erase_cons_head, hSplit]

theorem filter_erase_other (flag : Byte) (flags : List Byte) :
    (flags.erase flag).filter (· ≠ flag) = flags.filter (· ≠ flag) := by
  induction flags with
  | nil => rfl
  | cons c flags ih =>
    by_cases hHere : c = flag
    · subst hHere
      rw [List.erase_cons_head, List.filter_cons_of_neg (by simp)]
    · rw [List.erase_cons_tail (by simpa using hHere), filter_other hHere, filter_other hHere, ih]

theorem mem_insertFlag {c : Byte} {text : List Byte} (hMem : c ∈ insertFlag flag text) :
    c = flag ∨ c ∈ text := by
  induction text with
  | nil => exact Or.inl (List.mem_singleton.mp hMem)
  | cons d rest ih =>
    unfold insertFlag at hMem
    split at hMem
    · rcases List.mem_cons.mp hMem with rfl | hLater
      · exact Or.inr List.mem_cons_self
      · exact (ih hLater).imp id (List.mem_cons_of_mem d)
    · rcases List.mem_cons.mp hMem with rfl | hLater
      · exact Or.inl rfl
      right
      rcases List.mem_append.mp hLater with hTake | hLater
      · exact List.mem_cons_of_mem d (List.mem_of_mem_take hTake)
      rcases List.mem_cons.mp hLater with rfl | hBack
      · exact List.mem_cons_self
      · have hRun := (List.takeWhile_prefix _).subset (List.mem_reverse.mp hBack)
        exact List.mem_reverse.mp hRun

theorem flags_split (text : List Byte) :
    Flags (text.takeWhile isalpha) (text.dropWhile isalpha) where
  letters := forall_takeWhile isalpha text
  stop := head_dropWhile_stop

/- Another text behind the comma. -/
theorem Named.text {old new : List Byte}
    (hNamed : Named dir front (chr '2' :: chr ',' :: old)) (hFlag : isalpha flag = true)
    (hNew : ∀ c, c ∈ new → c = flag ∨ c ∈ old) : Named dir front (chr '2' :: chr ',' :: new) := by
  refine ⟨hNamed.dir, hNamed.front, ?_⟩
  have hOld := hNamed.info
  rw [List.mem_cons, List.mem_cons, not_or, not_or] at hOld ⊢
  refine ⟨hOld.1, hOld.2.1, ?_⟩
  intro hMem
  rcases hNew _ hMem with hSame | hIn
  · exact (letter_ne hFlag).2.2.2.1 hSame.symm
  · exact hOld.2.2 hIn

/-
  A flag is removed from a name whose flags are in order and
  have it once at most.
-/
theorem edited_erase (hFlag : isalpha flag = true) (hFlags : Flags flags behind)
    (hNamed : Named dir front (chr '2' :: chr ',' :: (flags ++ behind))) :
    Edited flag False (flagName dir front flags behind)
        (maildirRemflagname (flagName dir front flags behind) flag) ↔
      (flags.erase flag).Pairwise (· ≤ ·) ∧ flags.count flag ≤ 1 := by
  have hFlags' : Flags (flags.erase flag) behind :=
    ⟨fun c hMem => hFlags.letters c (List.mem_of_mem_erase hMem), hFlags.stop⟩
  have hNamed' : Named dir front (chr '2' :: chr ',' :: (flags.erase flag ++ behind)) := by
    apply hNamed.text hFlag
    intro c hMem
    right
    rcases List.mem_append.mp hMem with hIn | hIn
    · exact List.mem_append_left _ (List.mem_of_mem_erase hIn)
    · exact List.mem_append_right _ hIn
  rcases flagsOf_flagName hNamed with ⟨hOld, hOldStem⟩
  rcases flagsOf_flagName hNamed' with ⟨hNew, hNewStem⟩
  rw [hFlags.takeWhile] at hOld
  rw [hFlags'.takeWhile] at hNew
  have hCount : flag ∉ flags.erase flag ↔ flags.count flag ≤ 1 := by
    rw [← List.count_eq_zero, List.count_erase_self]
    omega
  rw [maildirRemflagname_flagName hFlags hNamed, ← hCount]
  constructor
  · intro hEdited
    have hOrder := hEdited.order
    have hHas := hEdited.hasFlag
    rw [hNew] at hOrder hHas
    exact ⟨hOrder, hHas.mp⟩
  · rintro ⟨hOrder, hGone⟩
    refine ⟨hNewStem.trans hOldStem.symm, ?_, ?_, ?_⟩
    · rw [hNew]
      exact iff_of_false hGone id
    · rw [hNew, hOld]
      exact filter_erase_other flag flags
    · rw [hNew]
      exact hOrder

/-
  What the two functions make of a name with flags.
-/
theorem flagEdits_flagName (past : Byte) (hFlag : isalpha flag = true)
    (hFlags : Flags flags behind)
    (hNamed : Named dir front (chr '2' :: chr ',' :: (flags ++ behind))) :
    FlagEdits past (flagName dir front flags behind) flag ↔
      flags.Pairwise (· ≤ ·) ∧ flags.count flag ≤ 1 ∧ (flag ∈ flags ∨ Room flags behind flag) := by
  have hErase := edited_erase hFlag hFlags hNamed
  have hAdd := maildirAddflagfilename_flagName past hFlag hNamed
  rcases flagsOf_flagName hNamed with ⟨hOld, hOldStem⟩
  have hOldFlags := hOld
  rw [hFlags.takeWhile] at hOldFlags
  have hNamedAdd : Named dir front (chr '2' :: chr ',' ::
      ([] ++ insertFlag flag (flags ++ behind))) :=
    hNamed.text hFlag fun c hMem => mem_insertFlag hMem
  rcases flagsOf_flagName hNamedAdd with ⟨hAdded, hAddedStem⟩
  rw [List.nil_append] at hAdded
  by_cases hIn : flag ∈ flags
  · -- the flag is there already
    rw [if_pos (List.mem_append_left behind hIn)] at hAdd
    constructor
    · intro hEdits
      have hOrder := hEdits.added.order
      rw [hAdd, Option.getD_none, hOldFlags] at hOrder
      exact ⟨hOrder, (hErase.mp hEdits.removed).2, Or.inl hIn⟩
    · rintro ⟨hOrder, hCount, _⟩
      refine ⟨?_, ?_, ?_⟩
      · rw [hAdd, Option.getD_none]
        refine ⟨rfl, ?_, rfl, ?_⟩
        · rw [hOldFlags]
          exact iff_of_true hIn trivial
        · rw [hOldFlags]
          exact hOrder
      · exact hErase.mpr ⟨hOrder.sublist List.erase_sublist, hCount⟩
      · intro hNew
        rw [hOldFlags] at hNew
        exact absurd hIn hNew
  · have hSame : flags.erase flag = flags := List.erase_of_not_mem hIn
    have hCount : flags.count flag ≤ 1 := by
      rw [List.count_eq_zero.mpr hIn]
      exact Nat.zero_le 1
    rw [hSame] at hErase
    rw [or_iff_right hIn]
    constructor
    · intro hEdits
      refine ⟨(hErase.mp hEdits.removed).1, hCount, ?_⟩
      have hResult := hEdits.added
      by_cases hBehind : flag ∈ behind
      · rw [hAdd, if_pos (List.mem_append_right flags hBehind), Option.getD_none] at hResult
        have hHas := hResult.hasFlag.mpr trivial
        rw [hOldFlags] at hHas
        exact absurd hHas hIn
      · have hNone : flag ∉ flags ++ behind := by
          rw [List.mem_append, not_or]
          exact ⟨hIn, hBehind⟩
        rw [hAdd, if_neg hNone, Option.getD_some] at hResult
        have hHas := hResult.hasFlag.mpr trivial
        have hOthers := hResult.others
        rw [hAdded] at hHas hOthers
        rw [hOldFlags] at hOthers
        exact room_of_insertFlag hFlags hIn hBehind hHas hOthers
    · rintro ⟨hOrder, _, hRoom⟩
      have hNone : flag ∉ flags ++ behind := by
        rw [List.mem_append, not_or]
        exact ⟨hIn, hRoom.1⟩
      have hPut := insertFlag_room hFlags hFlag hOrder hRoom
      rw [hPut] at hAdded
      rw [if_neg hNone] at hAdd
      rcases withFlag_spec hFlags hOrder hIn with ⟨hSorted, hFilter, hUndo⟩
      refine ⟨?_, hErase.mpr ⟨hOrder, hCount⟩, ?_⟩
      · rw [hAdd, Option.getD_some]
        refine ⟨hAddedStem.trans hOldStem.symm, ?_, ?_, ?_⟩
        · rw [hAdded]
          exact iff_of_true (List.mem_append_right _ List.mem_cons_self) trivial
        · rw [hAdded, hOldFlags]
          exact hFilter
        · rw [hAdded]
          exact hSorted
      · -- what is put among the letters is taken out again
        intro _
        have hText := List.takeWhile_append_dropWhile (p := isalpha)
          (l := insertFlag flag (flags ++ behind))
        rw [hPut] at hText
        have hFlags' := flags_split (insertFlag flag (flags ++ behind))
        rw [hPut] at hFlags'
        have hName : flagName dir front [] (insertFlag flag (flags ++ behind)) =
              flagName dir front (withFlag flag flags)
                ((insertFlag flag (flags ++ behind)).dropWhile isalpha) := by
          unfold flagName
          rw [hText]
          rfl
        have hNamed' : Named dir front (chr '2' :: chr ',' :: (withFlag flag flags ++
              (insertFlag flag (flags ++ behind)).dropWhile isalpha)) := by
          rw [hText]
          exact hNamedAdd
        have hLeft : Flags flags ((insertFlag flag (flags ++ behind)).dropWhile isalpha) :=
          ⟨hFlags.letters, hFlags'.stop⟩
        rw [hAdd, Option.getD_some, hName, maildirRemflagname_flagName hFlags' hNamed', hUndo]
        have hNamed'' : Named dir front (chr '2' :: chr ',' :: (flags ++
              (insertFlag flag (flags ++ behind)).dropWhile isalpha)) := by
          apply hNamed'.text hFlag
          intro c hMem
          right
          rcases List.mem_append.mp hMem with hIn | hIn
          · rw [← hUndo] at hIn
            exact List.mem_append_left _ (List.mem_of_mem_erase hIn)
          · exact List.mem_append_right _ hIn
        rcases flagsOf_flagName hNamed'' with ⟨hNew, hNewStem⟩
        rw [hLeft.takeWhile] at hNew
        exact Equivalent.of_flags (hNewStem.trans hOldStem.symm) (hNew.trans hOldFlags.symm)

------------
-- Names Without Flags
------------

/- A name that gets its first flag. -/
theorem flagEdits_first {name : List Byte} (hFlag : isalpha flag = true) (hDir : IsDir dir)
    (hFront : chr '/' ∉ front ∧ chr ':' ∉ front) (hStem : stemOf name = dir ++ front)
    (hNone : flagsOf name = []) (hStay : maildirRemflagname name flag = name)
    (hAdd : maildirAddflagfilename past name flag =
      some (flagName dir front [flag] [])) : FlagEdits past name flag := by
  have hNamed : Named dir front (chr '2' :: chr ',' :: ([flag] ++ [])) := by
    refine ⟨hDir, hFront, ?_⟩
    intro hMem
    rcases List.mem_cons.mp hMem with hSame | hMem
    · exact absurd hSame (by decide)
    rcases List.mem_cons.mp hMem with hSame | hMem
    · exact absurd hSame (by decide)
    · exact (letter_ne hFlag).2.2.2.1 (List.mem_singleton.mp hMem).symm
  have hFlags : Flags [flag] [] := by
    refine ⟨?_, nofun⟩
    intro c hMem
    rw [List.mem_singleton.mp hMem]
    exact hFlag
  rcases flagsOf_flagName hNamed with ⟨hNew, hNewStem⟩
  rw [hFlags.takeWhile] at hNew
  refine ⟨?_, ?_, ?_⟩
  · rw [hAdd, Option.getD_some]
    refine ⟨hNewStem.trans hStem.symm, ?_, ?_, ?_⟩
    · rw [hNew]
      exact iff_of_true (List.mem_singleton_self flag) trivial
    · rw [hNew, hNone, List.filter_cons_of_neg (by simp)]
    · rw [hNew]
      exact List.pairwise_singleton _ flag
  · rw [hStay]
    refine ⟨rfl, ?_, rfl, ?_⟩
    · rw [hNone]
      exact iff_of_false List.not_mem_nil id
    · rw [hNone]
      exact List.Pairwise.nil
  · intro _
    rw [hAdd, Option.getD_some, maildirRemflagname_flagName hFlags hNamed, List.erase_cons_head]
    have hNamed' : Named dir front (chr '2' :: chr ',' :: ([] ++ [])) := hNamed.text hFlag nofun
    rcases flagsOf_flagName hNamed' with ⟨hLeft, hLeftStem⟩
    exact Equivalent.of_flags (hLeftStem.trans hStem.symm) (hLeft.trans hNone.symm)

/- The flag goes behind the comma of a new suffix. -/
theorem maildirAddflagfilename_new {name : List Byte} (hFlag : isalpha flag = true)
    (hFor : colonFor past name = (front, bytes "2,")) :
    maildirAddflagfilename past name flag = some (front ++ bytes ":2," ++ [flag]) := by
  rcases letter_ne hFlag with ⟨hColon, hTwo, hComma, _, hBelow⟩
  have hContains : (chr ':' :: bytes "2,").contains flag = false := by
    rw [List.contains_eq_mem, decide_eq_false_iff_not]
    intro hMem
    rcases List.mem_cons.mp hMem with hSame | hMem
    · exact hColon hSame
    rcases List.mem_cons.mp hMem with hSame | hMem
    · exact hTwo hSame
    · exact hComma (List.mem_singleton.mp hMem)
  have hFront : ∀ c, c ∈ [chr ','] → below flag c = true := by
    intro c hMem
    rw [List.mem_singleton.mp hMem]
    exact hBelow
  have hInsert := insertFlag_append hFront []
  unfold maildirAddflagfilename
  rw [hFor]
  simp only []
  rw [hContains, List.append_assoc]
  exact congrArg (fun text => some (front ++ chr ':' :: chr '2' :: text)) hInsert

/- A name without a colon gets one. -/
theorem flagEdits_plain {name : List Byte} (hFlag : isalpha flag = true)
    (hPlain : chr ':' ∉ basePart name) : FlagEdits past name flag := by
  rcases isDir_dirPart name with ⟨hDir, hBase, hName⟩
  have hCut := cutAt_unclosed hPlain
  have hFor : colonFor past name = (name, bytes "2,") := by
    unfold colonFor
    rw [hCut]
  have hAdd := maildirAddflagfilename_new hFlag hFor
  apply flagEdits_first hFlag hDir ⟨hBase, hPlain⟩
  · unfold stemOf
    rw [takeWhile_unclosed hPlain]
  · unfold flagsOf
    rw [hCut]
  · unfold maildirRemflagname
    rw [hCut]
  · unfold flagName
    rw [hAdd, hName, List.append_assoc]
    rfl

/- A stem does not reach over a colon. -/
theorem length_stemOf (front : List Byte) (hInfo : chr '/' ∉ info) :
    (stemOf (front ++ chr ':' :: info)).length ≤ front.length := by
  rcases isDir_dirPart front with ⟨hDir, hBase, hFront⟩
  have hBase' : chr '/' ∉ basePart front ++ chr ':' :: info := by
    rw [List.mem_append, List.mem_cons, not_or, not_or]
    exact ⟨hBase, by decide, hInfo⟩
  rcases parts_append hDir hBase' with ⟨hDirPart, hBasePart⟩
  have hStop : (chr ':' :: info).takeWhile (· ≠ chr ':') = [] :=
    List.takeWhile_cons_of_neg (by decide)
  have hShort : ((basePart front ++ chr ':' :: info).takeWhile
      (· ≠ chr ':')).length ≤ (basePart front).length := by
    rw [List.takeWhile_append]
    split
    · rw [hStop, List.append_nil]
    · exact (List.takeWhile_prefix _).length_le
  have hLength := congrArg List.length hFront
  unfold stemOf
  nth_rewrite 1 2 [← hFront]
  rw [List.append_assoc, hDirPart, hBasePart, List.length_append]
  rw [List.length_append] at hLength
  omega

/-
  Both characters behind the colon are wrong: the last part of
  the path goes.
-/
theorem flagEdits_erased (hFlag : isalpha flag = true) (hNamed : Named dir front info)
    (hForeign : ¬ bytes "2," <+: info) (hTwo : infoAt past info 0 ≠ chr '2')
    (hComma : infoAt past info 1 ≠ chr ',') :
    FlagEdits past (dir ++ front ++ chr ':' :: info) flag ↔ dir ++ front = [] := by
  have hFor : colonFor past (dir ++ front ++ chr ':' :: info) = (dir.dropLast, bytes "2,") := by
    unfold colonFor
    rw [hNamed.parts.2.1, hNamed.parts.1]
    exact if_pos ⟨hTwo, hComma⟩
  have hAdd := maildirAddflagfilename_new hFlag hFor
  constructor
  · intro hEdits
    have hStem := hEdits.added.stem
    have hSlash : chr '/' ∉ chr '2' :: chr ',' :: [flag] := by
      rw [List.mem_cons, List.mem_cons, List.mem_singleton, not_or, not_or]
      exact ⟨by decide, by decide, (letter_ne hFlag).2.2.2.1.symm⟩
    have hShort := length_stemOf dir.dropLast hSlash
    rw [hAdd, Option.getD_some, hNamed.parts.2.2, List.append_assoc] at hStem
    have hLength := congrArg List.length hStem
    rw [List.length_append] at hLength
    have hLe := (Nat.le_of_eq hLength.symm).trans hShort
    rw [List.length_dropLast] at hLe
    rcases hNamed.dir with rfl | ⟨up, rfl⟩
    · rw [List.length_nil] at hLe
      rw [List.nil_append]
      exact List.eq_nil_of_length_eq_zero (by omega)
    · rw [List.length_append, List.length_singleton] at hLe
      omega
  · intro hEmpty
    rcases List.append_eq_nil_iff.mp hEmpty with ⟨rfl, rfl⟩
    apply flagEdits_first hFlag hNamed.dir hNamed.front hNamed.parts.2.2
    · rw [hNamed.flagsOf, if_neg hForeign]
    · unfold maildirRemflagname
      rw [hNamed.parts.2.1]
      apply if_pos
      cases info with
      | nil => exact ⟨nofun, nofun⟩
      | cons c rest =>
        refine ⟨fun hSame => hTwo (Option.some.inj hSame), ?_⟩
        cases rest with
        | nil => exact nofun
        | cons d rest => exact fun hSame => hComma (Option.some.inj hSame)
    · exact hAdd

/- One of them is wrong: the flag is not found afterwards. -/
theorem not_flagEdits_mixed (hFlag : isalpha flag = true) (hNamed : Named dir front info)
    (hForeign : ¬ bytes "2," <+: info)
    (hMixed : ¬ (infoAt past info 0 ≠ chr '2' ∧ infoAt past info 1 ≠ chr ',')) :
    ¬ FlagEdits past (dir ++ front ++ chr ':' :: info) flag := by
  have hFor : colonFor past (dir ++ front ++ chr ':' :: info) = (dir ++ front, info) := by
    unfold colonFor
    rw [hNamed.parts.2.1, hNamed.parts.1]
    exact if_neg hMixed
  have hOld : flagsOf (dir ++ front ++ chr ':' :: info) = [] := by
    rw [hNamed.flagsOf, if_neg hForeign]
  intro hEdits
  have hHas := hEdits.added.hasFlag.mpr trivial
  unfold maildirAddflagfilename at hHas
  rw [hFor] at hHas
  simp only [] at hHas
  split at hHas
  · rw [Option.getD_none, hOld] at hHas
    exact absurd hHas List.not_mem_nil
  cases info with
  | nil =>
    simp only [Option.getD_some] at hHas
    rw [hOld] at hHas
    exact absurd hHas List.not_mem_nil
  | cons c rest =>
    have hNamed' : Named dir front (c :: insertFlag flag rest) := by
      refine ⟨hNamed.dir, hNamed.front, ?_⟩
      have hInfo := hNamed.info
      rw [List.mem_cons, not_or] at hInfo ⊢
      refine ⟨hInfo.1, ?_⟩
      intro hMem
      rcases mem_insertFlag hMem with hSame | hIn
      · exact (letter_ne hFlag).2.2.2.1 hSame.symm
      · exact hInfo.2 hIn
    have hForeign' : ¬ bytes "2," <+: c :: insertFlag flag rest := by
      rintro ⟨text, hText⟩
      apply hForeign
      rcases List.cons_eq_cons.mp hText with ⟨rfl, hRest⟩
      cases rest with
      | nil =>
        rcases List.cons_eq_cons.mp hRest with ⟨hSame, _⟩
        exact absurd hSame.symm (letter_ne hFlag).2.2.1
      | cons d rest =>
        unfold insertFlag at hRest
        split at hRest
        · rcases List.cons_eq_cons.mp hRest with ⟨rfl, _⟩
          exact ⟨rest, rfl⟩
        · rcases List.cons_eq_cons.mp hRest with ⟨hSame, _⟩
          exact absurd hSame.symm (letter_ne hFlag).2.2.1
    simp only [Option.getD_some] at hHas
    rw [hNamed'.flagsOf, if_neg hForeign'] at hHas
    exact absurd hHas List.not_mem_nil

end Named

/-
  The edits touch nothing but the flag exactly in tidy names.
-/
theorem flagEdits_iff {flag : Byte} (hFlag : isalpha flag = true) (past : Byte)
    (name : List Byte) : FlagEdits past name flag ↔ Tidy past name flag := by
  rcases exists_named name with hPlain | ⟨dir, front, info, rfl, hNamed⟩
  · unfold Tidy
    rw [cutAt_unclosed hPlain]
    exact iff_of_true (flagEdits_plain hFlag hPlain) trivial
  unfold Tidy
  rw [hNamed.parts.2.1, hNamed.parts.2.2]
  simp only []
  by_cases hForm : bytes "2," <+: info
  · rw [if_pos hForm]
    rcases hForm with ⟨text, rfl⟩
    have hFlags := flags_split text
    have hText := List.takeWhile_append_dropWhile (p := isalpha) (l := text)
    have hNamed' : Named dir front (chr '2' :: chr ',' ::
        (text.takeWhile isalpha ++ text.dropWhile isalpha)) := by
      rw [hText]
      exact hNamed
    have hEdits := flagEdits_flagName past hFlag hFlags hNamed'
    unfold flagName at hEdits
    rw [hText] at hEdits
    exact hEdits
  · rw [if_neg hForm]
    by_cases hWrong : infoAt past info 0 ≠ chr '2' ∧ infoAt past info 1 ≠ chr ','
    · rw [flagEdits_erased hFlag hNamed hForm hWrong.1 hWrong.2, and_iff_left hWrong]
    · apply iff_of_false
      · exact not_flagEdits_mixed hFlag hNamed hForm hWrong
      · exact fun hTidy => hWrong hTidy.2

theorem flagEdits_seen : isalpha (chr 'R') = true ∧
      FlagEdits 0 (bytes "cur/1.m:2,S") (chr 'R') := by
  refine ⟨by decide, (flagEdits_iff (by decide) 0 _).mpr ?_⟩
  show [chr 'S'].Pairwise (· ≤ ·) ∧
    [chr 'S'].count (chr 'R') ≤ 1 ∧ (chr 'R' ∈ [chr 'S'] ∨ (chr 'R' ∉ [] ∧ chr 'S' ∉ []))
  decide

/-
  With something else behind the colon, a new flag takes the
  place of the name.
-/
theorem not_flagEdits : ¬ ∀ (past : Byte) (name : List Byte) (flag : Byte),
      isalpha flag = true → FlagEdits past name flag := by
  intro hAll
  have hStem := (hAll 0 (bytes "cur/1.m:abc") (chr 'S') (by decide)).added.stem
  exact absurd hStem (by decide)

end Wmail.Maildir
