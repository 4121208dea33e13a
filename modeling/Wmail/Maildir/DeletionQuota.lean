import Wmail.Maildir.Deletion

/-
  Which deletions tell the quota what they delete.

  Key theorems include:
    * `exact_autopurge_iff`
    * `deletion_exact_iff`
-/

namespace Wmail.Maildir

/- The folders that `maildir_delete` does not delete. -/
def reservedFolders : List (List Byte) :=
  [INBOX, SENT, TRASH, DRAFTS, SPAM]

/- The files of Trash that the quota is told of. -/
def toldOf (files : List Message) (old : Message → Bool) : List Message :=
  (purgedOf files old (bytes ".Trash")).filter
    (tells (bytes ".Trash/cur"))

/-
  The quota is told exactly of what it has counted, or a
  recount makes up for the difference.
-/
def Deletion.Told (s : Folders) (recounts : Message → Bool) (totals : Int × Int) : Deletion → Prop
  | .msgpurge folder file => s.Finds folder file → file.quotaCounts = false
  | .msgpurgefile folder file =>
    s.Finds folder file → file.quotaCounts = true →
      if file.countedSize = Int64.minValue then
        -- the line is not read
        recounts file = true ∧ recount s.files + file.tally = totals
      else
        file.countedSize ≠ 0 ∧ (recounts file = true → recount s.files = totals)
  | .autopurge old =>
    (∀ file, file ∈ toldOf s.files old →
      recounts file = false ∧ file.countedSize = Int64.minValue) ∨
      ∃ front file back, toldOf s.files old = front ++ file :: back ∧
          recounts file = true ∧ (∀ other, other ∈ back → recounts other = false) ∧
              recount s.files = totals + takenOf (file :: back)
  | .deleteall foldername =>
    foldername = SPAM → ∀ file, file ∈ s.files →
        file.place = .own (bytes ".Spam") → file.sub = .cur → file.quotaCounts = false
  | .delete foldername =>
    foldername ∉ reservedFolders → ∀ dir, xlateMdir foldername = some dir →
        dir ≠ bytes "." ∧ ∀ file, file ∈ s.files → file.place = .own dir → file.quotaCounts = false

section Told

variable {s : Folders} {totals : Int × Int}

theorem exact_msgpurge_iff (hRecorded : s.recorded = some totals) (folder : List Byte)
    (file : Message) :
    Exact s (maildirMsgpurge s folder file) ↔ (s.Finds folder file → file.quotaCounts = false) := by
  unfold maildirMsgpurge
  split
  · rename_i hFinds
    rw [exact_files_iff hRecorded, tallies_erase hFinds.1, sub_eq_self, tally_eq_zero_iff]
    exact ⟨fun hNot _ => hNot, fun hNot => hNot hFinds⟩
  · rename_i hNone
    exact iff_of_true ((exact_files_iff hRecorded s.files).mpr rfl)
      (fun hFinds => absurd hFinds hNone)

/- A file in a directory of the maildir. -/
theorem exact_purge_iff {recounts : Message → Bool} {d : List Byte} {file : Message}
    (hRecorded : s.recorded = some totals) (hMem : file ∈ s.files)
    (hPlace : file.place = .own d) (hCounts : file.quotaCounts = true) :
    Exact s (s.purge recounts d file) ↔
      if file.countedSize = Int64.minValue then
        recounts file = true ∧ recount s.files + file.tally = totals
      else
        file.countedSize ≠ 0 ∧ (recounts file = true → recount s.files = totals) := by
  have hTally : file.tally = (file.countedSize.toInt, 1) := by
    unfold Message.tally
    rw [hCounts, if_pos rfl]
  have hNonzero : file.tally ≠ 0 := by
    intro hZero
    rw [tally_eq_zero_iff, hCounts] at hZero
    cases hZero
  have hTells : tells d file = decide (file.countedSize ≠ 0) := by
    unfold Message.quotaCounts at hCounts
    rw [hPlace] at hCounts
    unfold tells
    rw [show (countfolder d && countfile file.name) = true from hCounts, Bool.true_and]
  unfold Exact
  rw [purge_files, tallies_erase hMem, purge_recorded, hTells, hRecorded, Option.map_some,
    Option.map_some, sub_sub_cancel_left, ← sub_eq_add_neg]
  by_cases hZero : file.countedSize = 0
  · have hSmall : file.countedSize ≠ Int64.minValue := by
      rw [hZero]
      decide
    rw [if_neg (by simp [hZero]), if_neg hSmall, Option.some.injEq]
    constructor
    · intro hSame
      exact absurd (sub_eq_self.mp hSame.symm) hNonzero
    · intro hSize
      exact absurd hZero hSize.1
  · rw [if_pos (by simp [hZero]), Option.some.injEq]
    unfold Message.taken
    by_cases hLeast : file.countedSize = Int64.minValue
    · rw [if_pos hLeast, if_pos hLeast, sub_zero, eq_sub_iff_add_eq]
      cases recounts file with
      | true => simp
      | false => simpa using hNonzero
    · rw [if_neg hLeast, if_neg hLeast, ← hTally, sub_left_inj]
      cases recounts file with
      | true => simp [hZero]
      | false => simp [hZero]

theorem exact_msgpurgefile_iff (hRecorded : s.recorded = some totals)
    (recounts : Message → Bool) (folder : List Byte) (file : Message) :
    Exact s (maildirMsgpurgefile s recounts folder file) ↔
      Deletion.Told s recounts totals (.msgpurgefile folder file) := by
  unfold maildirMsgpurgefile Deletion.Told
  split
  · rename_i hFinds
    cases hCounts : file.quotaCounts with
    | true =>
      cases hPlace : file.place with
      | shared name =>
        have hShared : file.place.counts = false := by
          rw [hPlace]
          rfl
        have hNot := quotaCounts_of_place hShared
        rw [hCounts] at hNot
        cases hNot
      | own d =>
        rw [exact_purge_iff hRecorded hFinds.1 hPlace hCounts]
        exact ⟨fun hTold _ _ => hTold, fun hTold => hTold hFinds hCounts⟩
    | false =>
      apply iff_of_true
      · have hZero := (tally_eq_zero_iff file).mpr hCounts
        cases hPlace : file.place with
        | shared name =>
          simp only []
          rw [exact_files_iff hRecorded, tallies_erase_uncounted hCounts]
        | own d =>
          have hTells : tells d file = false := by
            unfold Message.quotaCounts at hCounts
            rw [hPlace] at hCounts
            unfold tells
            rw [show (countfolder d && countfile file.name) = false from hCounts, Bool.false_and]
          simp only []
          rw [exact_iff_of_recorded _ hRecorded (by
            rw [purge_recorded, hTells]
            rfl), purge_files,
            tallies_erase_uncounted hCounts]
      · intro _ hYes
        exact absurd (hCounts.symm.trans hYes) Bool.false_ne_true
  · rename_i hNone
    exact iff_of_true ((exact_files_iff hRecorded s.files).mpr rfl)
      (fun hFinds => absurd hFinds hNone)

theorem exact_autopurge_iff (hRecorded : s.recorded = some totals)
    (recounts old : Message → Bool) :
    Exact s (maildirAutopurge s recounts old) ↔
      Deletion.Told s recounts totals (.autopurge old) := by
  have hDir : xlateMdir TRASH = some (bytes ".Trash") := by decide
  have hPlace : ∀ file, file ∈ purgedOf s.files old (bytes ".Trash") →
        file.place.counts = false := by
    intro file hMem
    unfold purgedOf at hMem
    have hTests := (List.mem_filter.mp hMem).2
    simp only [Bool.and_eq_true, decide_eq_true_eq] at hTests
    rw [hTests.1.1.1]
    decide
  have hPurge := @foldl_purge recounts (bytes ".Trash/cur") _ s hPlace
  unfold maildirAutopurge
  rw [hDir]
  unfold Exact
  simp only []
  rw [show bytes ".Trash" ++ bytes "/cur" = bytes ".Trash/cur"
    from rfl, hPurge.1, hPurge.2, hRecorded, Option.map_some,
    Option.map_some, Option.some.injEq, sub_self, add_zero]
  show afterLines recounts (recount s.files) (toldOf s.files old) totals = totals ↔ _
  unfold Deletion.Told
  simp only []
  generalize toldOf s.files old = told
  constructor
  · intro hSame
    rcases exists_last_recount recounts told with
      hNone | ⟨front, file, back, rfl, hRecounts, hBack⟩
    · rw [afterLines_none hNone, sub_eq_self, takenOf_eq_zero_iff] at hSame
      exact Or.inl fun file hMem => ⟨hNone file hMem, hSame file hMem⟩
    · rw [afterLines_last hRecounts hBack, sub_eq_iff_eq_add] at hSame
      exact Or.inr ⟨front, file, back, rfl, hRecounts, hBack, hSame⟩
  · rintro (hNone | ⟨front, file, back, rfl, hRecounts, hBack, hFound⟩)
    · rw [afterLines_none fun file hMem => (hNone file hMem).1, sub_eq_self, takenOf_eq_zero_iff]
      exact fun file hMem => (hNone file hMem).2
    · rw [afterLines_last hRecounts hBack, hFound, add_sub_cancel_right]

theorem exact_deleteall_iff (hRecorded : s.recorded = some totals) (foldername : List Byte) :
    Exact s (maildirDeleteall s foldername) ↔ (foldername = SPAM →
        ∀ file, file ∈ s.files → file.place = .own (bytes ".Spam") →
            file.sub = .cur → file.quotaCounts = false) := by
  have hStays := (exact_files_iff hRecorded s.files).mpr rfl
  have hTrash : xlateMdir TRASH = some (bytes ".Trash") := by decide
  have hSpam : xlateMdir SPAM = some (bytes ".Spam") := by decide
  have hApart : TRASH ≠ SPAM := by decide
  unfold maildirDeleteall
  by_cases hName : foldername = SPAM
  · subst hName
    rw [if_neg fun hBoth => hBoth.2 rfl, hSpam]
    simp only []
    rw [exact_files_iff hRecorded, tallies_filter_iff]
    simp
  · refine iff_of_true ?_ fun hSame => absurd hSame hName
    by_cases hOther : foldername = TRASH
    · subst hOther
      rw [if_neg fun hBoth => hBoth.1 rfl, hTrash]
      simp only []
      rw [exact_files_iff hRecorded, tallies_filter_iff]
      intro file _ hGone
      apply quotaCounts_of_place
      simp only [Bool.not_eq_false', Bool.and_eq_true, decide_eq_true_eq] at hGone
      rw [hGone.1]
      decide
    · rw [if_pos ⟨hOther, hName⟩]
      exact hStays

theorem exact_delete_iff (hRecorded : s.recorded = some totals) (foldername : List Byte) :
    Exact s (maildirDelete s foldername) ↔ (foldername ∉ reservedFolders →
        ∀ dir, xlateMdir foldername = some dir → dir ≠ bytes "." ∧
            ∀ file, file ∈ s.files → file.place = .own dir → file.quotaCounts = false) := by
  have hStays := (exact_files_iff hRecorded s.files).mpr rfl
  have hReserved : (foldername = INBOX ∨ foldername = SENT ∨
      foldername = TRASH ∨ foldername = DRAFTS ∨
        foldername = SPAM) ↔ foldername ∈ reservedFolders := by
    unfold reservedFolders
    simp
  unfold maildirDelete
  rw [if_congr hReserved rfl rfl]
  by_cases hName : foldername ∈ reservedFolders
  · rw [if_pos hName]
    exact iff_of_true hStays fun hNot => absurd hName hNot
  rw [if_neg hName]
  cases hDir : xlateMdir foldername with
  | none => exact iff_of_true hStays nofun
  | some dir =>
    simp only [Option.some.injEq]
    by_cases hHere : dir = bytes "."
    · apply iff_of_false
      · rw [if_pos hHere]
        unfold Exact
        rw [hRecorded]
        exact nofun
      · intro hTold
        exact (hTold hName dir rfl).1 hHere
    · rw [if_neg hHere, exact_files_iff hRecorded, tallies_filter_iff]
      constructor
      · rintro hNone _ _ rfl
        refine ⟨hHere, ?_⟩
        intro file hMem hPlace
        exact hNone file hMem (by rw [hPlace]; simp)
      · intro hTold file hMem hGone
        simp only [Bool.not_eq_false', decide_eq_true_eq] at hGone
        exact (hTold hName dir rfl).2 file hMem hGone

/- Without a quota file there is nothing to tell. -/
theorem recorded_apply_none (hRecorded : s.recorded = none) (recounts : Message → Bool)
    (d : Deletion) : (d.apply s recounts).recorded = none := by
  have hPurge : ∀ (s : Folders) (dir : List Byte)
      (file : Message), s.recorded = none → (s.purge recounts dir file).recorded = none := by
    intro s dir file hNone
    rw [purge_recorded, hNone]
    split <;> rfl
  cases d with
  | msgpurge folder file =>
    unfold Deletion.apply maildirMsgpurge
    simp only []
    split <;> exact hRecorded
  | msgpurgefile folder file =>
    unfold Deletion.apply maildirMsgpurgefile
    simp only []
    split
    · split
      · exact hRecorded
      · exact hPurge s _ file hRecorded
    · exact hRecorded
  | autopurge old =>
    unfold Deletion.apply maildirAutopurge
    simp only []
    split
    · exact hRecorded
    · generalize purgedOf s.files old _ = purged
      induction purged generalizing s with
      | nil => exact hRecorded
      | cons file purged ih => exact ih (hPurge s _ file hRecorded)
  | deleteall foldername =>
    unfold Deletion.apply maildirDeleteall
    simp only []
    split
    · exact hRecorded
    · split <;> exact hRecorded
  | delete foldername =>
    unfold Deletion.apply maildirDelete
    simp only []
    split
    · exact hRecorded
    · split
      · exact hRecorded
      · rw [hRecorded]
        exact ite_self none

end Told

/-
  The totals change exactly as they should where the quota is
  told of what is deleted.
-/
theorem deletion_exact_iff (d : Deletion) (s : Folders) (recounts : Message → Bool) :
    Exact s (d.apply s recounts) ↔ ∀ totals, s.recorded = some totals →
        d.Told s recounts totals := by
  cases hRecorded : s.recorded with
  | none =>
    apply iff_of_true
    · unfold Exact
      rw [recorded_apply_none hRecorded, hRecorded]
      rfl
    · exact nofun
  | some totals =>
    have hOne : Exact s (d.apply s recounts) ↔ d.Told s recounts totals := by
      cases d with
      | msgpurge folder file => exact exact_msgpurge_iff hRecorded folder file
      | msgpurgefile folder file => exact exact_msgpurgefile_iff hRecorded recounts folder file
      | autopurge old => exact exact_autopurge_iff hRecorded recounts old
      | deleteall foldername => exact exact_deleteall_iff hRecorded foldername
      | delete foldername => exact exact_delete_iff hRecorded foldername
    rw [hOne]
    constructor
    · rintro hTold _ hSame
      cases hSame
      exact hTold
    · intro hTold
      exact hTold totals rfl

/- A message of Trash, which the quota does not count. -/
def trashed : Message where
  place := .own (bytes ".Trash")
  sub := .cur
  name := bytes "1.m,S=5:2,S"
  size := 5

/- What was never counted is taken off. -/
theorem not_deletion_exact : ¬ ∀ (d : Deletion) (s : Folders)
      (recounts : Message → Bool), Exact s (d.apply s recounts) := by
  intro hAll
  have hExact := hAll (.autopurge fun _ => true) ⟨[trashed], some (0, 0)⟩ fun _ => false
  exact absurd hExact (by decide)

end Wmail.Maildir
