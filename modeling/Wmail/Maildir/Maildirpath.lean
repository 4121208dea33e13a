import Wmail.Core.Decimal
import Wmail.Core.Runs

/-
  Names that clients give, as paths (maildirpath.c,
  maildirshared.c, maildirfilename.c).

  A C string is the list of its bytes.  The separator MDIRSEP
  is a colon.

  Key theorems include:
    * `maildirShareddir_inside`
    * `paths_inside_iff`
-/

namespace Wmail.Maildirpath

def INBOX : List Byte := bytes "INBOX"

def SHAREDSUBDIR : List Byte := bytes "shared-folders"

/- `strcasecmp(foldername, INBOX) == 0`. -/
def isInbox (foldername : List Byte) : Bool :=
  foldername.map tolower = INBOX.map tolower

/- A period is the last byte, or another one follows it. -/
def badPeriods : List Byte → Bool
  | [] => false
  | c :: r =>
    (c = chr '.' && (r.head?.all (· = chr '.'))) ||
      badPeriods r

/- No leading or trailing periods, no slashes. -/
def refusesFolder (foldername : List Byte) : Bool :=
  foldername.head? = some (chr '.') || foldername.contains (chr '/') || badPeriods foldername

/- What is written in front of names; the maildir may be `.`. -/
def under (maildir : List Byte) : List Byte :=
  if maildir = bytes "." then [] else maildir ++ [chr '/']

/- `maildir_folderdir`; `none` is a null pointer. -/
def maildirFolderdir (maildir foldername : Option (List Byte)) : Option (List Byte) :=
  let maildir := maildir.getD (bytes ".")
  match foldername with
  | none => some maildir
  | some foldername =>
    if isInbox foldername then
      some maildir
    else if refusesFolder foldername then
      none
    else
      some (under maildir ++ chr '.' :: foldername)

/- `*strchr(q, '.')='/'`. -/
def slashForPeriod (q : List Byte) : List Byte :=
  match cutAt (chr '.') q with
  | none => q
  | some (front, rest) => front ++ chr '/' :: rest

/- `maildir_shareddir`. -/
def maildirShareddir (maildir : Option (List Byte)) (sharedname : List Byte) : Option (List Byte) :=
  let maildir := maildir.getD (bytes ".")
  if !sharedname.contains (chr '.') || sharedname.head? = some (chr '.') ||
      sharedname.contains (chr '/') then
    none
  else if badPeriods sharedname then
    none
  else
    some (under maildir ++ (SHAREDSUBDIR ++ [chr '/']) ++ slashForPeriod sharedname)

/- A file size, as the quota code puts it into names. -/
def skipSize (a : List Byte) : List Byte :=
  if bytes ",S=" <+: a then (a.drop 3).dropWhile isdigit else a

theorem length_skipSize (a : List Byte) : (skipSize a).length ≤ a.length := by
  unfold skipSize
  split
  · have hDigits := (List.dropWhile_suffix (l := a.drop 3) isdigit).length_le
    rw [List.length_drop] at hDigits
    omega
  · exact Nat.le_refl _

/- `*a == 0 || *a == MDIRSEP[0]`. -/
def atEnd (a : List Byte) : Bool :=
  a.head?.all (· = chr ':')

/- The loop of `maildir_filename` over both names. -/
def sameFilename (a b : List Byte) : Bool :=
  if atEnd (skipSize a) && atEnd (skipSize b) then
    true
  else if _hStop : atEnd (skipSize a) || atEnd (skipSize b) ||
      (skipSize a).head? ≠ (skipSize b).head? then
    false
  else
    sameFilename (skipSize a).tail (skipSize b).tail
termination_by a.length
decreasing_by
  have hLength := length_skipSize a
  cases hHere : skipSize a with
  | nil =>
    rw [hHere] at _hStop
    exact absurd rfl _hStop
  | cons x rest =>
    rw [hHere, List.length_cons] at hLength
    exact hLength

/- No slashes, and no leading period. -/
def refusesFile (filename : List Byte) : Bool :=
  filename.contains (chr '/') || filename.head? = some (chr '.')

/-
  What `maildir_filename` learns: whether there is a file,
  and the entries of a directory that can be read.
-/
structure Directories where
  stat : List Byte → Bool
  readdir : List Byte → Option (List (List Byte))

/- `maildir_filename`. -/
def maildirFilename (disk : Directories) (maildir folder : Option (List Byte))
    (filename : List Byte) : Option (List Byte) :=
  if refusesFile filename then
    none
  else
    match maildirFolderdir maildir folder with
    | none => none
    | some dir =>
      let p := dir ++ bytes "/cur/" ++ filename
      if disk.stat p then
        some p
      else
        match disk.readdir (dir ++ bytes "/cur") with
        | none => some p
        | some entries =>
          match entries.find? (sameFilename filename) with
          | some d_name => some (dir ++ bytes "/cur/" ++ d_name)
          | none => some p

/- A name without sizes, up to its flags. -/
def plainName (a : List Byte) : List Byte :=
  match _hHere : skipSize a with
  | [] => []
  | x :: rest => if x = chr ':' then [] else x :: plainName rest
termination_by a.length
decreasing_by
  have hLength := length_skipSize a
  rw [_hHere, List.length_cons] at hLength
  exact hLength

theorem plainName_eq (a : List Byte) : plainName a =
      match skipSize a with
      | [] => []
      | x :: rest => if x = chr ':' then [] else x :: plainName rest := by
  rw [plainName.eq_def]
  split <;> rename_i hHere <;> rw [hHere]

theorem plainName_end {a : List Byte} (hEnd : atEnd (skipSize a) = true) : plainName a = [] := by
  rw [plainName_eq]
  unfold atEnd at hEnd
  cases hHere : skipSize a with
  | nil => rfl
  | cons x rest =>
    rw [hHere] at hEnd
    exact if_pos (of_decide_eq_true hEnd)

theorem plainName_more {a : List Byte} (hMore : ¬ atEnd (skipSize a) = true) :
    ∃ x, (skipSize a).head? = some x ∧ plainName a = x :: plainName (skipSize a).tail := by
  rw [plainName_eq]
  unfold atEnd at hMore
  cases hHere : skipSize a with
  | nil =>
    rw [hHere] at hMore
    exact absurd rfl hMore
  | cons x rest =>
    rw [hHere] at hMore
    exact ⟨x, rfl, if_neg fun hColon => hMore (decide_eq_true hColon)⟩

/- Names are the same without sizes and flags. -/
theorem sameFilename_iff (a b : List Byte) :
    sameFilename a b = true ↔ plainName a = plainName b := by
  fun_induction sameFilename a b with
  | case1 a b hEnds =>
    rw [Bool.and_eq_true] at hEnds
    rw [plainName_end hEnds.1, plainName_end hEnds.2]
    exact iff_of_true rfl rfl
  | case2 a b hEnds hStop =>
    refine iff_of_false Bool.false_ne_true ?_
    intro hSame
    rw [Bool.and_eq_true, not_and] at hEnds
    by_cases hA : atEnd (skipSize a) = true
    · rcases plainName_more (hEnds hA) with ⟨y, _, hB⟩
      rw [plainName_end hA, hB] at hSame
      cases hSame
    · rcases plainName_more hA with ⟨x, hHeadA, hNameA⟩
      by_cases hB : atEnd (skipSize b) = true
      · rw [plainName_end hB, hNameA] at hSame
        cases hSame
      · rcases plainName_more hB with ⟨y, hHeadB, hNameB⟩
        rw [hNameA, hNameB] at hSame
        rw [Bool.or_eq_true, Bool.or_eq_true, decide_eq_true_iff] at hStop
        rcases hStop with (hStop | hStop) | hDiffers
        · exact hA hStop
        · exact hB hStop
        · rw [hHeadA, hHeadB, (List.cons.inj hSame).1] at hDiffers
          exact hDiffers rfl
  | case3 a b hEnds hGo ih =>
    rw [Bool.or_eq_true, Bool.or_eq_true, not_or, not_or,
      decide_eq_true_iff, ne_eq, Decidable.not_not] at hGo
    rcases hGo with ⟨⟨hA, hB⟩, hSame⟩
    rcases plainName_more hA with ⟨x, hHeadA, hNameA⟩
    rcases plainName_more hB with ⟨y, hHeadB, hNameB⟩
    rw [hHeadA, hHeadB] at hSame
    rw [ih, hNameA, hNameB, Option.some.inj hSame, List.cons_inj_right]

theorem plainName_periods : plainName (bytes ".") = bytes "." ∧
      plainName (bytes "..") = bytes ".." := by
  have hNone : plainName [] = [] := plainName_end rfl
  have hOne : plainName (bytes ".") = bytes "." := by
    rw [plainName_eq]
    exact congrArg (chr '.' :: ·) hNone
  refine ⟨hOne, ?_⟩
  rw [plainName_eq]
  exact congrArg (chr '.' :: ·) hOne

/-
  So many slashes, and no component that leads elsewhere.
-/
def Inside (slashes : Nat) (derived : List Byte) : Prop :=
  derived.count (chr '/') = slashes ∧ ∀ c, c ∈ derived.splitOn (chr '/') →
      c ≠ bytes "." ∧ c ≠ bytes ".."

/- A name without slashes is its only component. -/
theorem inside_zero_iff {derived : List Byte} : Inside 0 derived ↔
      chr '/' ∉ derived ∧ derived ≠ bytes "." ∧ derived ≠ bytes ".." := by
  unfold Inside
  rw [List.count_eq_zero]
  constructor
  · rintro ⟨hNone, hParts⟩
    refine ⟨hNone, ?_⟩
    apply hParts
    rw [List.splitOn_eq_singleton hNone]
    exact List.mem_singleton.mpr rfl
  · rintro ⟨hNone, hParts⟩
    refine ⟨hNone, ?_⟩
    intro c hMem
    rw [List.splitOn_eq_singleton hNone] at hMem
    rw [List.mem_singleton.mp hMem]
    exact hParts

/-
  A folder's directory is the maildir, or a name in it.
-/
def FolderInside (maildir foldername : Option (List Byte)) (path : List Byte) : Prop :=
  if foldername.all isInbox then
    path = maildir.getD (bytes ".")
  else
    ∃ derived, path = under (maildir.getD (bytes ".")) ++ derived ∧ Inside 0 derived

theorem isInbox_nil : isInbox [] = false := by
  decide

/- `maildir_folderdir` stays inside, but for an empty name. -/
theorem maildirFolderdir_inside_iff (maildir foldername : Option (List Byte)) :
    (∀ path, maildirFolderdir maildir foldername = some path →
        FolderInside maildir foldername path) ↔
      foldername ≠ some [] := by
  constructor
  · rintro hInside rfl
    have hPath := hInside _ rfl
    unfold FolderInside at hPath
    rw [Option.all_some, isInbox_nil, if_neg Bool.false_ne_true] at hPath
    rcases hPath with ⟨derived, hSame, hDerived⟩
    have hPeriod := List.append_cancel_left hSame
    exact (inside_zero_iff.mp hDerived).2.1 hPeriod.symm
  · intro hSome path hPath
    cases foldername with
    | none =>
      cases hPath
      unfold FolderInside
      rw [Option.all_none, if_pos rfl]
    | some name =>
      unfold maildirFolderdir at hPath
      simp only [] at hPath
      unfold FolderInside
      rw [Option.all_some]
      cases hInbox : isInbox name with
      | true =>
        rw [hInbox, if_pos rfl] at hPath
        cases hPath
        rw [if_pos rfl]
      | false =>
        rw [hInbox, if_neg Bool.false_ne_true] at hPath
        rw [if_neg Bool.false_ne_true]
        split at hPath
        · cases hPath
        · rename_i hFine
          cases hPath
          refine ⟨_, rfl, inside_zero_iff.mpr ⟨?_, ?_, ?_⟩⟩
          · intro hMem
            apply hFine
            have hIn : chr '/' ∈ name := by
              rcases List.mem_cons.mp hMem with hHead | hIn
              · exact absurd hHead (by decide)
              · exact hIn
            unfold refusesFolder
            rw [List.contains_iff_mem.mpr hIn, Bool.or_true, Bool.true_or]
          · intro hPeriod
            exact hSome (congrArg some (List.cons.inj hPeriod).2)
          · intro hPeriods
            rw [(List.cons.inj hPeriods).2] at hFine
            exact hFine (by decide)

/- What follows a period is not empty and begins otherwise. -/
theorem badPeriods_append {front rest : List Byte}
    (hFine : badPeriods (front ++ chr '.' :: rest) = false) :
    rest ≠ [] ∧ rest.head? ≠ some (chr '.') := by
  induction front with
  | nil =>
    rw [List.nil_append, badPeriods, Bool.or_eq_false_iff,
      decide_eq_true (rfl : chr '.' = chr '.')] at hFine
    cases rest with
    | nil => exact absurd hFine.1 (by decide)
    | cons c rest =>
      refine ⟨List.cons_ne_nil c rest, ?_⟩
      rintro ⟨⟩
      exact absurd hFine.1 (by simp)
  | cons c front ih =>
    rw [List.cons_append, badPeriods, Bool.or_eq_false_iff] at hFine
    exact ih hFine.2

/- `maildir_shareddir` stays inside. -/
theorem maildirShareddir_inside {maildir : Option (List Byte)} {sharedname path : List Byte}
    (hPath : maildirShareddir maildir sharedname = some path) :
    ∃ derived, path = under (maildir.getD (bytes ".")) ++ (SHAREDSUBDIR ++ [chr '/']) ++ derived ∧
        Inside 1 derived := by
  unfold maildirShareddir at hPath
  simp only [] at hPath
  split at hPath
  · cases hPath
  · split at hPath
    · cases hPath
    · rename_i hNames hPeriods
      cases hPath
      refine ⟨_, rfl, ?_⟩
      rw [Bool.or_eq_true, Bool.or_eq_true, not_or, not_or, Bool.not_eq_true', decide_eq_true_iff,
        Bool.not_eq_false, List.contains_iff_mem, List.contains_iff_mem] at hNames
      rcases hNames with ⟨⟨hPeriod, hFirst⟩, hSlash⟩
      rcases List.eq_append_cons_of_mem hPeriod with ⟨front, rest, rfl, hFront⟩
      rw [List.mem_append, not_or, List.mem_cons, not_or] at hSlash
      rcases hSlash with ⟨hLeft, _, hRight⟩
      rcases badPeriods_append (Bool.not_eq_true _ ▸ hPeriods) with ⟨hRest, hHead⟩
      -- both begin with a period
      have hOther : ∀ c : List Byte, c = bytes "." ∨ c = bytes ".." → c.head? = some (chr '.') := by
        rintro c (rfl | rfl)
        · rfl
        · rfl
      unfold slashForPeriod
      rw [cutAt_quoted hFront]
      constructor
      · rw [List.count_append, List.count_cons_self, List.count_eq_zero.mpr hLeft,
          List.count_eq_zero.mpr hRight]
      · intro c hMem
        rw [List.splitOn_append_cons_self_of_not_mem hLeft,
          List.splitOn_eq_singleton hRight] at hMem
        rw [← not_or]
        intro hEither
        have hBegins := hOther c hEither
        rcases List.mem_pair.mp hMem with rfl | rfl
        · exact hFront (List.mem_of_head? hBegins)
        · exact hHead hBegins

/- A file's path is a name in a folder's directory. -/
def FileInside (maildir folder : Option (List Byte)) (path : List Byte) : Prop :=
  ∃ dir derived, maildirFolderdir maildir folder = some dir ∧ FolderInside maildir folder dir ∧
        path = dir ++ bytes "/cur/" ++ derived ∧ Inside 0 derived

/- The entries of a directory have no slashes. -/
def Directories.Sane (disk : Directories) : Prop :=
  ∀ dir entries, disk.readdir dir = some entries → ∀ name, name ∈ entries → chr '/' ∉ name

/- The folder's name breaks the rules. -/
def refusedFolder (folder : Option (List Byte)) : Bool :=
  folder.any fun name => !isInbox name && refusesFolder name

theorem maildirFolderdir_none_iff (maildir folder : Option (List Byte)) :
    maildirFolderdir maildir folder = none ↔ refusedFolder folder = true := by
  unfold maildirFolderdir refusedFolder
  cases folder with
  | none => exact iff_of_false nofun Bool.false_ne_true
  | some name =>
    rw [Option.any_some]
    cases hInbox : isInbox name <;>
      cases hRules : refusesFolder name <;>
        simp [hInbox, hRules]

section Files

variable {maildir folder : Option (List Byte)} {filename dir : List Byte}

theorem inside_filename (hFile : refusesFile filename = false) : Inside 0 filename := by
  unfold refusesFile at hFile
  rw [Bool.or_eq_false_iff, decide_eq_false_iff_not] at hFile
  refine inside_zero_iff.mpr ⟨?_, ?_, ?_⟩
  · intro hMem
    rw [List.contains_iff_mem.mpr hMem] at hFile
    cases hFile.1
  · rintro rfl
    exact hFile.2 rfl
  · rintro rfl
    exact hFile.2 rfl

/- The path is that of the file, or of an entry like it. -/
theorem maildirFilename_cases {disk : Directories} {path : List Byte}
    (hFile : refusesFile filename = false) (hDir : maildirFolderdir maildir folder = some dir)
    (hPath : maildirFilename disk maildir folder filename = some path) :
    ∃ name, path = dir ++ bytes "/cur/" ++ name ∧ (name = filename ∨
        ∃ entries, disk.readdir (dir ++ bytes "/cur") = some entries ∧
          name ∈ entries ∧ plainName name = plainName filename) := by
  unfold maildirFilename at hPath
  rw [hFile, if_neg Bool.false_ne_true, hDir] at hPath
  simp only [] at hPath
  split at hPath
  · cases hPath
    exact ⟨filename, rfl, Or.inl rfl⟩
  · cases hRead : disk.readdir (dir ++ bytes "/cur") with
    | none =>
      rw [hRead] at hPath
      cases hPath
      exact ⟨filename, rfl, Or.inl rfl⟩
    | some entries =>
      rw [hRead] at hPath
      simp only [] at hPath
      cases hFind : entries.find? (sameFilename filename) with
      | none =>
        rw [hFind] at hPath
        cases hPath
        exact ⟨filename, rfl, Or.inl rfl⟩
      | some name =>
        rw [hFind] at hPath
        cases hPath
        have hSame := (sameFilename_iff filename name).mp (List.find?_some hFind)
        exact ⟨name, rfl, Or.inr ⟨entries, rfl, List.mem_of_find?_eq_some hFind, hSame.symm⟩⟩

/- A directory's own entry is taken for the file. -/
theorem plainName_ne_period {period : List Byte} (hFile : refusesFile filename = false)
    (hDir : maildirFolderdir maildir folder = some dir)
    (hInside : ∀ disk : Directories, disk.Sane →
      ∀ path, maildirFilename disk maildir folder filename = some path →
          FileInside maildir folder path)
    (hPeriod : period = bytes "." ∨ period = bytes "..") : plainName filename ≠ period := by
  intro hName
  have hPlain : plainName period = period := by
    rcases hPeriod with rfl | rfl
    · exact plainName_periods.1
    · exact plainName_periods.2
  let disk : Directories :=
    { stat := fun _ => false
      readdir := fun _ => some [period] }
  have hSane : disk.Sane := by
    rintro _ _ ⟨⟩ name hMem
    rw [List.mem_singleton.mp hMem]
    rcases hPeriod with rfl | rfl
    · decide
    · decide
  have hSame : sameFilename filename period = true :=
    (sameFilename_iff filename period).mpr (hName.trans hPlain.symm)
  have hPath : maildirFilename disk maildir folder filename =
      some (dir ++ bytes "/cur/" ++ period) := by
    unfold maildirFilename
    rw [hFile, if_neg Bool.false_ne_true, hDir]
    simp only [disk, List.find?_cons, hSame]
    exact if_neg Bool.false_ne_true
  rcases hInside disk hSane _ hPath with ⟨dir', derived, hDir', _, hEqual, hDerived⟩
  rw [hDir] at hDir'
  cases hDir'
  rw [List.append_cancel_left_eq] at hEqual
  subst hEqual
  have hPlace := inside_zero_iff.mp hDerived
  rcases hPeriod with rfl | rfl
  · exact hPlace.2.1 rfl
  · exact hPlace.2.2 rfl

end Files

/-
  `maildir_filename` stays inside, but for an empty folder and
  for names that are only a period or two without their sizes.
-/
theorem maildirFilename_inside_iff (maildir folder : Option (List Byte)) (filename : List Byte) :
    (∀ disk : Directories, disk.Sane →
        ∀ path, maildirFilename disk maildir folder filename = some path →
            FileInside maildir folder path) ↔
      refusesFile filename = true ∨ refusedFolder folder = true ∨
          (folder ≠ some [] ∧ plainName filename ≠ bytes "." ∧
            plainName filename ≠ bytes "..") := by
  cases hFile : refusesFile filename with
  | true =>
    refine iff_of_true ?_ (Or.inl rfl)
    intro disk _ path hPath
    unfold maildirFilename at hPath
    rw [hFile, if_pos rfl] at hPath
    cases hPath
  | false =>
    cases hDir : maildirFolderdir maildir folder with
    | none =>
      refine iff_of_true ?_ (Or.inr (Or.inl ((maildirFolderdir_none_iff maildir folder).mp hDir)))
      intro disk _ path hPath
      unfold maildirFilename at hPath
      rw [hFile, if_neg Bool.false_ne_true, hDir] at hPath
      cases hPath
    | some dir =>
      have hRules : ¬ refusedFolder folder = true := by
        rw [← maildirFolderdir_none_iff maildir, hDir]
        exact Option.some_ne_none dir
      have hFolder := maildirFolderdir_inside_iff maildir folder
      rw [or_iff_right Bool.false_ne_true, or_iff_right hRules, ← hFolder]
      constructor
      · intro hInside
        refine ⟨?_, plainName_ne_period hFile hDir hInside
          (Or.inl rfl), plainName_ne_period hFile hDir
          hInside (Or.inr rfl)⟩
        have hPath : maildirFilename ⟨fun _ => true, fun _ => none⟩ maildir folder filename =
            some (dir ++ bytes "/cur/" ++ filename) := by
          unfold maildirFilename
          rw [hFile, if_neg Bool.false_ne_true, hDir]
          exact if_pos rfl
        have hSane : Directories.Sane ⟨fun _ => true, fun _ => none⟩ := by
          intro _ _ hRead
          cases hRead
        rcases hInside _ hSane _ hPath with ⟨dir', _, hDir', hPlace, _⟩
        intro path hSame
        rw [hDir', Option.some_inj] at hSame
        exact hSame ▸ hPlace
      · rintro ⟨hPlace, hOne, hTwo⟩ disk hSane path hPath
        rcases maildirFilename_cases hFile hDir hPath with ⟨name, rfl, hName⟩
        refine ⟨dir, name, hDir, hPlace dir hDir, rfl, ?_⟩
        rcases hName with rfl | ⟨entries, hRead, hMem, hSame⟩
        · exact inside_filename hFile
        · refine inside_zero_iff.mpr ⟨hSane _ entries hRead name hMem, ?_, ?_⟩
          · rintro rfl
            exact hOne (hSame.symm.trans plainName_periods.1)
          · rintro rfl
            exact hTwo (hSame.symm.trans plainName_periods.2)

/-
  All paths that come of a client's names stay inside, but for
  an empty folder and for names that are only a period or two
  without their sizes.
-/
theorem paths_inside_iff (maildir folder : Option (List Byte)) (sharedname filename : List Byte) :
    ((∀ path, maildirFolderdir maildir folder = some path → FolderInside maildir folder path) ∧
      (∀ path, maildirShareddir maildir sharedname = some path →
        ∃ derived, path = under (maildir.getD (bytes ".")) ++
              (SHAREDSUBDIR ++ [chr '/']) ++ derived ∧
            Inside 1 derived) ∧
      ∀ disk : Directories, disk.Sane → ∀ path,
          maildirFilename disk maildir folder filename = some path →
            FileInside maildir folder path) ↔
      folder ≠ some [] ∧ (refusesFile filename = true ∨
          refusedFolder folder = true ∨ (plainName filename ≠ bytes "." ∧
              plainName filename ≠ bytes "..")) := by
  rw [maildirFolderdir_inside_iff, maildirFilename_inside_iff,
    and_iff_right fun path => maildirShareddir_inside]
  constructor
  · rintro ⟨hFolder, hFile | hRefused | ⟨_, hName⟩⟩
    · exact ⟨hFolder, Or.inl hFile⟩
    · exact ⟨hFolder, Or.inr (Or.inl hRefused)⟩
    · exact ⟨hFolder, Or.inr (Or.inr hName)⟩
  · rintro ⟨hFolder, hFile | hRefused | hName⟩
    · exact ⟨hFolder, Or.inl hFile⟩
    · exact ⟨hFolder, Or.inr (Or.inl hRefused)⟩
    · exact ⟨hFolder, Or.inr (Or.inr ⟨hFolder, hName⟩)⟩

/- The empty folder is the maildir itself. -/
theorem not_paths_inside : ¬ ∀ (maildir folder : Option (List Byte)) (path : List Byte),
      maildirFolderdir maildir folder = some path → FolderInside maildir folder path := by
  intro hAll
  exact (maildirFolderdir_inside_iff none (some [])).mp (hAll none (some [])) rfl

end Wmail.Maildirpath
