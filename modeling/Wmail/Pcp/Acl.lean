import Wmail.Core.Fgets
import Wmail.Maildir.Maildirfilter
import Wmail.Pcp.IndexLine

/-
  The access list of a calendar (pcpdir.c).

  A list that does not exist is an empty one.  The callback of
  `listacl` returns 0, and what it gets is listed.

  Key theorems include:
    * `Stored.setacl`
    * `updates_iff`
-/

namespace Wmail.Pcpdir

open Maildir (atoi)

/- A string of C. -/
structure CString where
  text : List Byte
  terminated : 0 ∉ text

/- `%d`. -/
def strInt (n : Int32) : List Byte :=
  (if n.toInt < 0 then [chr '-'] else []) ++ decimalDigits 10 n.toInt.natAbs

/- What `fgets` reads into `buf`, as C strings. -/
def aclLines (fp : List Byte) : List (List Byte) :=
  (fgetsAll 1024 fp).map (·.takeWhile (· ≠ 0))

/- The names that `setacl` does not take. -/
def refused (who : List Byte) : Bool :=
  who.contains cr || who.contains nl || 512 < who.length

/- A line that begins with the name, and a blank. -/
def isEntry (who buf : List Byte) : Bool :=
  who.isPrefixOf buf && (buf.drop who.length).head?.any isspace

/- `setacl`. -/
def setacl (acl : List Byte) (who : CString) (flags : Int32) : Option (List Byte) :=
  if refused who.text then
    none
  else
    some (((aclLines acl).filter (!isEntry who.text ·)).flatten ++
      if flags = 0 then [] else who.text ++ tab :: (strInt flags ++ [nl]))

/- A line as `listacl` takes it apart. -/
def aclReport (buf : List Byte) : List Byte × Int32 :=
  (buf.takeWhile (!isspace ·), atoi ((buf.dropWhile (!isspace ·)).drop 1))

/- `listacl`. -/
def listacl (acl : List Byte) : List (List Byte × Int32) :=
  (aclLines acl).map aclReport

/- The list after these calls. -/
def aclAfter (calls : List (CString × Int32)) : List Byte :=
  calls.foldl (fun acl call => (setacl acl call.1 call.2).getD acl) []

/- What is listed for a name. -/
def reports (acl who : List Byte) : List Int32 :=
  ((listacl acl).filter (·.1 = who)).map Prod.snd

/- One name is set, and the others stay as they were. -/
structure Updates (acl acl' who : List Byte) (flags : Int32) : Prop where
  named : reports acl' who = if flags = 0 then [] else [flags]
  others : ∀ other, other ≠ who → reports acl' other = reports acl other

theorem mem_strInt {n : Int32} {b : Byte} (hMem : b ∈ strInt n) :
    b = chr '-' ∨ isdigit b = true := by
  unfold strInt at hMem
  rcases List.mem_append.mp hMem with hSign | hDigit
  · split at hSign
    · exact Or.inl (List.mem_singleton.mp hSign)
    · exact absurd hSign List.not_mem_nil
  · exact Or.inr (isdigit_decimalDigits hDigit)

theorem length_strInt_le (n : Int32) : (strInt n).length ≤ 11 := by
  have hDigits := length_decimalDigits_le 10 n.toInt.natAbs
  unfold strInt
  rw [List.length_append]
  split
  · rw [List.length_singleton]
    omega
  · rw [List.length_nil]
    omega

/- Flags that are printed are read back. -/
theorem atoi_strInt (n : Int32) (rest : List Byte)
    (hRest : ∀ b, rest.head? = some b → isdigit b = false) : atoi (strInt n ++ rest) = n := by
  have hLow := n.le_toInt
  have hHigh := n.toInt_lt
  have hDigits : ∀ b, b ∈ decimalDigits 10 n.toInt.natAbs →
      isdigit b = true := fun b => isdigit_decimalDigits
  have hSome := decimalDigits_ne_nil 9 n.toInt.natAbs
  have hRoom : n.toInt.natAbs < 10 ^ 10 := by omega
  have hValue := decimalValue_decimalDigits hRoom
  have hScan : scanInt (strInt n ++ rest) = some (n.toInt, rest) := by
    have hNumeral := @scanInt_numeral [] _ rest (decide (n.toInt < 0)) nofun hDigits hSome hRest
    rw [hValue, List.nil_append] at hNumeral
    unfold strInt
    simp only [decide_eq_true_eq] at hNumeral
    rw [hNumeral]
    congr 2
    split
    · omega
    · omega
  apply Int32.toInt_inj.mp
  exact Maildir.atoi_of_scanInt hScan hLow hHigh

/- A list with these lines, which `fgets` reads as they are. -/
structure Stored (lines : List (List Byte)) (acl : List Byte) : Prop where
  text : acl = lines.flatMap (· ++ [nl])
  line : ∀ line, line ∈ lines → nl ∉ line ∧ 0 ∉ line ∧ line.length + 1 < 1024

variable {lines : List (List Byte)}

theorem Stored.aclLines {acl : List Byte} (hStored : Stored lines acl) :
    aclLines acl = lines.map (· ++ [nl]) := by
  rcases hStored with ⟨rfl, hLine⟩
  unfold Pcpdir.aclLines
  induction lines with
  | nil => rfl
  | cons line lines ih =>
    rcases hLine line List.mem_cons_self with ⟨hNl, hNul, hShort⟩
    have hRest := ih fun other hMem => hLine other (List.mem_cons_of_mem line hMem)
    have hWhole : (line ++ [nl]).takeWhile (· ≠ 0) = line ++ [nl] := by
      apply takeWhile_unclosed
      rw [List.mem_append, List.mem_singleton, not_or]
      exact ⟨hNul, by decide⟩
    rw [List.flatMap_cons, List.append_assoc, List.singleton_append, fgetsAll_line hNl hShort,
      List.map_cons, List.map_cons, hWhole, hRest]

theorem not_refused_iff (who : List Byte) : refused who = false ↔
      cr ∉ who ∧ nl ∉ who ∧ who.length ≤ 512 := by
  unfold refused
  simp [and_assoc]

/- Each call keeps such a list. -/
theorem Stored.setacl {acl acl' : List Byte} {who : CString} {flags : Int32}
    (hStored : Stored lines acl) (hSet : setacl acl who flags = some acl') :
    Stored (lines.filter (fun line => !isEntry who.text (line ++ [nl])) ++
      if flags = 0 then [] else [who.text ++ tab :: strInt flags])
      acl' := by
  have hLines := hStored.aclLines
  unfold Pcpdir.setacl at hSet
  split at hSet
  · cases hSet
  rename_i hAccepted
  rcases (not_refused_iff who.text).mp (Bool.eq_false_iff.mpr hAccepted) with ⟨_, hNl, hShort⟩
  rw [hLines, List.filter_map] at hSet
  refine ⟨?_, ?_⟩
  · rw [← Option.some.inj hSet, List.flatMap_append]
    congr 1
    split
    · rfl
    · rw [List.flatMap_singleton, List.append_assoc]
      rfl
  · intro line hMem
    rcases List.mem_append.mp hMem with hOld | hNew
    · exact hStored.line line (List.mem_filter.mp hOld).1
    · split at hNew
      · exact absurd hNew List.not_mem_nil
      have hOther : ∀ b, b ∈ tab :: strInt flags → b ≠ nl ∧ b ≠ 0 := by
        intro b hIn
        rcases List.mem_cons.mp hIn with rfl | hDigit
        · decide
        rcases mem_strInt hDigit with rfl | hDigit
        · decide
        · refine ⟨?_, ?_⟩
          · rintro rfl
            exact absurd hDigit (by decide)
          · rintro rfl
            exact absurd hDigit (by decide)
      have hLength := length_strInt_le flags
      rw [List.mem_singleton.mp hNew]
      refine ⟨?_, ?_, ?_⟩
      · rw [List.mem_append, not_or]
        exact ⟨hNl, fun hIn => (hOther nl hIn).1 rfl⟩
      · rw [List.mem_append, not_or]
        exact ⟨who.terminated, fun hIn => (hOther 0 hIn).2 rfl⟩
      · rw [List.length_append, List.length_cons]
        omega

/- So does a run of calls. -/
theorem exists_stored (calls : List (CString × Int32)) :
    ∃ lines, Stored lines (aclAfter calls) := by
  have hFrom : ∀ acl lines, Stored lines acl → ∃ lines', Stored lines' (calls.foldl
        (fun acl call => (setacl acl call.1 call.2).getD acl) acl) := by
    induction calls with
    | nil =>
      intro acl lines hStored
      exact ⟨lines, hStored⟩
    | cons call calls ih =>
      intro acl lines hStored
      cases hSet : setacl acl call.1 call.2 with
      | none =>
        rw [List.foldl_cons, hSet]
        exact ih acl lines hStored
      | some acl' =>
        rw [List.foldl_cons, hSet]
        exact ih acl' _ (hStored.setacl hSet)
  exact hFrom [] [] ⟨rfl, nofun⟩

/- A name without blanks. -/
def Unbroken (who : List Byte) : Prop :=
  ∀ b, b ∈ who → isspace b = false

/- A line is a name, a blank, and the rest. -/
theorem exists_blank (line : List Byte) : ∃ name b rest, line ++ [nl] = name ++ b :: rest ∧
      Unbroken name ∧ isspace b = true := by
  have hSplit := List.takeWhile_append_dropWhile (p := (!isspace ·)) (l := line ++ [nl])
  have hName : Unbroken ((line ++ [nl]).takeWhile (!isspace ·)) := by
    intro b hMem
    exact Bool.not_eq_true' _ ▸ forall_takeWhile _ _ b hMem
  cases hRest : (line ++ [nl]).dropWhile (!isspace ·) with
  | nil =>
    rw [hRest, List.append_nil] at hSplit
    have hNl := hName nl (by
      rw [hSplit]
      exact List.mem_append_right line (List.mem_singleton_self nl))
    exact absurd hNl (by decide)
  | cons b rest =>
    have hBlank := head_dropWhile_stop b (by
      rw [hRest]
      rfl)
    refine ⟨_, b, rest, ?_, hName, ?_⟩
    · rw [← hRest]
      exact hSplit.symm
    · rwa [Bool.not_eq_false'] at hBlank

theorem aclReport_split {name : List Byte} {b : Byte} (hName : Unbroken name)
    (hBlank : isspace b = true) (rest : List Byte) :
    aclReport (name ++ b :: rest) = (name, atoi rest) := by
  have hRun : ∀ c, c ∈ name → (!isspace c) = true := by
    intro c hMem
    rw [hName c hMem]
    rfl
  have hStop : ∀ c, (b :: rest).head? = some c → (!isspace c) = false := by
    intro c hHead
    cases hHead
    rw [hBlank]
    rfl
  unfold aclReport
  rw [takeWhile_run hRun hStop, dropWhile_run hRun hStop]
  rfl

/- The name that is listed of a line. -/
def listedName (line : List Byte) : List Byte :=
  (aclReport (line ++ [nl])).1

theorem unbroken_listedName (line : List Byte) : Unbroken (listedName line) := by
  rcases exists_blank line with ⟨name, b, rest, hLine, hName, hBlank⟩
  unfold listedName
  rw [hLine, aclReport_split hName hBlank]
  exact hName

/- A name without blanks finds the lines that list it. -/
theorem isEntry_iff {who : List Byte} (hWho : Unbroken who) (line : List Byte) :
    isEntry who (line ++ [nl]) = true ↔ listedName line = who := by
  rcases exists_blank line with ⟨name, b, rest, hLine, hName, hBlank⟩
  unfold isEntry listedName
  rw [hLine, aclReport_split hName hBlank, Bool.and_eq_true, List.isPrefixOf_iff_prefix]
  constructor
  · rintro ⟨⟨more, hMore⟩, hNext⟩
    rw [← hMore, List.drop_left, Option.any_eq_true] at hNext
    rcases hNext with ⟨c, hHead, hSpace⟩
    cases more with
    | nil => cases hHead
    | cons d more =>
      cases hHead
      have hOne := aclReport_split hWho hSpace more
      rw [hMore, aclReport_split hName hBlank] at hOne
      exact congrArg Prod.fst hOne
  · rintro rfl
    refine ⟨List.prefix_append _ _, ?_⟩
    rw [List.drop_left]
    exact hBlank

theorem Stored.reports {acl : List Byte} (hStored : Stored lines acl) (who : List Byte) :
    reports acl who = (lines.filter (listedName · = who)).map
        fun line => (aclReport (line ++ [nl])).2 := by
  unfold Pcpdir.reports listacl
  rw [hStored.aclLines, List.map_map, List.filter_map, List.map_map]
  rfl

section Updates

variable {lines : List (List Byte)} {acl acl' : List Byte} {who : CString} {flags : Int32}

/- What is listed of the line that is added. -/
theorem reports_added (hWho : Unbroken who.text) (flags : Int32) :
    aclReport (who.text ++ tab :: strInt flags ++ [nl]) = (who.text, flags) := by
  have hTab : isspace tab = true := by decide
  have hStop : ∀ b, [nl].head? = some b → isdigit b = false := by
    intro b hHead
    cases hHead
    rfl
  rw [List.append_assoc, List.cons_append, aclReport_split hWho hTab, atoi_strInt flags [nl] hStop]

/- A name without blanks is set. -/
theorem Updates.of_unbroken (hStored : Stored lines acl)
    (hSet : setacl acl who flags = some acl') (hWho : Unbroken who.text) :
    Updates acl acl' who.text flags := by
  have hStored' := hStored.setacl hSet
  have hAdded := reports_added hWho flags
  have hEntry : ∀ line, (!isEntry who.text (line ++ [nl])) =
        decide (listedName line ≠ who.text) := by
    intro line
    rw [Bool.eq_iff_iff, Bool.not_eq_true', decide_eq_true_iff, ← Bool.not_eq_true,
      isEntry_iff hWho]
  simp only [hEntry] at hStored'
  refine ⟨?_, ?_⟩
  · have hNone : (lines.filter (fun line => listedName line ≠ who.text)).filter
          (listedName · = who.text) = [] := by
      rw [List.filter_filter, List.filter_eq_nil_iff]
      intro line _
      simp
    rw [hStored'.reports, List.filter_append, hNone, List.nil_append]
    split
    · rfl
    · have hName : listedName (who.text ++ tab :: strInt flags) = who.text :=
        congrArg Prod.fst hAdded
      rw [List.filter_cons_of_pos (by
        rw [decide_eq_true_iff]
        exact hName)]
      exact congrArg (fun report => [report.2]) hAdded
  · intro other hOther
    have hSame : (lines.filter (fun line => listedName line ≠ who.text)).filter
          (listedName · = other) = lines.filter (listedName · = other) := by
      rw [List.filter_filter]
      apply List.filter_congr
      intro line _
      by_cases hHere : listedName line = other
      · simp [hHere, hOther]
      · simp [hHere]
    rw [hStored'.reports, hStored.reports, List.filter_append, hSame]
    split
    · rw [List.filter_nil, List.append_nil]
    · have hName : listedName (who.text ++ tab :: strInt flags) = who.text :=
        congrArg Prod.fst hAdded
      rw [List.filter_cons_of_neg (by
        rw [hName, decide_eq_true_iff]
        exact hOther.symm), List.filter_nil, List.append_nil]

/- A name with blanks is never listed. -/
theorem reports_broken (hStored : Stored lines acl) {who : List Byte}
    (hWho : ¬ Unbroken who) : reports acl who = [] := by
  rw [hStored.reports, List.map_eq_nil_iff, List.filter_eq_nil_iff]
  intro line _ hName
  rw [decide_eq_true_iff] at hName
  exact hWho (hName ▸ unbroken_listedName line)

/-
  Lines go with a name that has blanks; another name is listed
  of them.
-/
theorem updates_broken_iff (hStored : Stored lines acl)
    (hSet : setacl acl who flags = some acl') (hWho : ¬ Unbroken who.text) :
    Updates acl acl' who.text flags ↔ flags = 0 ∧
        ∀ buf, buf ∈ aclLines acl → isEntry who.text buf = false := by
  have hStored' := hStored.setacl hSet
  have hNone := reports_broken hStored' hWho
  rw [hStored.aclLines, List.forall_mem_map]
  constructor
  · intro hUpdates
    have hNamed := hUpdates.named
    rw [hNone] at hNamed
    by_cases hZero : flags = 0
    · refine ⟨hZero, ?_⟩
      intro line hMem
      have hOther : listedName line ≠ who.text := fun hSame =>
        hWho (hSame ▸ unbroken_listedName line)
      have hKept := hUpdates.others _ hOther
      rw [hStored'.reports, hStored.reports, if_pos hZero,
        List.append_nil, List.filter_comm] at hKept
      have hCount := congrArg List.length hKept
      rw [List.length_map, List.length_map, List.length_filter_eq_length_iff] at hCount
      have hLine := hCount line (List.mem_filter.mpr ⟨hMem, decide_eq_true rfl⟩)
      rwa [Bool.not_eq_true'] at hLine
    · rw [if_neg hZero] at hNamed
      cases hNamed
  · rintro ⟨rfl, hFree⟩
    have hAll : lines.filter (fun line => !isEntry who.text (line ++ [nl])) = lines := by
      apply List.filter_eq_self.mpr
      intro line hMem
      rw [hFree line hMem]
      rfl
    rw [hAll, if_pos rfl, List.append_nil] at hStored'
    refine ⟨hNone, ?_⟩
    intro other _
    rw [hStored'.reports, hStored.reports]

end Updates

/-
  Exactly which calls update the list as a map: those with a
  name without blanks, and those that set nothing and find no
  line.
-/
theorem updates_iff (calls : List (CString × Int32)) (who : CString) (flags : Int32)
    {acl' : List Byte} (hSet : setacl (aclAfter calls) who flags = some acl') :
    Updates (aclAfter calls) acl' who.text flags ↔ Unbroken who.text ∨
        flags = 0 ∧ ∀ buf, buf ∈ aclLines (aclAfter calls) → isEntry who.text buf = false := by
  rcases exists_stored calls with ⟨lines, hStored⟩
  by_cases hWho : Unbroken who.text
  · exact iff_of_true (.of_unbroken hStored hSet hWho) (Or.inl hWho)
  · rw [updates_broken_iff hStored hSet hWho, or_iff_right hWho]

def john : CString :=
  ⟨bytes "john", by decide⟩

def johnDoe : CString :=
  ⟨bytes "john doe", by decide⟩

theorem updates_john : setacl (aclAfter [(johnDoe, 2)]) john 3 = some (bytes "john\t3\n") ∧
      Updates (aclAfter [(johnDoe, 2)]) (bytes "john\t3\n") john.text 3 := by
  have hSet : setacl (aclAfter [(johnDoe, 2)]) john 3 = some (bytes "john\t3\n") := by decide
  have hAll : john.text.all (!isspace ·) = true := by decide
  have hJohn : Unbroken john.text := by
    intro b hMem
    exact Bool.not_eq_true' _ ▸ List.all_eq_true.mp hAll b hMem
  exact ⟨hSet, (updates_iff [(johnDoe, 2)] john 3 hSet).mpr (Or.inl hJohn)⟩

/- A name with a blank is listed up to it. -/
theorem not_updates : ¬ ∀ (calls : List (CString × Int32)) (who : CString)
      (flags : Int32) (acl' : List Byte),
        setacl (aclAfter calls) who flags = some acl' →
          Updates (aclAfter calls) acl' who.text flags := by
  intro hAll
  have hNamed := (hAll [] johnDoe 2 (bytes "john doe\t2\n") (by decide)).named
  exact absurd hNamed (by decide)

end Wmail.Pcpdir
