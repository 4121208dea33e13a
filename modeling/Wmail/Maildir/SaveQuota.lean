import Wmail.Maildir.Closemsg

/-
  When a message that is saved is booked as it is counted.

  Key theorems include:
    * `saved_counts`
    * `saveExact_iff`
-/

namespace Wmail.Maildir

/- What a file adds to the totals, as they are computed. -/
def Message.summand (msg : Message) : Int64 × Int32 :=
  if msg.counts then (msg.countedSize, 1) else (0, 0)

theorem ofInt_weight (msg : Message) : Int64.ofInt msg.weight = msg.summand.1 := by
  unfold Message.weight Message.summand
  split
  · exact Int64.ofInt_toInt _
  · rfl

theorem counted_append (files : List Message) (msg : Message) :
    counted (files ++ [msg]) = addTotals (counted files) msg.summand := by
  have hSize : Int64.ofInt (usage (files ++ [msg])) =
      Int64.ofInt (usage files) + msg.summand.1 := by
    rw [usage_append_singleton, Int64.ofInt_add, ofInt_weight]
  have hCount : Int32.ofInt ((files ++ [msg]).countP Message.counts) =
        Int32.ofInt (files.countP Message.counts) + msg.summand.2 := by
    rw [List.countP_append, Int.natCast_add, Int32.ofInt_add]
    congr 1
    unfold Message.summand
    cases hCounts : msg.counts with
    | true => simp [hCounts]
    | false => simp [hCounts]
  unfold counted addTotals
  rw [hSize, hCount]

theorem counted_perm {files files' : List Message} (hPerm : files.Perm files') :
    counted files = counted files' := by
  have hSum : usage files = usage files' := (hPerm.map Message.weight).sum_eq
  unfold counted
  rw [hSum, hPerm.countP_eq]

theorem counted_erase {files : List Message} {msg : Message} (hMem : msg ∈ files) :
    counted files = addTotals (counted (files.erase msg)) msg.summand := by
  rw [← counted_append]
  apply counted_perm
  exact (List.perm_cons_erase hMem).trans (List.perm_append_singleton msg (files.erase msg)).symm

theorem addTotals_cancel {size : Maildirquota} {a b : Int64 × Int32} :
    addTotals size a = addTotals size b ↔ a = b := by
  unfold addTotals
  simp only [Maildirquota.mk.injEq, Int64.add_right_inj, Int32.add_right_inj]
  exact (Prod.ext_iff).symm

theorem addTotals_addTotals (size : Maildirquota) (a b : Int64 × Int32) :
    addTotals (addTotals size a) b = addTotals size (a.1 + b.1, a.2 + b.2) := by
  unfold addTotals
  simp only [Int64.add_assoc, Int32.add_assoc]

theorem addTotals_zero (size : Maildirquota) : addTotals size (0, 0) = size := by
  unfold addTotals
  simp

/- No colon, no flags. -/
theorem countfile_append {front : List Byte} (hFront : chr ':' ∉ front) (rest : List Byte) :
    countfile (front ++ rest) = countfile rest := by
  induction front with
  | nil => rfl
  | cons c front ih =>
    rw [List.mem_cons, not_or] at hFront
    rw [List.cons_append, countfile, if_neg fun hBoth => hFront.1 hBoth.1.symm, ih hFront.2]

theorem colon_sizeText (s : UInt64) : chr ':' ∉ sizeText s := by
  intro hMem
  rcases List.mem_append.mp hMem with hField | hDigit
  · exact absurd hField (by decide)
  · exact absurd (isdigit_decimalDigits hDigit) (by decide)

/- The flags stay. -/
theorem countfile_requotaLoop (s : UInt64) (name : List Byte) :
    countfile (requotaLoop (sizeText s) name) = countfile name := by
  have hJoin := sizeField_join name
  have hField : chr ':' ∉ (sizeField name).2.1 := by
    rcases sizeField_field name with hNone | ⟨digits, hDigits, hEq⟩
    · rw [hNone]
      exact List.not_mem_nil
    · rw [hEq]
      intro hMem
      rcases List.mem_append.mp hMem with hHere | hDigit
      · exact absurd hHere (by decide)
      · exact absurd (hDigits _ hDigit) (by decide)
  rw [requotaLoop_eq, List.append_assoc, countfile_append (colon_sizeField name),
    countfile_append (colon_sizeText s)]
  nth_rewrite 2 [← hJoin]
  rw [List.append_assoc, countfile_append (colon_sizeField name), countfile_append hField]

/- A name is hidden as before. -/
theorem head_requotaLoop (s : UInt64) (name : List Byte) :
    (requotaLoop (sizeText s) name).head? = some (chr '.') ↔ name.head? = some (chr '.') := by
  have hText : (sizeText s).head? = some (chr ',') := rfl
  have hFirst : ∀ rest, (sizeText s ++ rest).head? ≠ some (chr '.') := by
    intro rest
    rw [List.head?_append, hText, Option.some_or]
    decide
  cases name with
  | nil =>
    rw [requotaLoop]
    constructor
    · intro hHead
      rw [hText] at hHead
      exact absurd hHead (by decide)
    · intro hHead
      cases hHead
  | cons c rest =>
    rw [requotaLoop]
    split
    · rename_i hField
      apply iff_of_false (hFirst _)
      rw [hField.1, List.head?_cons]
      decide
    · split
      · rename_i hColon
        apply iff_of_false (hFirst _)
        rw [hColon, List.head?_cons]
        decide
      · rfl

/- The other files, without the one that is written again. -/
def othersThan (files : List Message) (found : Option Message) : List Message :=
  match found with
  | some msg => files.erase msg
  | none => files

/-
  A message is kept, in a folder that is counted, under a name
  without flags that no other file has; `prevsize` is the size
  of the file that is written again, or 0.
-/
structure Save.Proper (c : Save) (s : QuotaStore) (dir : List Byte) : Prop where
  folder : countfolder dir = true
  keeps : c.isok = 1 ∨ c.isok = -1
  named : Maildirpath.refusesFile c.retname = false ∧ chr ':' ∉ c.retname
  sized : 0 ≤ c.stSize
  previous : ∀ msg, maildirFind s.files dir c.retname = some msg →
    0 < msg.size ∧ c.prevsize = msg.size.toUInt64
  new : maildirFind s.files dir c.retname = none → c.prevsize = 0
  alone : ∀ msg, msg ∈ othersThan s.files (maildirFind s.files dir c.retname) →
      msg.samePath (c.saved dir (maildirFind s.files dir c.retname)) = false

/- The quota has no room, and the saving is not forced. -/
def Save.Refused (c : Save) (s : QuotaStore) : Prop :=
  c.isok = 1 ∧ c.prevsize < c.stSize.toUInt64 ∧
    (quotaAddStart s c.recent c.difference c.messages).1 = false

/-
  A new message is not empty, and its name states its size.
  The size that is counted of another one changes as the size
  of the file does.
-/
def Save.Fine (c : Save) (s : QuotaStore) (dir : List Byte) : Prop :=
  let found := maildirFind s.files dir c.retname
  match found with
  | none => c.stSize ≠ 0 ∧ (c.saved dir found).countedSize = c.stSize
  | some msg =>
    if msg.counts then
      (c.saved dir found).countedSize - msg.countedSize = c.stSize - msg.size
    else
      c.stSize = msg.size

/- The difference of the sizes, and whether it is new. -/
def Save.change (c : Save) (found : Option Message) : Int64 × Int32 :=
  match found with
  | none => (c.stSize, 1)
  | some msg => (c.stSize - msg.size, 0)

/-
  The message was discarded and nothing has changed; or it is
  in the folder, and the totals have changed as they should
  and are what is counted.
-/
def SaveExact (s : QuotaStore) (dir : List Byte) (c : Save) : Prop :=
  let found := maildirFind s.files dir c.retname
  let out := maildirClosemsg s dir c
  (out.1 = -1 ∧ out.2.files = s.files ∧
      out.2.file.map recordedTotals = s.file.map recordedTotals) ∨
    (c.saved dir found ∈ out.2.files ∧
      out.2.file.map recordedTotals = s.file.map (fun file =>
          addTotals (recordedTotals file) (c.change found)) ∧
      out.2.file.map recordedTotals = out.2.file.map fun _ => counted out.2.files)

------------
-- What the Quota Is Told
------------

section Told

variable {s : QuotaStore} {dir : List Byte} {c : Save} {file : List Byte}
variable {lines : List (Int64 × Int32)}

/- The difference is that of two sizes. -/
theorem difference_eq (hProper : c.Proper s dir) : (c.difference, c.messages) =
      c.change (maildirFind s.files dir c.retname) := by
  unfold Save.difference Save.messages Save.change
  cases hFind : maildirFind s.files dir c.retname with
  | none =>
    rw [hProper.new hFind, if_pos rfl]
    simp
  | some msg =>
    rcases hProper.previous msg hFind with ⟨hPos, hSize⟩
    have hNonzero : msg.size.toUInt64 ≠ 0 := by
      intro hZero
      have hBack := congrArg UInt64.toInt64 hZero
      rw [Int64.toInt64_toUInt64] at hBack
      rw [hBack] at hPos
      exact absurd hPos (by decide)
    rw [hSize, if_neg hNonzero, UInt64.toInt64_sub, Int64.toInt64_toUInt64, Int64.toInt64_toUInt64]

/- The difference of two sizes is not the least number. -/
theorem difference_ne (hProper : c.Proper s dir) : c.difference ≠ Int64.minValue := by
  have hEq := congrArg Prod.fst (difference_eq hProper)
  have hSized := Int64.le_iff_toInt_le.mp hProper.sized
  have hHigh := c.stSize.toInt_lt
  have hZero : (0 : Int64).toInt = 0 := rfl
  have hLeast : Int64.minValue.toInt = -2 ^ 63 := rfl
  simp only [] at hEq
  rw [hEq]
  unfold Save.change
  intro hMin
  have hInt := congrArg Int64.toInt hMin
  cases hFind : maildirFind s.files dir c.retname with
  | none =>
    rw [hFind] at hInt
    simp only [] at hInt
    omega
  | some msg =>
    have hPos := Int64.lt_iff_toInt_lt.mp (hProper.previous msg hFind).1
    have hLess := msg.size.toInt_lt
    rw [hFind] at hInt
    simp only [] at hInt
    rw [Int64.toInt_sub, Int.bmod_eq_of_le (by omega) (by omega)] at hInt
    omega

/- A line after a check. -/
theorem quotaDeleted_recorded (hFile : s.file = some file)
    (hSettled : Settled s.files file lines) (recent : Bool) {size : Int64}
    (hSize : size ≠ Int64.minValue) (cnt : Int32) :
    (quotaDeleted s recent size cnt).files = s.files ∧
      ∃ file', (quotaDeleted s recent size cnt).file = some file' ∧
          recordedTotals file' = addTotals (counted s.files) (size, cnt) := by
  rcases hSettled.docheckquotaOpen recent (openquotafile file) size cnt with ⟨lines', hAfter⟩
  unfold quotaDeleted
  rw [hFile, Option.map_some]
  exact ⟨rfl, _, rfl, hAfter.add _ hSize cnt⟩

/- What is told: nothing, or the difference. -/
theorem tellQuota_spec (hFile : s.file = some file) (hSettled : Settled s.files file lines)
    (hProper : c.Proper s dir) :
    (c.tellQuota s).2.files = s.files ∧
      ∃ file', (c.tellQuota s).2.file = some file' ∧ ((c.Refused s ∧ (c.tellQuota s).1 = 0 ∧
              recordedTotals file' = counted s.files) ∨
            (¬ c.Refused s ∧ (c.tellQuota s).1 ≠ 0 ∧
              ((c.tellQuota s).1 = -2 → c.prevsize ≠ c.stSize.toUInt64) ∧
              recordedTotals file' =
                if c.prevsize = c.stSize.toUInt64 then
                  counted s.files
                else
                  addTotals (counted s.files) (c.difference, c.messages))) := by
  have hLeast := difference_ne hProper
  have hKeeps := hProper.keeps
  have hKept : c.isok ≠ 0 ∧ c.isok ≠ -2 := by omega
  by_cases hLess : c.prevsize < c.stSize.toUInt64
  · have hDiffers : c.prevsize ≠ c.stSize.toUInt64 := by
      intro hEq
      rw [hEq] at hLess
      exact absurd hLess (UInt64.lt_irrefl _)
    rcases hSettled.docheckquotaOpen c.recent (openquotafile file)
      c.difference c.messages with ⟨lines', hAfter⟩
    unfold Save.Refused Save.tellQuota quotaAddStart
    rw [if_neg hKept.1, if_pos hLess, hFile]
    simp only []
    generalize docheckquotaOpen s.files c.recent (openquotafile file)
      file c.difference c.messages = checked at hAfter
    cases hRoom : checked.room with
    | true =>
      simp only [if_true]
      unfold quotaAddEnd
      simp only [Option.map_some]
      refine ⟨trivial, _, rfl, Or.inr ⟨?_, hKept.1, ?_, ?_⟩⟩
      · rintro ⟨_, _, hNo⟩
        cases hNo
      · intro hForced
        exact absurd hForced hKept.2
      · rw [if_neg hDiffers]
        exact hAfter.add _ hLeast c.messages
    | false =>
      simp only [Bool.false_eq_true, if_false]
      unfold quotaAddEnd
      rcases hKeeps with hNormal | hForced
      · rw [if_neg (by omega)]
        exact ⟨rfl, _, rfl, Or.inl ⟨⟨hNormal, hLess, trivial⟩, rfl, hAfter.recorded⟩⟩
      · rw [if_pos (by omega)]
        have hDeleted := @quotaDeleted_recorded { s with file := some checked.file } checked.file
          lines' rfl hAfter c.recentAgain c.difference hLeast
          c.messages
        rcases hDeleted with ⟨hFiles, file', hText, hTotals⟩
        refine ⟨hFiles, file', hText, Or.inr ⟨?_, ?_, ?_, ?_⟩⟩
        · rintro ⟨hNormal, _⟩
          omega
        · exact (by decide : (-2 : Int) ≠ 0)
        · exact fun _ => hDiffers
        · rw [if_neg hDiffers]
          exact hTotals
  · have hNot : ¬ c.Refused s := fun hRefused => hLess hRefused.2.1
    unfold Save.tellQuota
    rw [if_neg hKept.1, if_neg hLess]
    by_cases hEq : c.prevsize = c.stSize.toUInt64
    · rw [if_neg (not_not.mpr hEq)]
      refine ⟨rfl, file, hFile, Or.inr ⟨hNot, hKept.1, ?_, ?_⟩⟩
      · intro hForced
        exact absurd hForced hKept.2
      · rw [if_pos hEq]
        exact hSettled.recorded
    · rw [if_pos hEq]
      rcases quotaDeleted_recorded hFile hSettled c.recent hLeast
        c.messages with ⟨hFiles, file', hText, hTotals⟩
      refine ⟨hFiles, file', hText, Or.inr ⟨hNot, hKept.1, ?_, ?_⟩⟩
      · intro hForced
        exact absurd hForced hKept.2
      · rw [if_neg hEq]
        exact hTotals

theorem maildirFind_some {files : List Message} {filename : List Byte} {msg : Message}
    (hFind : maildirFind files dir filename = some msg) : msg ∈ files ∧ msg.place = .own dir := by
  have hEntry : msg ∈ files.filter fun (msg : Message) =>
      msg.place = .own dir && msg.sub = .cur := by
    unfold maildirFind at hFind
    simp only [] at hFind
    split at hFind
    · cases hFind
    · split at hFind
      · rename_i hExact
        cases hFind
        exact List.mem_of_find?_eq_some hExact
      · exact List.mem_of_find?_eq_some hFind
  rcases List.mem_filter.mp hEntry with ⟨hMem, hTests⟩
  rw [Bool.and_eq_true, decide_eq_true_iff] at hTests
  exact ⟨hMem, hTests.1⟩

/- A new message is counted. -/
theorem saved_counts_new (hProper : c.Proper s dir) : (c.saved dir none).counts = true := by
  have hName : countfile (c.retname ++ bytes ":2,S") = true := by
    rw [countfile_append hProper.named.2]
    decide
  have hVisible : (c.retname ++ bytes ":2,S").head? ≠ some (chr '.') := by
    have hRefuses := hProper.named.1
    unfold Maildirpath.refusesFile at hRefuses
    rw [Bool.or_eq_false_iff, decide_eq_false_iff_not] at hRefuses
    cases hText : c.retname with
    | nil =>
      rw [List.nil_append]
      decide
    | cons b rest =>
      rw [hText] at hRefuses
      exact hRefuses.2
  have hHead := (head_requotaLoop c.stSize.toUInt64 (c.retname ++ bytes ":2,S")).not.mpr hVisible
  unfold Message.counts Save.saved Place.counts
  simp only []
  rw [hProper.folder, countfile_requotaLoop, hName, decide_eq_true hHead]
  rfl

/- A message that is written again is counted as before. -/
theorem saved_counts_again {msg : Message} (hPlace : msg.place = .own dir) :
    (c.saved dir (some msg)).counts = msg.counts := by
  have hHead : decide ((requotaLoop (sizeText c.stSize.toUInt64) msg.name).head? ≠ some (chr '.')) =
      decide (msg.name.head? ≠ some (chr '.')) :=
    decide_eq_decide.mpr (head_requotaLoop _ _).not
  unfold Message.counts Save.saved
  simp only []
  rw [hPlace, countfile_requotaLoop, hHead]

/- What the message has to count for then. -/
def summandAfter (change : Int64 × Int32) : Option Message → Int64 × Int32
  | none => change
  | some msg => (msg.summand.1 + change.1, msg.summand.2 + change.2)

/- What is counted once the message is there. -/
theorem counted_saved {files : List Message} {found : Option Message}
    (hFound : ∀ msg, found = some msg → msg ∈ files) (saved : Message) (change : Int64 × Int32) :
    counted (othersThan files found ++ [saved]) = addTotals (counted files) change ↔
      saved.summand = summandAfter change found := by
  rw [counted_append]
  cases found with
  | none => exact addTotals_cancel
  | some msg =>
    have hErase := counted_erase (hFound msg rfl)
    unfold othersThan
    simp only []
    rw [hErase, addTotals_addTotals]
    exact addTotals_cancel

/- No other file has the path, so none is lost. -/
theorem closemsg_files (hFiles : (c.tellQuota s).2.files = s.files)
    (hProper : c.Proper s dir) (hKept : (c.tellQuota s).1 ≠ 0) :
    (maildirClosemsg s dir c).2.files =
      othersThan s.files (maildirFind s.files dir c.retname) ++
        [c.saved dir (maildirFind s.files dir c.retname)] := by
  have hAlone : (othersThan s.files (maildirFind s.files dir c.retname)).filter
        (!·.samePath (c.saved dir (maildirFind s.files dir c.retname))) =
      othersThan s.files (maildirFind s.files dir c.retname) := by
    rw [List.filter_eq_self]
    intro msg hMem
    rw [hProper.alone msg hMem]
    rfl
  unfold maildirClosemsg
  simp only [hFiles]
  rw [if_pos hKept]
  exact congrArg (· ++ [_]) hAlone

/- The condition is that of the summands. -/
theorem fine_iff (hProper : c.Proper s dir)
    (hNew : maildirFind s.files dir c.retname = none → c.stSize ≠ 0) :
    (c.saved dir
        (maildirFind s.files dir c.retname)).summand =
        summandAfter (c.change (maildirFind s.files dir c.retname))
          (maildirFind s.files dir c.retname) ↔
      c.Fine s dir := by
  unfold Save.Fine summandAfter
  cases hFind : maildirFind s.files dir c.retname with
  | none =>
    unfold Message.summand Save.change
    rw [saved_counts_new hProper, if_pos rfl]
    simp [hNew hFind]
  | some msg =>
    have hCounts := @saved_counts_again dir c msg (maildirFind_some hFind).2
    unfold Message.summand Save.change
    rw [hCounts]
    cases hMsg : msg.counts with
    | true =>
      simp only [hMsg, if_true, Prod.mk.injEq, Int32.add_zero, and_true]
      constructor
      · intro hSum
        rw [hSum, Int64.add_comm, Int64.add_sub_cancel]
      · intro hSub
        rw [← hSub, Int64.add_comm, Int64.sub_add_cancel]
    | false =>
      simp only [hMsg, Bool.false_eq_true, if_false, Prod.mk.injEq, Int32.add_zero, and_true,
        Int64.zero_add]
      constructor
      · intro hZero
        have hBack := congrArg (· + msg.size) hZero
        simp only [Int64.zero_add, Int64.sub_add_cancel] at hBack
        exact hBack.symm
      · intro hSame
        rw [hSame, Int64.sub_self]

------------
-- Saving is Exact
------------

/- What is there already cannot be what is saved. -/
theorem saved_not_mem (hProper : c.Proper s dir) (hDiffers : c.prevsize ≠ c.stSize.toUInt64) :
    c.saved dir (maildirFind s.files dir c.retname) ∉ s.files := by
  intro hMem
  have hSame : (c.saved dir (maildirFind s.files dir c.retname)).samePath
        (c.saved dir (maildirFind s.files dir c.retname)) = true := by
    unfold Message.samePath
    simp
  have hOther : c.saved dir (maildirFind s.files dir c.retname) ∈
        othersThan s.files (maildirFind s.files dir c.retname) := by
    unfold othersThan
    split
    · rename_i msg hFind
      apply (List.mem_erase_of_ne ?_).mpr hMem
      intro hEq
      have hSize := congrArg Message.size hEq
      apply hDiffers
      rw [(hProper.previous msg hFind).2, ← hSize]
      rfl
    · exact hMem
  rw [hProper.alone _ hOther] at hSame
  cases hSame

/- A message that is kept, and booked as it is. -/
theorem saveExact_kept (hFile : s.file = some file) (hSettled : Settled s.files file lines)
    (hProper : c.Proper s dir) {file' : List Byte} (hFiles : (c.tellQuota s).2.files = s.files)
    (hText : (c.tellQuota s).2.file = some file') (hKept : (c.tellQuota s).1 ≠ 0)
    (hForced : (c.tellQuota s).1 = -2 → c.prevsize ≠ c.stSize.toUInt64)
    (hTotals : recordedTotals file' =
      if c.prevsize = c.stSize.toUInt64 then
        counted s.files
      else
        addTotals (counted s.files) (c.difference, c.messages)) :
    SaveExact s dir c ↔ c.Fine s dir := by
  have hOut := closemsg_files hFiles hProper hKept
  have hChange := difference_eq hProper
  have hBooked : (maildirClosemsg s dir c).2.file = some file' := by
    unfold maildirClosemsg
    simp only []
    rw [if_pos hKept]
    exact hText
  have hResult : (maildirClosemsg s dir c).1 = -1 → (c.tellQuota s).1 = -2 := by
    unfold maildirClosemsg
    simp only []
    intro hMinus
    by_contra hOther
    rw [if_pos ⟨hKept, hOther⟩] at hMinus
    cases hMinus
  have hSaved : c.saved dir (maildirFind s.files dir c.retname) ∈
        (maildirClosemsg s dir c).2.files := by
    rw [hOut]
    exact List.mem_append_right _ (List.mem_singleton_self _)
  have hDiscarded : ¬ ((maildirClosemsg s dir c).1 = -1 ∧
      (maildirClosemsg s dir c).2.files = s.files ∧
        (maildirClosemsg s dir c).2.file.map recordedTotals = s.file.map recordedTotals) := by
    rintro ⟨hMinus, hSame, _⟩
    rw [hSame] at hSaved
    exact saved_not_mem hProper (hForced (hResult hMinus)) hSaved
  unfold SaveExact
  simp only []
  rw [or_iff_right hDiscarded, and_iff_right hSaved, hOut, hBooked, hFile]
  simp only [Option.map_some, Option.some.injEq]
  rw [hSettled.recorded, hTotals]
  by_cases hEmpty : maildirFind s.files dir c.retname = none ∧ c.stSize = 0
  · -- neither larger nor smaller than nothing
    have hZero : c.prevsize = c.stSize.toUInt64 := by
      rw [hProper.new hEmpty.1, hEmpty.2]
      rfl
    apply iff_of_false
    · rintro ⟨hTold, _⟩
      rw [if_pos hZero, hEmpty.1] at hTold
      nth_rewrite 1 [← addTotals_zero (counted s.files)] at hTold
      have hCount := congrArg Prod.snd (addTotals_cancel.mp hTold)
      exact absurd hCount (by decide : (0 : Int32) ≠ 1)
    · intro hFine
      unfold Save.Fine at hFine
      simp only [] at hFine
      rw [hEmpty.1] at hFine
      exact hFine.1 hEmpty.2
  · have hAdded : (if c.prevsize = c.stSize.toUInt64 then
        counted s.files
      else
        addTotals (counted s.files) (c.difference, c.messages)) =
          addTotals (counted s.files) (c.change (maildirFind s.files dir c.retname)) := by
      rw [hChange]
      split
      · rename_i hEq
        cases hFind : maildirFind s.files dir c.retname with
        | none =>
          exfalso
          apply hEmpty
          refine ⟨hFind, ?_⟩
          rw [hProper.new hFind] at hEq
          have hBack := congrArg UInt64.toInt64 hEq
          rw [Int64.toInt64_toUInt64] at hBack
          exact hBack.symm
        | some msg =>
          rw [(hProper.previous msg hFind).2] at hEq
          have hBack := congrArg UInt64.toInt64 hEq
          rw [Int64.toInt64_toUInt64, Int64.toInt64_toUInt64] at hBack
          unfold Save.change
          simp only []
          rw [hBack, Int64.sub_self, addTotals_zero]
      · rfl
    rw [hAdded, and_iff_right rfl, eq_comm,
      counted_saved fun msg hFind => (maildirFind_some hFind).1]
    exact fine_iff hProper fun hFind hZero => hEmpty ⟨hFind, hZero⟩

end Told

/-
  A message that is saved is discarded, or booked exactly as it
  is counted, unless it is new and empty, or its name does not
  change as its size does.
-/
theorem saveExact_iff (s : QuotaStore) (dir : List Byte) (c : Save) (file : List Byte)
    (lines : List (Int64 × Int32)) (hFile : s.file = some file)
    (hSettled : Settled s.files file lines) (hProper : c.Proper s dir) :
    SaveExact s dir c ↔ c.Refused s ∨ c.Fine s dir := by
  rcases tellQuota_spec hFile hSettled hProper with ⟨hFiles, file', hText, hRefused | hKept⟩
  · rcases hRefused with ⟨hRefused, hZero, hTotals⟩
    apply iff_of_true _ (Or.inl hRefused)
    left
    have hNot : ¬ (c.tellQuota s).1 ≠ 0 := not_not.mpr hZero
    unfold maildirClosemsg
    simp only []
    rw [if_neg fun hBoth => hNot hBoth.1, if_neg hNot]
    refine ⟨rfl, hFiles, ?_⟩
    rw [hText, hFile, Option.map_some, Option.map_some, hTotals, hSettled.recorded]
  · rcases hKept with ⟨hNot, hKept, hForced, hTotals⟩
    rw [or_iff_right hNot]
    exact saveExact_kept hFile hSettled hProper hFiles hText hKept hForced hTotals

/- An empty maildir with a quota of 1000 bytes. -/
def emptyMaildir : QuotaStore where
  files := []
  file := some (ledgerText ⟨1000, 0⟩ [(0, 0)])

/- A new message of a size. -/
def newMessage (stSize : Int64) : Save where
  retname := bytes "1.m"
  isok := 1
  prevsize := 0
  stSize := stSize
  recent := false
  recentAgain := false

theorem settled_emptyMaildir : Settled emptyMaildir.files (ledgerText ⟨1000, 0⟩ [(0, 0)])
      [(0, 0)] where
  written := ⟨_, rfl⟩
  read := by
    rw [List.forall_mem_singleton]
    decide
  total := by
    decide
  usable := by
    decide

theorem proper_newMessage {stSize : Int64} (hSized : 0 ≤ stSize) :
    (newMessage stSize).Proper emptyMaildir (bytes ".Drafts") where
  folder := by
    decide
  keeps := Or.inl rfl
  named := (by decide : Maildirpath.refusesFile (bytes "1.m") = false ∧ chr ':' ∉ bytes "1.m")
  sized := hSized
  previous := by
    intro msg hFind
    cases hFind
  new := fun _ => rfl
  alone := by
    intro msg hMem
    cases hMem

/- A new message of 5 bytes. -/
theorem saveExact_new : emptyMaildir.file = some (ledgerText ⟨1000, 0⟩ [(0, 0)]) ∧
      Settled emptyMaildir.files (ledgerText ⟨1000, 0⟩ [(0, 0)]) [(0, 0)] ∧
      (newMessage 5).Proper emptyMaildir (bytes ".Drafts") ∧
      (SaveExact emptyMaildir (bytes ".Drafts")
          (newMessage 5) ↔
        (newMessage 5).Refused emptyMaildir ∨
          (newMessage 5).Fine emptyMaildir (bytes ".Drafts")) :=
  ⟨rfl, settled_emptyMaildir, proper_newMessage (by decide),
    saveExact_iff _ _ _ _ _ rfl settled_emptyMaildir (proper_newMessage (by decide))⟩

/- A new message without a byte is not booked. -/
theorem not_saveExact : ¬ ∀ s dir c file lines, s.file = some file →
      Settled s.files file lines → c.Proper s dir → SaveExact s dir c := by
  intro hAll
  have hExact := hAll emptyMaildir (bytes ".Drafts") (newMessage 0) _ _ rfl settled_emptyMaildir
    (proper_newMessage (by decide))
  rcases hExact with hDiscarded | hKept
  · exact absurd hDiscarded.1 (by decide)
  · exact absurd hKept.2.1 (by decide)

end Wmail.Maildir
