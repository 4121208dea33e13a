import Wmail.Maildir.Msgmove
import Mathlib.Data.List.DropRight

/-
  The size in the name of a message file (maildirrequota.c,
  maildirparsequota.c).

  `maildir_requota` puts the size into the first `,S=` field
  in front of the first colon, and `maildir_parsequota` reads
  the last one.

  Key theorems include:
    * `behindSize_requotaLoop`
    * `requota_reads_back_iff`
-/

namespace Wmail.Maildir

/-
  `strrchr(name, '/')`: what comes before the last slash, and
  the rest from it on, or the whole name.
-/
def lastSlash : List Byte → List Byte × List Byte
  | [] => ([], [])
  | c :: rest =>
    if chr '/' ∈ rest then (c :: (lastSlash rest).1, (lastSlash rest).2) else ([], c :: rest)

/- `sprintf(buf, ",S=%lu", s)`. -/
def sizeText (s : UInt64) : List Byte :=
  bytes ",S=" ++ decimalDigits 20 s.toNat

/- The loop of `maildir_requota`; `MDIRSEP[0]` is a colon. -/
def requotaLoop (buf : List Byte) : List Byte → List Byte
  | [] => buf
  | c :: rest =>
    if c = chr ',' ∧ (bytes "S=").isPrefixOf rest then
      buf ++ (rest.drop 2).dropWhile isdigit
    else if c = chr ':' then
      buf ++ (c :: rest)
    else
      c :: requotaLoop buf rest

/- `maildir_requota`. -/
def maildirRequota (oldname : List Byte) (s : UInt64) : List Byte :=
  (lastSlash oldname).1 ++ requotaLoop (sizeText s) (lastSlash oldname).2

/- `maildir_parsequota`. -/
def maildirParsequota (n : List Byte) : Option UInt64 :=
  (behindSize ((lastSlash n).2.takeWhile (· ≠ chr ':'))).map
    fun text => UInt64.ofNat (decimalValue (text.takeWhile isdigit))

/- A directory, and a name that may begin with its slash. -/
def Splits (dir name : List Byte) : Prop :=
  chr '/' ∉ name.drop 1 ∧ (dir = [] ∨ name.head? = some (chr '/'))

theorem lastSlash_splits (n : List Byte) : (lastSlash n).1 ++ (lastSlash n).2 = n ∧
      Splits (lastSlash n).1 (lastSlash n).2 := by
  induction n with
  | nil => exact ⟨rfl, List.not_mem_nil, Or.inl rfl⟩
  | cons c rest ih =>
    unfold lastSlash
    split
    · rename_i hMem
      refine ⟨congrArg (c :: ·) ih.1, ih.2.1, Or.inr ?_⟩
      -- the slash is not lost, so it begins the name
      rcases ih.2.2 with hNone | hHead
      · rw [hNone, List.nil_append] at ih
        have hFront := ih.2.1
        rw [ih.1] at hFront ⊢
        cases rest with
        | nil => cases hMem
        | cons d more =>
          rcases List.mem_cons.mp hMem with hHere | hLater
          · exact congrArg some hHere.symm
          · exact absurd hLater hFront
      · exact hHead
    · rename_i hNone
      exact ⟨rfl, hNone, Or.inl rfl⟩

theorem lastSlash_append {dir name : List Byte} (hSplits : Splits dir name) :
    lastSlash (dir ++ name) = (dir, name) := by
  induction dir with
  | nil =>
    cases name with
    | nil => rfl
    | cons c rest => exact if_neg hSplits.1
  | cons c dir ih =>
    have hHead : name.head? = some (chr '/') := hSplits.2.resolve_left (List.cons_ne_nil c dir)
    have hMem : chr '/' ∈ dir ++ name := List.mem_append_right dir (List.mem_of_mem_head? hHead)
    rw [List.cons_append, lastSlash, if_pos hMem, ih ⟨hSplits.1, Or.inr hHead⟩]

/-
  The text before the field that `maildir_requota` replaces,
  the field, which may be empty, and the text behind it.
-/
def sizeField : List Byte → List Byte × List Byte × List Byte
  | [] => ([], [], [])
  | c :: rest =>
    if c = chr ',' ∧ (bytes "S=").isPrefixOf rest then
      ([], c :: (rest.take 2 ++ (rest.drop 2).takeWhile isdigit), (rest.drop 2).dropWhile isdigit)
    else if c = chr ':' then
      ([], [], c :: rest)
    else
      let (front, field, behind) := sizeField rest
      (c :: front, field, behind)

/- Nothing else is changed. -/
theorem requotaLoop_eq (buf name : List Byte) :
    requotaLoop buf name = (sizeField name).1 ++ buf ++ (sizeField name).2.2 := by
  induction name with
  | nil => exact (List.append_nil buf).symm
  | cons c rest ih =>
    unfold requotaLoop sizeField
    split
    · rfl
    · split
      · rfl
      · exact congrArg (c :: ·) ih

theorem sizeField_join (name : List Byte) : (sizeField name).1 ++ (sizeField name).2.1 ++
      (sizeField name).2.2 = name := by
  induction name with
  | nil => rfl
  | cons c rest ih =>
    unfold sizeField
    split
    · simp only [List.nil_append, List.cons_append, List.append_assoc,
        List.takeWhile_append_dropWhile, List.take_append_drop]
    · split
      · rfl
      · exact congrArg (c :: ·) ih

/- The field is `,S=` with digits, if there is one. -/
theorem sizeField_field (name : List Byte) : (sizeField name).2.1 = [] ∨
      ∃ digits, (∀ b, b ∈ digits → isdigit b = true) ∧
        (sizeField name).2.1 = bytes ",S=" ++ digits := by
  induction name with
  | nil => exact Or.inl rfl
  | cons c rest ih =>
    unfold sizeField
    split
    · rename_i hField
      right
      refine ⟨(rest.drop 2).takeWhile isdigit, fun b hMem => List.mem_takeWhile_imp hMem, ?_⟩
      rcases List.isPrefixOf_iff_prefix.mp hField.2 with ⟨more, rfl⟩
      rw [hField.1]
      rfl
    · split
      · exact Or.inl rfl
      · exact ih

theorem not_digit_sizeField (name : List Byte) : (sizeField name).2.2.takeWhile isdigit = [] := by
  induction name with
  | nil => rfl
  | cons c rest ih =>
    unfold sizeField
    split
    · simp only []
      generalize rest.drop 2 = text
      induction text with
      | nil => rfl
      | cons d more ihMore =>
        rw [List.dropWhile_cons]
        split
        · exact ihMore
        · rename_i hOther
          exact List.takeWhile_cons_of_neg hOther
    · split
      · rename_i hColon
        rw [hColon]
        rfl
      · exact ih

/- No field begins before the one that is replaced. -/
theorem isPrefixOf_requotaLoop {buf name : List Byte} (hBuf : buf.head? = some (chr ','))
    (hPrefix : (bytes "S=").isPrefixOf
      (requotaLoop buf name) = true) : (bytes "S=").isPrefixOf name = true := by
  have hHead : ∀ (name : List Byte) (c : Byte),
      c ≠ chr ',' → c ≠ chr ':' → ∀ more, requotaLoop buf name = c :: more →
          ∃ rest, name = c :: rest ∧ more = requotaLoop buf rest := by
    intro name c hComma hColon more hLoop
    cases buf with
    | nil => cases hBuf
    | cons b front =>
      cases hBuf
      cases name with
      | nil =>
        cases hLoop
        exact absurd rfl hComma
      | cons d rest =>
        unfold requotaLoop at hLoop
        split at hLoop
        · cases hLoop
          exact absurd rfl hComma
        · split at hLoop
          · cases hLoop
            exact absurd rfl hComma
          · cases hLoop
            exact ⟨rest, rfl, rfl⟩
  rcases List.isPrefixOf_iff_prefix.mp hPrefix with ⟨more, hMore⟩
  have hText : bytes "S=" = [chr 'S', chr '='] := by decide
  rw [hText] at hMore
  rcases hHead name (chr 'S') (by decide) (by decide) _ hMore.symm with ⟨rest, rfl, hRest⟩
  rcases hHead rest (chr '=') (by decide) (by decide) _ hRest.symm with ⟨last, rfl, _⟩
  rfl

variable {digits : List Byte}

/- The text that is put in, read as a field again. -/
theorem requotaLoop_field (hDigits : ∀ b, b ∈ digits → isdigit b = true) (buf text : List Byte) :
    requotaLoop buf (bytes ",S=" ++ digits ++ text) = buf ++ text.dropWhile isdigit := by
  have hField : requotaLoop buf (bytes ",S=" ++ digits ++ text) =
        buf ++ (digits ++ text).dropWhile isdigit :=
    if_pos ⟨rfl, rfl⟩
  rw [hField, List.dropWhile_append_of_pos hDigits]

/- A new size takes the place of the one before. -/
theorem requotaLoop_requotaLoop (hDigits : ∀ b, b ∈ digits → isdigit b = true)
    (buf name : List Byte) :
    requotaLoop buf (requotaLoop (bytes ",S=" ++ digits) name) = requotaLoop buf name := by
  have hBuf : (bytes ",S=" ++ digits).head? = some (chr ',') := rfl
  induction name with
  | nil =>
    have hField := requotaLoop_field hDigits buf []
    rw [List.append_nil] at hField
    exact hField.trans (List.append_nil buf)
  | cons c rest ih =>
    by_cases hField : c = chr ',' ∧ (bytes "S=").isPrefixOf rest = true
    · have hLoop : ∀ buf, requotaLoop buf (c :: rest) = buf ++ (rest.drop 2).dropWhile isdigit :=
        fun buf => if_pos hField
      rw [hLoop, hLoop, requotaLoop_field hDigits, List.dropWhile_idempotent]
    · by_cases hColon : c = chr ':'
      · have hLoop : ∀ buf, requotaLoop buf (c :: rest) = buf ++ (c :: rest) :=
          fun buf => (if_neg hField).trans (if_pos hColon)
        have hStop : (c :: rest).dropWhile isdigit = c :: rest := by
          rw [hColon]
          rfl
        rw [hLoop, hLoop, requotaLoop_field hDigits, hStop]
      · have hLoop : ∀ buf, requotaLoop buf (c :: rest) = c :: requotaLoop buf rest :=
          fun buf => (if_neg hField).trans (if_neg hColon)
        have hLater : ¬ (c = chr ',' ∧ (bytes "S=").isPrefixOf
            (requotaLoop (bytes ",S=" ++ digits) rest) = true) := by
          rintro ⟨hComma, hPrefix⟩
          exact hField ⟨hComma, isPrefixOf_requotaLoop hBuf hPrefix⟩
        rw [hLoop, hLoop, requotaLoop, if_neg hLater, if_neg hColon, ih]

/- The name keeps the slash at its front, and gets no other. -/
theorem splits_requotaLoop {dir name buf : List Byte} (hSplits : Splits dir name)
    (hBuf : chr '/' ∉ buf) : Splits dir (requotaLoop buf name) := by
  have hFree : ∀ name, chr '/' ∉ name → chr '/' ∉ requotaLoop buf name := by
    intro name hNone hMem
    rw [requotaLoop_eq, List.mem_append, List.mem_append] at hMem
    have hJoin := sizeField_join name
    rcases hMem with (hFront | hText) | hBehind
    · apply hNone
      rw [← hJoin]
      exact List.mem_append_left _ (List.mem_append_left _ hFront)
    · exact hBuf hText
    · apply hNone
      rw [← hJoin]
      exact List.mem_append_right _ hBehind
  cases name with
  | nil =>
    refine ⟨fun hMem => hBuf (List.mem_of_mem_drop hMem), ?_⟩
    exact Or.inl (hSplits.2.resolve_right nofun)
  | cons c rest =>
    by_cases hSlash : c = chr '/'
    · have hLoop : requotaLoop buf (c :: rest) = c :: requotaLoop buf rest := by
        rw [hSlash]
        rfl
      rw [hLoop]
      exact ⟨hFree rest hSplits.1, Or.inr (congrArg some hSlash)⟩
    · have hNone : chr '/' ∉ c :: rest := by
        rintro hMem
        rcases List.mem_cons.mp hMem with hHere | hLater
        · exact hSlash hHere.symm
        · exact hSplits.1 hLater
      refine ⟨fun hMem => hFree _ hNone (List.mem_of_mem_drop hMem), Or.inl ?_⟩
      apply hSplits.2.resolve_right
      intro hHead
      exact hSlash (Option.some.inj hHead)

/- Only a comma begins a field. -/
theorem behindSize_other {c : Byte} (hOther : c ≠ chr ',') (text : List Byte) :
    behindSize (c :: text) = behindSize text := by
  have hNone : ¬ (c = chr ',' ∧ (bytes "S=").isPrefixOf text = true) :=
    fun hField => hOther hField.1
  rw [behindSize]
  cases behindSize text with
  | none => exact if_neg hNone
  | some found => rfl

/- The last field counts. -/
theorem behindSize_append (front text : List Byte) :
    behindSize (front ++ (bytes ",S=" ++ text)) = some ((behindSize text).getD text) := by
  induction front with
  | nil =>
    have hS : chr 'S' ≠ chr ',' := by decide
    have hEqual : chr '=' ≠ chr ',' := by decide
    show behindSize (chr ',' :: chr 'S' :: chr '=' :: text) = some ((behindSize text).getD text)
    rw [behindSize, behindSize_other hS, behindSize_other hEqual]
    cases behindSize text with
    | none => rfl
    | some found => rfl
  | cons c front ih => rw [List.cons_append, behindSize, ih]

theorem behindSize_digits (hDigits : ∀ b, b ∈ digits → isdigit b = true)
    (text : List Byte) : behindSize (digits ++ text) = behindSize text := by
  induction digits with
  | nil => rfl
  | cons d rest ih =>
    have hRest := ih fun b hMem => hDigits b (List.mem_cons_of_mem d hMem)
    have hOther : d ≠ chr ',' := by
      intro hComma
      have hDigit := hDigits d List.mem_cons_self
      rw [hComma] at hDigit
      exact absurd hDigit (by decide)
    rw [List.cons_append, behindSize_other hOther, hRest]

theorem colon_sizeField (name : List Byte) : chr ':' ∉ (sizeField name).1 := by
  induction name with
  | nil => exact List.not_mem_nil
  | cons c rest ih =>
    unfold sizeField
    split
    · exact List.not_mem_nil
    · split
      · exact List.not_mem_nil
      · rename_i hOther
        intro hMem
        rcases List.mem_cons.mp hMem with hHere | hLater
        · exact hOther hHere.symm
        · exact ih hLater

/- What is read is the new size, or a field behind it. -/
theorem behindSize_requotaLoop (hDigits : ∀ b, b ∈ digits → isdigit b = true) (name : List Byte) :
    behindSize ((requotaLoop (bytes ",S=" ++ digits) name).takeWhile (· ≠ chr ':')) =
      some ((behindSize ((sizeField name).2.2.takeWhile (· ≠ chr ':'))).getD
        (digits ++ (sizeField name).2.2.takeWhile (· ≠ chr ':'))) := by
  have hFront : ∀ b, b ∈ (sizeField name).1 → decide (b ≠ chr ':') = true := by
    intro b hMem
    apply decide_eq_true
    intro hColon
    exact colon_sizeField name (hColon ▸ hMem)
  have hText : ∀ b, b ∈ bytes ",S=" ++ digits → decide (b ≠ chr ':') = true := by
    intro b hMem
    apply decide_eq_true
    rintro rfl
    rcases List.mem_append.mp hMem with hField | hDigit
    · exact absurd hField (by decide)
    · exact absurd (hDigits _ hDigit) (by decide)
  rw [requotaLoop_eq, List.append_assoc, List.takeWhile_append_of_pos hFront,
    List.takeWhile_append_of_pos hText, List.append_assoc,
    behindSize_append, behindSize_digits hDigits]

/- The number at the front of a text, in 64 bits. -/
def sizeValue (text : List Byte) : UInt64 :=
  UInt64.ofNat (decimalValue (text.takeWhile isdigit))

/-
  The name states the size afterwards, only the last size
  counts, and nothing but the field is changed.
-/
structure SizeStated (n : List Byte) (s : UInt64) : Prop where
  reads_back : maildirParsequota (maildirRequota n s) = some s
  replaces : ∀ old, maildirRequota (maildirRequota n old) s = maildirRequota n s
  keeps : ∃ front field behind, n = front ++ field ++ behind ∧
        maildirRequota n s = front ++ sizeText s ++ behind ∧
        (field = [] ∨
          ∃ digits, (∀ b, b ∈ digits → isdigit b = true) ∧ field = bytes ",S=" ++ digits)

theorem isdigit_sizeText (s : UInt64) : ∀ b, b ∈ decimalDigits 20 s.toNat → isdigit b = true :=
  fun _ hMem => isdigit_decimalDigits hMem

theorem slash_sizeText (s : UInt64) : chr '/' ∉ sizeText s := by
  intro hMem
  rcases List.mem_append.mp hMem with hField | hDigit
  · exact absurd hField (by decide)
  · exact absurd (isdigit_decimalDigits hDigit) (by decide)

theorem lastSlash_maildirRequota (n : List Byte) (s : UInt64) :
    lastSlash (maildirRequota n s) = ((lastSlash n).1, requotaLoop (sizeText s) (lastSlash n).2) :=
  lastSlash_append (splits_requotaLoop (lastSlash_splits n).2 (slash_sizeText s))

theorem maildirRequota_replaces (n : List Byte) (old s : UInt64) :
    maildirRequota (maildirRequota n old) s = maildirRequota n s := by
  unfold maildirRequota
  rw [lastSlash_append (splits_requotaLoop (lastSlash_splits n).2 (slash_sizeText old))]
  exact congrArg ((lastSlash n).1 ++ ·) (requotaLoop_requotaLoop (isdigit_sizeText old) _ _)

theorem maildirRequota_keeps (n : List Byte) (s : UInt64) :
    ∃ front field behind, n = front ++ field ++ behind ∧
        maildirRequota n s = front ++ sizeText s ++ behind ∧
        (field = [] ∨
          ∃ digits, (∀ b, b ∈ digits → isdigit b = true) ∧ field = bytes ",S=" ++ digits) := by
  refine ⟨(lastSlash n).1 ++ (sizeField (lastSlash n).2).1, (sizeField (lastSlash n).2).2.1,
    (sizeField (lastSlash n).2).2.2, ?_, ?_,
    sizeField_field _⟩
  · have hWhole := (lastSlash_splits n).1
    rw [← sizeField_join (lastSlash n).2] at hWhole
    rw [← List.append_assoc, ← List.append_assoc] at hWhole
    exact hWhole.symm
  · unfold maildirRequota
    rw [requotaLoop_eq]
    simp only [List.append_assoc]

/- The number that is read in the new name. -/
theorem maildirParsequota_maildirRequota (n : List Byte) (s : UInt64) :
    maildirParsequota (maildirRequota n s) =
      some (((behindSize ((sizeField (lastSlash n).2).2.2.takeWhile
        (· ≠ chr ':'))).map sizeValue).getD s) := by
  unfold maildirParsequota
  rw [lastSlash_maildirRequota]
  unfold sizeText
  rw [behindSize_requotaLoop (isdigit_sizeText s)]
  cases hLater : behindSize ((sizeField (lastSlash n).2).2.2.takeWhile (· ≠ chr ':')) with
  | some later => rfl
  | none =>
    have hRoom : s.toNat < 10 ^ 20 := Nat.lt_trans s.toNat_lt (by decide)
    have hStop : ((sizeField (lastSlash n).2).2.2.takeWhile
        (· ≠ chr ':')).takeWhile isdigit = [] := by
      have hNone := not_digit_sizeField (lastSlash n).2
      cases hBehind : (sizeField (lastSlash n).2).2.2 with
      | nil => rfl
      | cons b rest =>
        rw [hBehind] at hNone
        have hOther : ¬ isdigit b = true := by
          intro hDigit
          rw [List.takeWhile_cons_of_pos hDigit] at hNone
          cases hNone
        rw [List.takeWhile_cons]
        split
        · exact List.takeWhile_cons_of_neg hOther
        · rfl
    have hDigits : (decimalDigits 20 s.toNat ++ (sizeField (lastSlash n).2).2.2.takeWhile
          (· ≠ chr ':')).takeWhile isdigit =
        decimalDigits 20 s.toNat := by
      rw [List.takeWhile_append_of_pos (isdigit_sizeText s), hStop, List.append_nil]
    simp only [Option.getD_none, Option.map_some, Option.map_none]
    rw [hDigits, decimalValue_decimalDigits hRoom, UInt64.ofNat_toNat]

/-
  The size is read back exactly when no field stands between
  the new one and the colon, or the last of them happens to
  state the same size.
-/
theorem requota_reads_back_iff (n : List Byte) (s : UInt64) :
    SizeStated n s ↔ ∀ later, behindSize ((sizeField (lastSlash n).2).2.2.takeWhile
            (· ≠ chr ':')) = some later →
        sizeValue later = s := by
  have hReads := maildirParsequota_maildirRequota n s
  constructor
  · intro hStated later hLater
    have hBack := hStated.reads_back
    rw [hReads, hLater] at hBack
    exact Option.some.inj hBack
  · intro hOnly
    refine ⟨?_, fun old => maildirRequota_replaces n old s, maildirRequota_keeps n s⟩
    rw [hReads]
    cases hLater : behindSize ((sizeField (lastSlash n).2).2.2.takeWhile (· ≠ chr ':')) with
    | none => rfl
    | some later => exact congrArg some (hOnly later hLater)

/- The first field is replaced, and the second one is read. -/
theorem not_requota_reads_back : ¬ SizeStated (bytes "cur/1.M2.host,S=10,S=20:2,S") 5 := by
  intro hStated
  have hRead := hStated.reads_back
  have hOther : maildirParsequota (maildirRequota (bytes "cur/1.M2.host,S=10,S=20:2,S")
        5) = some 20 := by
    decide
  rw [hOther] at hRead
  exact absurd hRead (by decide)

end Wmail.Maildir
