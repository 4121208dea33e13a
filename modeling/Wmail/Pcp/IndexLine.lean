import Wmail.Core.Decimal
import Wmail.Core.Runs

/-
  The lines of a calendar's index (pcpdir.c).

  A line is what a `struct line_buffer` holds, without the
  newline: the event, the name of its file, and the fields,
  with tabs between them.

  Key theorems include:
    * `parseTimeField_timeText`
    * `lbFields_lbRemoveField`
-/

namespace Wmail.Pcpdir

def tab : Byte := 9

def TIME_FIELD : List Byte := bytes "t"
def CANCELLED_FIELD : List Byte := bytes "c"
def BOOKED_FIELD : List Byte := bytes "b"
def PENDEL_FIELD : List Byte := bytes "d"
def PROXY_FIELD : List Byte := bytes "P"
def PARTICIPANT_FIELD : List Byte := bytes "p"

/- `lb_is_eventid`. -/
def lbIsEventid (pi ei : List Byte) : Bool :=
  (ei ++ [tab]).isPrefixOf pi

/- `lb_event_id`. -/
def lbEventId (pi : List Byte) : List Byte :=
  match cutAt tab pi with
  | none => []
  | some (q, _) => q

/- `lb_filename_nodir`. -/
def lbFilenameNodir (pi : List Byte) : List Byte :=
  match cutAt tab pi with
  | none => []
  | some (_, p) => p.takeWhile (· ≠ tab)

/- `lb_filename`. -/
def lbFilename (dirname pi : List Byte) : List Byte :=
  match cutAt tab pi with
  | none => []
  | some (_, p) => dirname ++ chr '/' :: p.takeWhile (· ≠ tab)

/-
  The fields that `lb_first_field` and `lb_next_field` go
  through, each up to its tab.
-/
def lbFields (pi : List Byte) : List (List Byte) :=
  (pi.splitOn tab).drop 2

/- `lb_is_field`. -/
def lbIsField (p n : List Byte) : Bool :=
  n.isPrefixOf p && (p.drop n.length).head?.all (· = chr '=')

/- `lb_field_value`. -/
def lbFieldValue (p : List Byte) : Option (List Byte) :=
  (cutAt (chr '=') p).map Prod.snd

/- `lb_field_value_buf`. -/
def lbFieldValueBuf (p : List Byte) : List Byte :=
  (lbFieldValue p).getD []

/- `lb_is_cancelled`. -/
def lbIsCancelled (pi : List Byte) : Bool :=
  (lbFields pi).any (lbIsField · CANCELLED_FIELD)

/- An `unsigned long` as `sscanf` reads it. -/
def scanUlong (text : List Byte) : Option UInt64 :=
  (scanInt text).map fun found =>
    if 2 ^ 64 ≤ found.1.natAbs then UInt64.ofNat (2 ^ 64 - 1) else UInt64.ofInt found.1

/-
  `lb_is_booked`, with the time.  A value is read with what
  follows its field.
-/
def lbIsBooked (pi : List Byte) : Option Int64 :=
  (lbFields pi).tails.findSome? fun fields =>
    match fields with
    | [] => none
    | p :: more =>
      if lbIsField p BOOKED_FIELD then
        (lbFieldValue p).bind fun q =>
          (scanUlong (q ++ more.flatMap (tab :: ·))).map
            UInt64.toInt64
      else
        none

/- `lb_is_pendel`. -/
def lbIsPendel (pi : List Byte) : Option (List Byte) :=
  (lbFields pi).find? (lbIsField · PENDEL_FIELD)

/-
  `lb_remove_field`; the new field may have a value.
-/
def lbRemoveField (pi fieldname : List Byte) (newfield : Option (List Byte × List Byte)) :
    List Byte :=
  lbEventId pi ++ tab :: (lbFilenameNodir pi ++ ((lbFields pi).filter
      (!lbIsField · fieldname)).flatMap (tab :: ·) ++
    match newfield with
    | none => []
    | some (field, value) => tab :: (field ++ chr '=' :: value))

/- `struct PCP_event_time`. -/
structure EventTime where
  start : Int64
  stop : Int64
deriving DecidableEq, Repr

/- A number in a time field; `time_t` wraps around. -/
def timeValue (digits : List Byte) : Int64 :=
  digits.foldl (fun t b => t * 10 + Int64.ofNat (b.toNat - 48)) 0

/- `parse_time_field`. -/
def parseTimeField (p : Option (List Byte)) : Option EventTime :=
  match p with
  | none => none
  | some p =>
    match p.dropWhile isdigit with
    | [] => none
    | c :: rest =>
      if c = chr ',' then
        some ⟨timeValue (p.takeWhile isdigit), timeValue (rest.takeWhile isdigit)⟩
      else
        none

/- The times of a line, as all functions read them. -/
def lbTimes (pi : List Byte) : List EventTime :=
  (lbFields pi).filterMap fun p =>
    if lbIsField p TIME_FIELD then parseTimeField (lbFieldValue p) else none

/- `event_expired`. -/
def eventExpired (pi : List Byte) (when : Int64) : Bool :=
  (lbTimes pi).all fun t => t.stop ≤ when

/- `%lu`. -/
def strUlong (t : Int64) : List Byte :=
  decimalDigits 20 t.toUInt64.toNat

/- `TIME_FIELD "=%lu,%lu"`. -/
def timeText (t : EventTime) : List Byte :=
  TIME_FIELD ++ chr '=' :: (strUlong t.start ++ chr ',' :: strUlong t.stop)

theorem timeValue_eq (digits : List Byte) :
    timeValue digits = Int64.ofNat (decimalValue digits) := by
  have hFrom : ∀ n : Nat, digits.foldl (fun t b => t * 10 + Int64.ofNat (b.toNat - 48))
          (Int64.ofNat n) =
        Int64.ofNat (digits.foldl (fun n b => n * 10 + (b.toNat - 48)) n) := by
    induction digits with
    | nil =>
      intro n
      rfl
    | cons b digits ih =>
      intro n
      rw [List.foldl_cons, List.foldl_cons, ← ih, Int64.ofNat_add, Int64.ofNat_mul]
      rfl
  exact hFrom 0

/- A number that is printed is read back. -/
theorem timeValue_strUlong (t : Int64) : timeValue (strUlong t) = t := by
  have hRoom : t.toUInt64.toNat < 10 ^ 20 := t.toUInt64.toNat_lt.trans (by decide)
  rw [timeValue_eq, strUlong, decimalValue_decimalDigits hRoom]
  have hBits : (Int64.ofNat t.toUInt64.toNat).toUInt64 = t.toUInt64 := by
    rw [Int64.toUInt64_ofNat', UInt64.ofNat_toNat]
  exact congrArg UInt64.toInt64 hBits

/- The times that are printed are read back. -/
theorem parseTimeField_timeText (t : EventTime) :
    parseTimeField (lbFieldValue (timeText t)) = some t := by
  have hValue : lbFieldValue (timeText t) =
      some (strUlong t.start ++ chr ',' :: strUlong t.stop) := by
    have hName : chr '=' ∉ TIME_FIELD := by decide
    unfold lbFieldValue timeText
    rw [cutAt_quoted hName]
    rfl
  have hDigits : ∀ (x : Int64) b, b ∈ strUlong x →
      isdigit b = true := fun x b => isdigit_decimalDigits
  have hComma : ∀ b, (chr ',' :: strUlong t.stop).head? = some b → isdigit b = false := by
    intro b hHead
    cases hHead
    rfl
  have hNone : ∀ b, ([] : List Byte).head? = some b → isdigit b = false := nofun
  have hStop := takeWhile_run (hDigits t.stop) hNone
  rw [List.append_nil] at hStop
  rw [hValue]
  unfold parseTimeField
  simp only [takeWhile_run (hDigits t.start) hComma, dropWhile_run (hDigits t.start) hComma, hStop,
    timeValue_strUlong]
  exact if_pos trivial

/- The line with these parts. -/
def lineText (id file : List Byte) (fields : List (List Byte)) : List Byte :=
  id ++ tab :: (file ++ fields.flatMap (tab :: ·))

theorem splitOn_lineText {id file : List Byte} {fields : List (List Byte)} (hId : tab ∉ id)
    (hFile : tab ∉ file) (hFields : ∀ p, p ∈ fields → tab ∉ p) :
    (lineText id file fields).splitOn tab = id :: file :: fields := by
  have hRest : ∀ file, tab ∉ file → (file ++ fields.flatMap (tab :: ·)).splitOn tab =
        file :: fields := by
    induction fields with
    | nil =>
      intro file hFile
      rw [List.flatMap_nil, List.append_nil, List.splitOn_eq_singleton hFile]
    | cons p fields ih =>
      intro file hFile
      rw [List.flatMap_cons, List.cons_append, List.splitOn_append_cons_self_of_not_mem hFile,
        ih (fun q hMem => hFields q (List.mem_cons_of_mem p hMem)) p (hFields p List.mem_cons_self)]
  unfold lineText
  rw [List.splitOn_append_cons_self_of_not_mem hId, hRest file hFile]

/- The parts of a line are found again. -/
theorem lineText_parts {id file : List Byte} {fields : List (List Byte)} (hId : tab ∉ id)
    (hFile : tab ∉ file) (hFields : ∀ p, p ∈ fields → tab ∉ p) :
    lbEventId (lineText id file fields) = id ∧ lbFilenameNodir (lineText id file fields) = file ∧
      lbFields (lineText id file fields) = fields := by
  refine ⟨?_, ?_, ?_⟩
  · unfold lbEventId lineText
    rw [cutAt_quoted hId]
  · unfold lbFilenameNodir lineText
    rw [cutAt_quoted hId]
    cases fields with
    | nil =>
      rw [List.flatMap_nil, List.append_nil]
      exact takeWhile_unclosed hFile
    | cons p fields =>
      rw [List.flatMap_cons, List.cons_append]
      exact takeWhile_quoted hFile _
  · unfold lbFields
    rw [splitOn_lineText hId hFile hFields]
    rfl

/- What is behind the first tab, cut at the others. -/
theorem exists_fields (p : List Byte) : ∃ (file : List Byte) (fields : List (List Byte)),
      p = file ++ fields.flatMap (tab :: ·) ∧ tab ∉ file ∧ ∀ q, q ∈ fields → tab ∉ q := by
  induction p with
  | nil => exact ⟨[], [], rfl, List.not_mem_nil, nofun⟩
  | cons b p ih =>
    rcases ih with ⟨file, fields, rfl, hFile, hFields⟩
    by_cases hTab : b = tab
    · subst hTab
      refine ⟨[], file :: fields, rfl, List.not_mem_nil, ?_⟩
      intro q hMem
      rcases List.mem_cons.mp hMem with rfl | hMore
      · exact hFile
      · exact hFields q hMore
    · refine ⟨b :: file, fields, rfl, ?_, hFields⟩
      intro hMem
      rcases List.mem_cons.mp hMem with hSame | hMore
      · exact hTab hSame.symm
      · exact hFile hMore

/- Every line with a tab has such parts. -/
theorem exists_lineText {pi : List Byte} (hTab : tab ∈ pi) :
    ∃ id file fields, pi = lineText id file fields ∧ tab ∉ id ∧ tab ∉ file ∧
        ∀ p, p ∈ fields → tab ∉ p := by
  rcases exists_fields pi with ⟨id, parts, hText, hId, hParts⟩
  cases parts with
  | nil =>
    rw [hText, List.flatMap_nil, List.append_nil] at hTab
    exact absurd hTab hId
  | cons file fields =>
    exact ⟨id, file, fields, hText, hId, hParts file List.mem_cons_self,
      fun p hMem => hParts p (List.mem_cons_of_mem file hMem)⟩

/- The part of a name that an event id is compared with. -/
def idPart (ei : List Byte) : List Byte :=
  ei.takeWhile (· ≠ tab)

theorem tab_not_mem_idPart (ei : List Byte) : tab ∉ idPart ei :=
  not_mem_takeWhile_separator tab ei

theorem idPart_of_not_mem {ei : List Byte} (hEi : tab ∉ ei) : idPart ei = ei :=
  takeWhile_unclosed hEi

/- A line is one of the event whose name it begins with. -/
theorem lbEventId_begins (ei more : List Byte) : lbEventId (ei ++ tab :: more) = idPart ei := by
  have hSplit := List.takeWhile_append_dropWhile (p := (· ≠ tab)) (l := ei)
  unfold lbEventId
  rcases dropWhile_separator tab ei with hNone | ⟨rest, hRest⟩
  · rw [hNone, List.append_nil] at hSplit
    have hWhole : tab ∉ ei := hSplit ▸ tab_not_mem_idPart ei
    rw [cutAt_quoted hWhole]
    exact hSplit.symm
  · rw [hRest] at hSplit
    nth_rewrite 1 [← hSplit]
    rw [List.append_assoc, List.cons_append, cutAt_quoted (not_mem_takeWhile_separator tab ei)]
    rfl

theorem tab_not_mem_lbEventId (pi : List Byte) : tab ∉ lbEventId pi := by
  unfold lbEventId
  cases hCut : cutAt tab pi with
  | none => exact List.not_mem_nil
  | some parts => exact (cutAt_eq hCut).1

theorem lbEventId_append {pi : List Byte} (hTab : tab ∈ pi) (more : List Byte) :
    lbEventId (pi ++ more) = lbEventId pi := by
  rcases exists_lineText hTab with ⟨id, file, fields, rfl, _⟩
  unfold lineText
  rw [List.append_assoc, List.cons_append, lbEventId_begins, lbEventId_begins]

theorem lbEventId_lbRemoveField (pi fieldname : List Byte)
    (newfield : Option (List Byte × List Byte)) :
    lbEventId (lbRemoveField pi fieldname newfield) = lbEventId pi := by
  unfold lbRemoveField
  rw [lbEventId_begins, idPart_of_not_mem (tab_not_mem_lbEventId pi)]

theorem tab_mem_lbRemoveField (pi fieldname : List Byte)
    (newfield : Option (List Byte × List Byte)) : tab ∈ lbRemoveField pi fieldname newfield :=
  List.mem_append_right _ List.mem_cons_self

/- What a line begins with names its event. -/
theorem eventid_of_isEventid {pi ei : List Byte} (hIs : lbIsEventid pi ei = true) :
    tab ∈ pi ∧ lbEventId pi = idPart ei := by
  rcases List.isPrefixOf_iff_prefix.mp hIs with ⟨more, rfl⟩
  rw [List.append_assoc, List.singleton_append]
  exact ⟨List.mem_append_right ei List.mem_cons_self, lbEventId_begins ei more⟩

/- A name without a tab is compared with the whole event id. -/
theorem lbIsEventid_iff {pi ei : List Byte} (hEi : tab ∉ ei) :
    lbIsEventid pi ei = true ↔ tab ∈ pi ∧ lbEventId pi = ei := by
  constructor
  · intro hIs
    have hBoth := eventid_of_isEventid hIs
    rw [idPart_of_not_mem hEi] at hBoth
    exact hBoth
  · rintro ⟨hTab, hId⟩
    rcases exists_lineText hTab with ⟨id, file, fields, rfl, hNoId, hNoFile, hNoFields⟩
    rw [(lineText_parts hNoId hNoFile hNoFields).1] at hId
    subst hId
    apply List.isPrefixOf_iff_prefix.mpr
    refine ⟨file ++ fields.flatMap (tab :: ·), ?_⟩
    rw [List.append_assoc]
    rfl

section Fields

variable {id file : List Byte} {fields : List (List Byte)}

/- Without some fields, and with another one at the end. -/
theorem lbRemoveField_eq (hId : tab ∉ id) (hFile : tab ∉ file)
    (hFields : ∀ p, p ∈ fields → tab ∉ p) (fieldname : List Byte) :
    lbRemoveField (lineText id file fields) fieldname none =
        lineText id file (fields.filter (!lbIsField · fieldname)) ∧
      ∀ field value, lbRemoveField (lineText id file fields) fieldname (some (field, value)) =
          lineText id file (fields.filter (!lbIsField · fieldname) ++
              [field ++ chr '=' :: value]) := by
  rcases lineText_parts hId hFile hFields with ⟨hOne, hTwo, hThree⟩
  constructor
  · unfold lbRemoveField
    rw [hOne, hTwo, hThree, List.append_nil]
    rfl
  · intro field value
    unfold lbRemoveField
    rw [hOne, hTwo, hThree]
    unfold lineText
    rw [List.flatMap_append, List.flatMap_singleton, List.append_assoc]

/- One more field. -/
theorem lineText_concat (p : List Byte) : lineText id file fields ++ tab :: p =
      lineText id file (fields ++ [p]) := by
  unfold lineText
  rw [List.flatMap_append, List.flatMap_singleton]
  simp only [List.append_assoc, List.cons_append]

end Fields

/- A field has one name. -/
theorem not_isField_of_ne {p n m : List Byte} (hLength : m.length = n.length) (hNe : m ≠ n)
    (hIs : lbIsField p n = true) : lbIsField p m = false := by
  unfold lbIsField at hIs ⊢
  rw [Bool.and_eq_true] at hIs
  rw [Bool.and_eq_false_iff]
  left
  rw [← Bool.not_eq_true]
  intro hOther
  apply hNe
  have hOne := List.isPrefixOf_iff_prefix.mp hIs.1
  have hTwo := List.isPrefixOf_iff_prefix.mp hOther
  exact (List.prefix_of_prefix_length_le hTwo hOne hLength.le).eq_of_length hLength

/- Fields with another name are left out. -/
theorem any_isField_filter {n m : List Byte} (hLength : n.length = m.length) (hNe : n ≠ m)
    (fields : List (List Byte)) :
    (fields.filter (!lbIsField · n)).any (lbIsField · m) = fields.any (lbIsField · m) := by
  rw [List.any_filter]
  apply List.any_congr rfl
  intro p
  cases hIs : lbIsField p m with
  | false => exact Bool.and_false _
  | true => rw [not_isField_of_ne hLength hNe hIs]; rfl

section Fields

variable {pi : List Byte} (hTab : tab ∈ pi)

include hTab

theorem lbFields_lbRemoveField (fieldname : List Byte) :
    lbFields (lbRemoveField pi fieldname none) = (lbFields pi).filter (!lbIsField · fieldname) := by
  rcases exists_lineText hTab with ⟨id, file, fields, rfl, hId, hFile, hFields⟩
  rw [(lbRemoveField_eq hId hFile hFields fieldname).1, (lineText_parts hId hFile hFields).2.2]
  exact (lineText_parts hId hFile fun p hMem => hFields p (List.mem_of_mem_filter hMem)).2.2

theorem lbFields_lbRemoveField_some {field value : List Byte}
    (hPlain : tab ∉ field ++ chr '=' :: value) (fieldname : List Byte) :
    lbFields (lbRemoveField pi fieldname (some (field, value))) =
      (lbFields pi).filter (!lbIsField · fieldname) ++ [field ++ chr '=' :: value] := by
  rcases exists_lineText hTab with ⟨id, file, fields, rfl, hId, hFile, hFields⟩
  rw [(lbRemoveField_eq hId hFile hFields fieldname).2, (lineText_parts hId hFile hFields).2.2]
  refine (lineText_parts hId hFile ?_).2.2
  intro p hMem
  rcases List.mem_append.mp hMem with hIn | hIn
  · exact hFields p (List.mem_of_mem_filter hIn)
  · exact List.mem_singleton.mp hIn ▸ hPlain

theorem lbFields_append {p : List Byte} (hPlain : tab ∉ p) :
    lbFields (pi ++ tab :: p) = lbFields pi ++ [p] := by
  rcases exists_lineText hTab with ⟨id, file, fields, rfl, hId, hFile, hFields⟩
  rw [lineText_concat, (lineText_parts hId hFile hFields).2.2]
  refine (lineText_parts hId hFile ?_).2.2
  intro q hMem
  rcases List.mem_append.mp hMem with hIn | hIn
  · exact hFields q hIn
  · exact List.mem_singleton.mp hIn ▸ hPlain

end Fields

end Wmail.Pcpdir
