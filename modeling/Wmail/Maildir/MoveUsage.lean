import Wmail.Core.Runs
import Wmail.Maildir.Msgmove
import Mathlib.Algebra.BigOperators.Group.List.Basic

/-
  Moves keep the quota file equal to what is counted.

  Key theorems include:
    * `msgmove_balance`
    * `msgmoves_balance`
-/

namespace Wmail.Maildir

/- What is changed behind the first colon leaves the size. -/
theorem front_remflagname (flag : Byte) (name : List Byte) :
    (remflagname flag name).takeWhile (· ≠ chr ':') = name.takeWhile (· ≠ chr ':') := by
  unfold remflagname
  rcases dropWhile_separator (chr ':') name with hNone | ⟨info, hSome⟩
  · rw [hNone]
  · rw [hSome]
    simp only []
    split
    · rfl
    · exact takeWhile_quoted (not_mem_takeWhile_separator (chr ':') name) _

theorem parsequota_remflagname (flag : Byte) (name : List Byte) :
    parsequota (remflagname flag name) = parsequota name := by
  unfold parsequota
  rw [front_remflagname]

theorem head_remflagname (flag : Byte) (name : List Byte) :
    (remflagname flag name).head? = name.head? := by
  have hSplit := List.takeWhile_append_dropWhile (p := (· ≠ chr ':')) (l := name)
  unfold remflagname
  rcases dropWhile_separator (chr ':') name with hNone | ⟨info, hSome⟩
  · rw [hNone]
  · rw [hSome]
    simp only []
    split
    · rfl
    · have hHead : name.head? = (name.takeWhile (· ≠ chr ':') ++ chr ':' :: info).head? := by
        rw [← hSome, hSplit]
      rw [hHead]
      cases name.takeWhile (· ≠ chr ':') with
      | nil => rfl
      | cons b front => rfl

/- A message that is not counted has a `T` already. -/
theorem mem_of_countfile_false {name : List Byte} (hFile : countfile name = false) :
    chr 'T' ∈ name.dropWhile (· ≠ chr ':') := by
  induction name with
  | nil => cases hFile
  | cons c rest ih =>
    rw [countfile] at hFile
    split at hFile
    · rename_i hInfo
      rcases hInfo with ⟨rfl, _⟩
      rw [List.dropWhile_cons_of_neg (by simp)]
      rw [Bool.not_eq_false', List.contains_iff_mem] at hFile
      have hIn := (List.takeWhile_prefix _).subset hFile
      exact List.mem_cons_of_mem _ (List.mem_of_mem_drop hIn)
    · by_cases hColon : c = chr ':'
      · subst hColon
        rw [List.dropWhile_cons_of_neg (by simp)]
        exact List.mem_cons_of_mem _ ((List.dropWhile_suffix _).subset (ih hFile))
      · rw [List.dropWhile_cons_of_pos (by simpa using hColon)]
        exact ih hFile

theorem addflagname_of_countfile_false {name : List Byte} (hFile : countfile name = false)
    (other : List Byte) : addflagname (chr 'T') name ≠ .renamed other := by
  have hMem := mem_of_countfile_false hFile
  unfold addflagname
  rcases dropWhile_separator (chr ':') name with hNone | ⟨info, hSome⟩
  · rw [hNone] at hMem
    cases hMem
  · rw [hSome] at hMem ⊢
    simp only []
    split
    · exact fun hNo => nomatch hNo
    · rw [if_pos (List.contains_iff_mem.mpr hMem)]
      exact fun hNo => nomatch hNo

theorem usage_append_singleton (files : List Message) (msg : Message) :
    usage (files ++ [msg]) = usage files + msg.weight := by
  unfold usage
  rw [List.map_append, List.sum_append, List.map_singleton, List.sum_singleton]

variable {files : List Message} {msg : Message}

theorem usage_erase (hMem : msg ∈ files) : usage (files.erase msg) = usage files - msg.weight := by
  have hSum := List.sum_map_erase Message.weight hMem
  unfold usage
  omega

/- Files that are not counted may go. -/
theorem usage_filter {p : Message → Bool} (hNone : ∀ msg, p msg = false → msg.weight = 0) :
    usage (files.filter p) = usage files := by
  unfold usage
  induction files with
  | nil => rfl
  | cons msg rest ih =>
    cases hKeep : p msg with
    | true =>
      rw [List.filter_cons_of_pos hKeep, List.map_cons,
        List.map_cons, List.sum_cons, List.sum_cons, ih]
    | false =>
      have hDrop : ¬ p msg = true := Bool.eq_false_iff.mp hKeep
      rw [List.filter_cons_of_neg hDrop, List.map_cons,
        List.sum_cons, hNone msg hKeep, ih, Int.zero_add]

theorem weight_of_not_counts (hNot : msg.counts = false) : msg.weight = 0 := by
  unfold Message.weight
  rw [hNot, if_neg Bool.false_ne_true]

theorem counts_of_place (hPlace : msg.place.counts = false) : msg.counts = false := by
  unfold Message.counts
  rw [hPlace, Bool.false_and, Bool.false_and]

theorem counts_of_countfile (hFile : countfile msg.name = false) : msg.counts = false := by
  unfold Message.counts
  rw [hFile, Bool.and_false]

/- Renaming takes the message out of what is counted. -/
def Move.marksTrashed (m : Move) : Bool :=
  m.renamed &&
    match addflagname (chr 'T') m.file.name with
    | .already => false
    | .outside => true
    | .renamed name => !countfile name

variable {m : Move}

/- A message that keeps its name was not counted. -/
theorem weight_of_not_marksTrashed
    (hMarks : m.file.place.counts = true → countfile m.file.name = true → m.marksTrashed = true)
    (hNot : m.marksTrashed = false) : m.file.weight = 0 := by
  apply weight_of_not_counts
  cases hPlace : m.file.place.counts with
  | false => exact counts_of_place hPlace
  | true =>
    cases hFile : countfile m.file.name with
    | false => exact counts_of_countfile hFile
    | true =>
      rw [hMarks hPlace hFile] at hNot
      cases hNot

/- What the marked message replaces was not counted. -/
theorem weight_samePath {name : List Byte}
    (hMarks : m.file.place.counts = true → countfile m.file.name = true → m.marksTrashed = true)
    (hAdd : addflagname (chr 'T') m.file.name = .renamed name)
    (hSame : msg.samePath { m.file with name := name } = true) : msg.weight = 0 := by
  unfold Message.samePath at hSame
  rw [Bool.and_eq_true, Bool.and_eq_true, decide_eq_true_iff,
    decide_eq_true_iff, decide_eq_true_iff] at hSame
  apply weight_of_not_counts
  cases hPlace : m.file.place.counts with
  | false =>
    apply counts_of_place
    rw [hSame.1.1]
    exact hPlace
  | true =>
    cases hFile : countfile m.file.name with
    | false => exact absurd hAdd (addflagname_of_countfile_false hFile name)
    | true =>
      have hYes := hMarks hPlace hFile
      unfold Move.marksTrashed at hYes
      rw [hAdd, Bool.and_eq_true] at hYes
      apply counts_of_countfile
      rw [hSame.2]
      simpa using hYes.2

/- Marking a message takes its weight away. -/
theorem markTrashed_usage (hMem : m.file ∈ files)
    (hMarks : m.file.place.counts = true → countfile m.file.name = true → m.marksTrashed = true) :
    usage (markTrashed files m) = usage files - m.file.weight := by
  have hKept : m.marksTrashed = false → usage files = usage files - m.file.weight := by
    intro hNot
    rw [weight_of_not_marksTrashed hMarks hNot, Int.sub_zero]
  unfold markTrashed
  cases hAdd : addflagname (chr 'T') m.file.name with
  | already =>
    apply hKept
    unfold Move.marksTrashed
    rw [hAdd, Bool.and_false]
  | outside =>
    simp only []
    split
    · exact usage_erase hMem
    · rename_i hNo
      apply hKept
      unfold Move.marksTrashed
      rw [Bool.eq_false_iff.mpr hNo, Bool.false_and]
  | renamed name =>
    simp only []
    split
    · have hHere : Message.weight { m.file with name := name } = 0 := by
        apply weight_samePath hMarks hAdd
        unfold Message.samePath
        simp
      have hOthers : ∀ msg : Message, (!msg.samePath { m.file with name := name }) =
            false → msg.weight = 0 := by
        intro msg hSame
        rw [Bool.not_eq_false'] at hSame
        exact weight_samePath hMarks hAdd hSame
      rw [usage_append_singleton, usage_filter hOthers, hHere, Int.add_zero]
      exact usage_erase hMem
    · rename_i hNo
      apply hKept
      unfold Move.marksTrashed
      rw [Bool.eq_false_iff.mpr hNo, Bool.false_and]

/- The new file of a move, if there is one. -/
def Move.newFile (m : Move) (destdir fromdir : Place) : Option Message :=
  if destdir.isShared || fromdir.isShared then
    some (m.copy destdir)
  else if m.source ≠ m.dest then
    some (m.link destdir)
  else
    none

/- The new file is stored, and the message gets marked. -/
def Move.completes (m : Move) (files : List Message) (destdir fromdir : Place) : Bool :=
  if destdir.isShared || fromdir.isShared then
    m.stored && !(fromdir.isShared && m.underlying = some false && m.dest = bytes "Trash")
  else if m.source ≠ m.dest then
    m.stored && !files.any (·.samePath (m.link destdir))
  else
    true

theorem moveFile_eq (files : List Message) (m : Move) (destdir fromdir : Place) :
    moveFile files m destdir fromdir =
      if m.completes files destdir fromdir then
        markTrashed (files ++ (m.newFile destdir fromdir).toList) m
      else
        files := by
  unfold moveFile Move.completes Move.newFile
  split
  · cases m.stored with
    | false => rfl
    | true =>
      simp only [Bool.not_true, Bool.false_eq_true, if_false, Bool.true_and]
      split
      · rename_i hOther
        rw [hOther]
        rfl
      · rename_i hOurs
        rw [Bool.not_eq_true] at hOurs
        rw [hOurs]
        rfl
  · split
    · rfl
    · rw [Option.toList_none, List.append_nil, if_pos rfl]

/-
  A move that books what it changes.  The parts say what the
  code relies on: the name states the size that is charged;
  only counted messages are given back; a message is not
  moved to its own folder, and not moved between counted
  folders once it is marked; what is charged is also stored;
  and the flags in the names are where they are looked for.
-/
structure FineMove (m : Move) (files : List Message) (destdir fromdir : Place) : Prop where
  visible : m.file.name.head? ≠ some (chr '.')
  sized : m.charge destdir fromdir ≠ .none →
    ∃ n, parsequota m.file.name = some n ∧ n ≠ Int64.minValue ∧
      (fromdir.isShared = true → n = m.file.size)
  deletes : m.charge destdir fromdir = .deleted → fromdir.counts = true
  stores : m.charge destdir fromdir ≠ .none → m.completes files destdir fromdir = true
  leaves : m.completes files destdir fromdir = true →
    m.source = m.dest → fromdir.counts = true → countfile m.file.name = false
  unmarked : m.completes files destdir fromdir = true → m.source ≠ m.dest → destdir.counts = true →
      fromdir.counts = true → countfile m.file.name = true
  marks : m.completes files destdir fromdir = true →
    fromdir.counts = true → countfile m.file.name = true → m.marksTrashed = true
  named : m.completes files destdir fromdir = true → destdir.counts = true →
      ∀ msg, m.newFile destdir fromdir = some msg →
        countfile msg.name = true ∧ (fromdir.isShared = true →
            parsequota msg.name = none ∧ msg.name.head? ≠ some (chr '.'))

/- What is charged, in bytes. -/
def Charge.delta (charge : Charge) (size : Int) : Int :=
  match charge with
  | .none => 0
  | .deleted => -size
  | .added => size

/- The weight of the new file. -/
def Move.newWeight (m : Move) (destdir fromdir : Place) : Int :=
  ((m.newFile destdir fromdir).map Message.weight).getD 0

theorem place_newFile {destdir fromdir : Place}
    (hNew : m.newFile destdir fromdir = some msg) : msg.place = destdir := by
  unfold Move.newFile at hNew
  split at hNew
  · cases hNew
    rfl
  · split at hNew
    · cases hNew
      rfl
    · cases hNew

/- Nothing is counted in a place that is not. -/
theorem newWeight_of_place {destdir : Place} (hPlace : destdir.counts = false)
    (fromdir : Place) : m.newWeight destdir fromdir = 0 := by
  unfold Move.newWeight
  cases hNew : m.newFile destdir fromdir with
  | none => rfl
  | some msg =>
    rw [Option.map_some, Option.getD_some]
    apply weight_of_not_counts
    apply counts_of_place
    rw [place_newFile hNew]
    exact hPlace

theorem not_shared_of_counts {place : Place} (hCounts : place.counts = true) :
    place.isShared = false := by
  cases place with
  | own dir => rfl
  | shared name => cases hCounts

/- A message that is counted has the size in its name. -/
theorem weight_of_counts (hPlace : msg.place.counts = true)
    (hVisible : msg.name.head? ≠ some (chr '.')) (hFile : countfile msg.name = true) :
    msg.weight = msg.countedSize.toInt := by
  have hCounts : msg.counts = true := by
    unfold Message.counts
    rw [hPlace, hFile, decide_eq_true hVisible]
    rfl
  unfold Message.weight
  rw [if_pos hCounts]

variable {m : Move} {files : List Message} {destdir : Place}

/- The link that a move makes is counted like the message. -/
theorem newWeight_link (hFine : FineMove m files destdir m.file.place)
    (hDone : m.completes files destdir m.file.place = true) (hNe : m.source ≠ m.dest)
    (hDest : destdir.counts = true) (hOwn : m.file.place.isShared = false) :
    m.newWeight destdir m.file.place = m.file.countedSize.toInt := by
  have hNew : m.newFile destdir m.file.place = some (m.link destdir) := by
    unfold Move.newFile
    rw [not_shared_of_counts hDest, hOwn, Bool.or_false, if_neg Bool.false_ne_true, if_pos hNe]
  have hFile := (hFine.named hDone hDest _ hNew).1
  have hVisible : (m.link destdir).name.head? ≠ some (chr '.') := by
    have hHead := head_remflagname (chr 'T') m.file.name
    have hName : (m.link destdir).name = remflagname (chr 'T') m.file.name := rfl
    rw [hName, hHead]
    exact hFine.visible
  have hSize : (m.link destdir).countedSize = m.file.countedSize := by
    have hQuota := parsequota_remflagname (chr 'T') m.file.name
    unfold Message.countedSize Move.link
    simp only [hQuota]
  unfold Move.newWeight
  rw [hNew, Option.map_some, Option.getD_some, weight_of_counts hDest hVisible hFile, hSize]

/- The copy of a shared message is counted by its size. -/
theorem newWeight_copy (hFine : FineMove m files destdir m.file.place)
    (hDone : m.completes files destdir m.file.place = true) (hDest : destdir.counts = true)
    (hShared : m.file.place.isShared = true) :
    m.newWeight destdir m.file.place = m.file.size.toInt := by
  have hNew : m.newFile destdir m.file.place = some (m.copy destdir) := by
    unfold Move.newFile
    rw [hShared, Bool.or_true, if_pos rfl]
  rcases hFine.named hDone hDest _ hNew with ⟨hFile, hCopy⟩
  rcases hCopy hShared with ⟨hQuota, hVisible⟩
  have hSize : (m.copy destdir).countedSize = m.file.size := by
    unfold Message.countedSize
    rw [hQuota]
    rfl
  unfold Move.newWeight
  rw [hNew, Option.map_some, Option.getD_some, weight_of_counts hDest hVisible hFile, hSize]

/- The size in the name is the one that is charged. -/
theorem filesize_of_parsequota {n : Int64} (hQuota : parsequota m.file.name = some n) :
    m.filesize = n ∧ m.file.countedSize = n := by
  unfold Move.filesize Message.countedSize
  rw [hQuota]
  exact ⟨rfl, rfl⟩

/- A move within one folder. -/
theorem newWeight_same (hFine : FineMove m files destdir m.file.place)
    (hSame : destdir = m.file.place) (hDone : m.completes files destdir m.file.place = true)
    (hEq : m.source = m.dest) : m.newWeight destdir m.file.place = 0 ∧ m.file.weight = 0 := by
  cases hCounts : m.file.place.counts with
  | false =>
    rw [hSame]
    exact ⟨newWeight_of_place hCounts _, weight_of_not_counts (counts_of_place hCounts)⟩
  | true =>
    have hOwn := not_shared_of_counts hCounts
    have hFile := hFine.leaves hDone hEq hCounts
    refine ⟨?_, weight_of_not_counts (counts_of_countfile hFile)⟩
    unfold Move.newWeight Move.newFile
    rw [hSame, hOwn, Bool.or_false, if_neg Bool.false_ne_true, if_neg (not_not_intro hEq)]
    rfl

/- A move that is completed changes what it charges. -/
theorem newWeight_eq (hFine : FineMove m files destdir m.file.place)
    (hSame : m.source = m.dest → destdir = m.file.place)
    (hDone : m.completes files destdir m.file.place = true) :
    m.newWeight destdir m.file.place - m.file.weight = (m.charge destdir m.file.place).delta
        m.filesize.toInt := by
  have hSized := hFine.sized
  have hDeletes := hFine.deletes
  by_cases hEq : m.source = m.dest
  · rcases newWeight_same hFine (hSame hEq) hDone hEq with ⟨hNew, hOld⟩
    unfold Move.charge
    rw [if_pos hEq, hNew, hOld]
    rfl
  unfold Move.charge at hSized hDeletes ⊢
  rw [if_neg hEq] at hSized hDeletes ⊢
  cases hDest : destdir.counts with
  | false =>
    simp only [hDest, Bool.not_false, Bool.true_and, Bool.false_and, Bool.false_eq_true, if_false]
      at hSized hDeletes ⊢
    rw [newWeight_of_place hDest]
    cases hFile : countfile m.file.name with
    | false =>
      rw [weight_of_not_counts (counts_of_countfile hFile)]
      rfl
    | true =>
      rw [hFile] at hSized hDeletes
      simp only [if_true] at hSized hDeletes ⊢
      cases hShared : m.file.place.isShared with
      | true =>
        have hPlace : m.file.place.counts = false := by
          by_contra hYes
          rw [Bool.not_eq_false] at hYes
          rw [not_shared_of_counts hYes] at hShared
          cases hShared
        rw [weight_of_not_counts (counts_of_place hPlace)]
        rfl
      | false =>
        rw [hShared] at hSized hDeletes
        rcases hSized (fun hNo => nomatch hNo) with ⟨n, hQuota, _⟩
        rcases filesize_of_parsequota hQuota with ⟨hCharged, hCounted⟩
        rw [weight_of_counts (hDeletes rfl) hFine.visible hFile, hCounted, hCharged]
        exact Int.zero_sub _
  | true =>
    simp only [hDest, Bool.not_true, Bool.false_and, Bool.true_and, Bool.false_eq_true, if_false]
      at hSized hDeletes ⊢
    cases hPlace : m.file.place.counts with
    | false =>
      rw [hPlace] at hSized
      rcases hSized (fun hNo => nomatch hNo) with ⟨n, hQuota, _, hSize⟩
      rcases filesize_of_parsequota hQuota with ⟨hCharged, hCounted⟩
      rw [weight_of_not_counts (counts_of_place hPlace), Int.sub_zero]
      simp only [Bool.not_false, if_true]
      cases hShared : m.file.place.isShared with
      | true =>
        rw [newWeight_copy hFine hDone hDest hShared, hCharged, hSize hShared]
        rfl
      | false =>
        rw [newWeight_link hFine hDone hEq hDest hShared, hCharged, hCounted]
        rfl
    | true =>
      have hFile := hFine.unmarked hDone hEq hDest hPlace
      rw [newWeight_link hFine hDone hEq hDest (not_shared_of_counts hPlace),
        weight_of_counts hPlace hFine.visible hFile]
      exact Int.sub_self _

/- The files after a move. -/
theorem moveFile_usage (hMem : m.file ∈ files) (hFine : FineMove m files destdir m.file.place)
    (hSame : m.source = m.dest → destdir = m.file.place) :
    usage (moveFile files m destdir m.file.place) = usage files +
        (m.charge destdir m.file.place).delta
          m.filesize.toInt := by
  rw [moveFile_eq]
  cases hDone : m.completes files destdir m.file.place with
  | false =>
    have hNone : m.charge destdir m.file.place = .none := by
      by_contra hCharged
      rw [hFine.stores hCharged] at hDone
      cases hDone
    rw [if_neg Bool.false_ne_true, hNone]
    exact (Int.add_zero _).symm
  | true =>
    have hIn : m.file ∈ files ++ (m.newFile destdir m.file.place).toList :=
      List.mem_append_left _ hMem
    have hAll : usage (files ++ (m.newFile destdir m.file.place).toList) =
          usage files + m.newWeight destdir m.file.place := by
      unfold Move.newWeight
      cases m.newFile destdir m.file.place with
      | none =>
        rw [Option.toList_none, List.append_nil]
        exact (Int.add_zero _).symm
      | some msg => exact usage_append_singleton files msg
    have hNew := newWeight_eq hFine hSame hDone
    rw [if_pos rfl, markTrashed_usage hIn (hFine.marks hDone), hAll]
    omega

/- What a booking adds to the ledger. -/
theorem addquota_recorded {s : Store} {recalculates : Bool}
    (hLedger : recalculates = true → s.recorded = usage s.files) {size : Int64}
    (hLeast : size ≠ Int64.minValue) (cnt : Int32) :
    (s.addquota recalculates size cnt).recorded = s.recorded + size.toInt := by
  have hRead := @scanTotals_totalsText (size, cnt) hLeast
  unfold Store.addquota
  simp only [hRead]
  cases recalculates with
  | false => rfl
  | true =>
    rw [hLedger rfl]
    rfl

theorem neg_ne_minValue {n : Int64} (hLeast : n ≠ Int64.minValue) :
    -n ≠ Int64.minValue ∧ (-n).toInt = -n.toInt := by
  have hLow := n.le_toInt
  have hNot : n.toInt ≠ -2 ^ 63 := by
    intro hEq
    apply hLeast
    rw [← Int64.toInt_inj, hEq]
    rfl
  have hHigh := n.toInt_lt
  have hNeg : (-n).toInt = -n.toInt := by
    rw [Int64.toInt_neg, Int.bmod_eq_of_le (by omega) (by omega)]
  refine ⟨?_, hNeg⟩
  intro hEq
  have hMin : Int64.minValue.toInt = -2 ^ 63 := rfl
  rw [hEq, hMin] at hNeg
  omega

/- A booking changes the ledger by what is charged. -/
theorem bookQuota_recorded {s s' : Store} (hFine : FineMove m s.files destdir m.file.place)
    (hLedger : m.recalculates = true →
      s.recorded = usage s.files) (hBook : bookQuota s m destdir m.file.place = some s') :
    s'.files = s.files ∧ s'.recorded = s.recorded + (m.charge destdir m.file.place).delta
          m.filesize.toInt := by
  have hSized := hFine.sized
  unfold bookQuota at hBook
  cases hCharge : m.charge destdir m.file.place with
  | none =>
    rw [hCharge] at hBook
    cases hBook
    exact ⟨rfl, (Int.add_zero _).symm⟩
  | deleted =>
    rw [hCharge] at hBook hSized
    cases hBook
    rcases hSized (fun hNo => nomatch hNo) with ⟨n, hQuota, hLeast, _⟩
    rcases filesize_of_parsequota hQuota with ⟨hCharged, _⟩
    rcases neg_ne_minValue hLeast with ⟨hNeg, hInt⟩
    refine ⟨rfl, ?_⟩
    rw [hCharged, addquota_recorded hLedger hNeg, hInt]
    rfl
  | added =>
    rw [hCharge] at hBook hSized
    simp only [] at hBook
    split at hBook
    · cases hBook
      rcases hSized (fun hNo => nomatch hNo) with ⟨n, hQuota, hLeast, _⟩
      rcases filesize_of_parsequota hQuota with ⟨hCharged, _⟩
      refine ⟨rfl, ?_⟩
      rw [hCharged, addquota_recorded hLedger hLeast]
      rfl
    · cases hBook

/- The move is fine, if it comes to moving a message. -/
def FineStep (s : Store) (m : Move) : Prop :=
  ∀ destdir, xlateShmdir m.dest = some destdir → bookQuota s m destdir m.file.place ≠ none →
        FineMove m s.files destdir m.file.place

/- One move changes the ledger and the usage alike. -/
theorem msgmove_balance {s : Store} (hFine : FineStep s m)
    (hLedger : m.recalculates = true → s.recorded = usage s.files) :
    (msgmove s m).recorded - s.recorded = usage (msgmove s m).files - usage s.files := by
  unfold msgmove
  split
  · rename_i hFound
    rcases hFound with ⟨hMem, hPlace⟩
    unfold doMsgmove
    rw [hPlace]
    cases hDest : xlateShmdir m.dest with
    | none => simp
    | some destdir =>
      simp only []
      cases hBook : bookQuota s m destdir m.file.place with
      | none => simp
      | some booked =>
        have hMove := hFine destdir hDest (by
          rw [hBook]
          exact fun hNo => nomatch hNo)
        have hSame : m.source = m.dest → destdir = m.file.place := by
          intro hEq
          rw [hEq, hDest] at hPlace
          cases hPlace
          rfl
        rcases bookQuota_recorded hMove hLedger hBook with ⟨hFiles, hRecorded⟩
        simp only []
        rw [hFiles, hRecorded, moveFile_usage hMem hMove hSame]
        omega
  · simp

/- Every move of a sequence is fine when its turn comes. -/
def FineRun : Store → List Move → Prop
  | _, [] => True
  | s, m :: rest => FineStep s m ∧ FineRun (msgmove s m) rest

/-
  A sequence of moves changes the ledger by what it changes
  the usage.
-/
theorem msgmoves_balance {s : Store} {moves : List Move} (hFine : FineRun s moves) (hLedger :
      (∀ m, m ∈ moves → m.recalculates = false) ∨ s.recorded = usage s.files) :
    (moves.foldl msgmove s).recorded - s.recorded =
      usage (moves.foldl msgmove s).files - usage s.files := by
  induction moves generalizing s with
  | nil => simp
  | cons m rest ih =>
    have hFirst : m.recalculates = true → s.recorded = usage s.files := by
      intro hYes
      rcases hLedger with hNever | hEqual
      · rw [hNever m List.mem_cons_self] at hYes
        cases hYes
      · exact hEqual
    have hStep := msgmove_balance hFine.1 hFirst
    have hRest := ih hFine.2 (by
      rcases hLedger with hNever | hEqual
      · left
        exact fun other hMem => hNever other (List.mem_cons_of_mem m hMem)
      · right
        omega)
    rw [List.foldl_cons]
    omega

/- A move that the system carries out. -/
def ordinaryMove (source dest : List Byte) (file : Message) : Move where
  source := source
  dest := dest
  file := file
  stale := 0
  room := true
  recalculates := false
  created := bytes "2.host"
  stored := true
  renamed := true
  underlying := none

/- A message in the inbox. -/
def inboxMessage (name : List Byte) : Message where
  place := .own (bytes ".")
  sub := .cur
  name := name
  size := 5

theorem fineRun_delete : FineRun ⟨[inboxMessage (bytes "1,S=5:2,S")], 5⟩
      [ordinaryMove (bytes "INBOX") (bytes "Trash") (inboxMessage (bytes "1,S=5:2,S"))] := by
  refine ⟨?_, trivial⟩
  intro destdir hDest _
  have hTrash : xlateShmdir (bytes "Trash") = some (.own (bytes ".Trash")) := by decide
  have hPlace : destdir = .own (bytes ".Trash") := by
    have hSame := hDest.symm.trans hTrash
    cases hSame
    rfl
  subst hPlace
  refine ⟨by decide, ?_, fun _ => by decide, fun _ => by decide, ?_, ?_, fun _ _ _ => by decide, ?_⟩
  · intro _
    exact ⟨5, by decide, by decide, fun _ => rfl⟩
  · intro _ hEq
    revert hEq
    decide
  · intro _ _ hCounts
    revert hCounts
    decide
  · intro _ hCounts
    revert hCounts
    decide

/- A message goes to the trash. -/
theorem msgmoves_balance_delete : ([ordinaryMove (bytes "INBOX") (bytes "Trash")
        (inboxMessage (bytes "1,S=5:2,S"))].foldl msgmove
          ⟨[inboxMessage (bytes "1,S=5:2,S")], 5⟩).recorded - 5 =
      usage ([ordinaryMove (bytes "INBOX") (bytes "Trash")
        (inboxMessage (bytes "1,S=5:2,S"))].foldl msgmove
          ⟨[inboxMessage (bytes "1,S=5:2,S")], 5⟩).files -
        usage [inboxMessage (bytes "1,S=5:2,S")] :=
  msgmoves_balance fineRun_delete (Or.inl (by decide))

/-
  A message that is marked already is moved again: it comes
  to count in the new folder, and nothing is charged.
-/
theorem msgmoves_balance_marked : ¬ ∀ (s : Store) (moves : List Move), (∀ m, m ∈ moves →
        m.room = true ∧ m.stored = true ∧ m.renamed = true ∧ m.recalculates = false) →
        (moves.foldl msgmove s).recorded - s.recorded =
          usage (moves.foldl msgmove s).files - usage s.files := by
  intro hAll
  have hMove := hAll ⟨[inboxMessage (bytes "1,S=5:2,T")], 0⟩
    [ordinaryMove (bytes "INBOX") (bytes "Archive")
      (inboxMessage (bytes "1,S=5:2,T"))] (by decide)
  revert hMove
  decide

end Wmail.Maildir
