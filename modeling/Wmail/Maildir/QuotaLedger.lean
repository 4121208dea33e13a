import Mathlib.Algebra.Ring.Int.Defs
import Wmail.Maildir.Maildirquota
import Mathlib.Data.List.TakeWhile

/-
  The quota file as a ledger: it is read as the sum of all
  that was added to it.

  Key theorems include:
    * `run_file`
    * `openquotafile_run`
-/

namespace Wmail.Maildir

theorem offTDigits_natCast (room n : Nat) : offTDigits room (n : Int) = decimalDigits room n := by
  induction room generalizing n with
  | zero => rfl
  | succ room ih =>
    have hDiv : (n : Int).tdiv 10 = ((n / 10 : Nat) : Int) := rfl
    have hMod : (n : Int).tmod 10 = ((n % 10 : Nat) : Int) := rfl
    have hByte : (48 + ((n % 10 : Nat) : Int)).toNat = 48 + n % 10 := by omega
    rw [offTDigits, decimalDigits, hDiv, hMod, hByte, ih]
    simp only [Int.natCast_eq_zero]

/- All numbers but the least are written as they are. -/
theorem strOffT_eq {t : Int64} (hLeast : t ≠ Int64.minValue) :
    strOffT t = (if t.toInt < 0 then [chr '-'] else []) ++ decimalDigits 59 t.toInt.natAbs := by
  have hRange := t.le_toInt
  have hZero : (0 : Int64).toInt = 0 := rfl
  unfold strOffT numbufsize
  simp only [Int64.lt_iff_toInt_lt, hZero]
  split
  · rename_i hNeg
    have hAbs : (-t).toInt = (t.toInt.natAbs : Int) := by
      have hNot : t.toInt ≠ -2 ^ 63 := by
        intro hEq
        apply hLeast
        rw [← Int64.toInt_inj, hEq]
        rfl
      rw [Int64.toInt_neg, Int.bmod_eq_of_le (by omega) (by omega)]
      omega
    rw [hAbs, offTDigits_natCast]
    rfl
  · rename_i hPos
    have hAbs : t.toInt = (t.toInt.natAbs : Int) := by omega
    rw [List.nil_append]
    nth_rewrite 1 [hAbs]
    exact offTDigits_natCast 59 _

theorem natAbs_lt (t : Int64) : t.toInt.natAbs < 10 ^ 59 := by
  have hLow := t.le_toInt
  have hHigh := t.toInt_lt
  have hBig : (2 : Nat) ^ 63 < 10 ^ 59 := by decide
  omega

theorem longOf_toInt (t : Int64) : longOf t.toInt = t := by
  have hLow := t.le_toInt
  have hHigh := t.toInt_lt
  rw [longOf_eq_ofInt hLow hHigh, Int64.ofInt_toInt]

/- A number that is written is read back. -/
theorem scanInt_strOffT {t : Int64} (hLeast : t ≠ Int64.minValue) {spaces rest : List Byte}
    (hSpaces : ∀ b, b ∈ spaces → isspace b = true)
    (hRest : ∀ b, rest.head? = some b → isdigit b = false) :
    scanInt (spaces ++ strOffT t ++ rest) = some (t.toInt, rest) := by
  have hScan := @scanInt_numeral spaces (decimalDigits 59 t.toInt.natAbs) rest
    (decide (t.toInt < 0)) hSpaces
    (fun b => isdigit_decimalDigits)
    (decimalDigits_ne_nil 58 _) hRest
  rw [decimalValue_decimalDigits (natAbs_lt t)] at hScan
  simp only [decide_eq_true_eq] at hScan
  rw [strOffT_eq hLeast, hScan]
  have hValue : (if t.toInt < 0 then -(t.toInt.natAbs : Int)
      else t.toInt.natAbs) = t.toInt := by
    split <;> omega
  rw [hValue]

theorem toInt64_ne_minValue (c : Int32) : c.toInt64 ≠ Int64.minValue := by
  intro hEq
  have hLow := c.le_toInt
  have hValue := congrArg Int64.toInt hEq
  rw [Int32.toInt_toInt64] at hValue
  have hMin : Int64.minValue.toInt = -2 ^ 63 := rfl
  rw [hMin] at hValue
  omega

/- The text of one line, without its newline. -/
def totalsText (line : Int64 × Int32) : List Byte :=
  padLeft 8 (strOffT line.1) ++ bytes " " ++ padLeft 4 (strOffT line.2.toInt64)

/- A line is read as it was written. -/
theorem scanTotals_totalsText {line : Int64 × Int32} (hLeast : line.1 ≠ Int64.minValue) :
    scanTotals (totalsText line) = line := by
  have hBlanks : ∀ n b, b ∈ List.replicate n (chr ' ') → isspace b = true := by
    intro n b hMem
    rw [(List.mem_replicate.mp hMem).2]
    rfl
  have hFirst : scanInt (totalsText line) = some (line.1.toInt,
        bytes " " ++ padLeft 4 (strOffT line.2.toInt64)) := by
    unfold totalsText padLeft
    rw [List.append_assoc (_ ++ strOffT line.1)]
    apply scanInt_strOffT hLeast (hBlanks _)
    intro b hHead
    cases hHead
    rfl
  have hSecond : scanInt (bytes " " ++ padLeft 4 (strOffT line.2.toInt64)) =
        some (line.2.toInt64.toInt, []) := by
    have hScan := @scanInt_strOffT line.2.toInt64 (toInt64_ne_minValue line.2)
      (bytes " " ++ List.replicate
        (4 - (strOffT line.2.toInt64).length) (chr ' ')) [] (by
          intro b hMem
          rcases List.mem_append.mp hMem with hIn | hIn
          · cases hIn with
            | head => rfl
            | tail _ hNo => cases hNo
          · exact hBlanks _ b hIn) (by
          intro b hHead
          cases hHead)
    rw [List.append_nil, List.append_assoc] at hScan
    exact hScan
  unfold scanTotals
  rw [hFirst]
  simp only []
  rw [hSecond, longOf_toInt]
  simp only []
  rw [longOf_toInt, Int32.toInt32_toInt64]

/- The quota that a header states; zero means no limit. -/
def headerQuota (quota : Maildirquota) : Maildirquota where
  nbytes := if 0 < quota.nbytes then quota.nbytes else 0
  nmessages :=
    if 0 < quota.nmessages then quota.nmessages else 0

theorem parsequotaLoop_digits (q : Maildirquota) (n : Nat) {digits : List Byte}
    (hDigits : ∀ b, b ∈ digits → isdigit b = true) (rest : List Byte) :
    parsequotaLoop q (some (Int64.ofNat n)) (digits ++ rest) =
      parsequotaLoop q (some (Int64.ofNat (digits.foldl
          (fun n b => n * 10 + (b.toNat - 48)) n))) rest := by
  induction digits generalizing n with
  | nil => rfl
  | cons b more ih =>
    have hStep : Int64.ofNat n * 10 + Int64.ofNat (b.toNat - 48) =
          Int64.ofNat (n * 10 + (b.toNat - 48)) := by
      rw [Int64.ofNat_add, Int64.ofNat_mul]
      rfl
    rw [List.cons_append, parsequotaLoop, if_pos (hDigits b List.mem_cons_self), Option.getD_some,
      hStep, ih _ fun d hMem => hDigits d (List.mem_cons_of_mem b hMem)]
    rfl

/- A numeral in the header, and what comes behind it. -/
theorem parsequotaLoop_numeral (q : Maildirquota) {n : Nat} (hLess : n < 10 ^ 59)
    (rest : List Byte) :
    parsequotaLoop q none (decimalDigits 59 n ++ rest) =
      parsequotaLoop q (some (Int64.ofNat n)) rest := by
  have hDigits : ∀ b, b ∈ decimalDigits 59 n → isdigit b = true := fun b => isdigit_decimalDigits
  have hLoop := parsequotaLoop_digits q 0 hDigits rest
  have hValue : (decimalDigits 59 n).foldl (fun n b => n * 10 + (b.toNat - 48)) 0 = n :=
    decimalValue_decimalDigits hLess
  rw [hValue] at hLoop
  rw [← hLoop]
  cases hSplit : decimalDigits 59 n with
  | nil => exact absurd hSplit (decimalDigits_ne_nil 58 n)
  | cons b more =>
    have hFirst : isdigit b = true := by
      apply hDigits
      rw [hSplit]
      exact List.mem_cons_self
    rw [List.cons_append, parsequotaLoop, parsequotaLoop, if_pos hFirst, if_pos hFirst]
    rfl

/- A quota above zero, in the header. -/
theorem strOffT_pos {t : Int64} (hPos : 0 < t) :
    strOffT t = decimalDigits 59 t.toInt.toNat ∧ Int64.ofNat t.toInt.toNat = t ∧
      t.toInt.toNat < 10 ^ 59 := by
  have hInt : 0 < t.toInt := Int64.lt_iff_toInt_lt.mp hPos
  have hLeast : t ≠ Int64.minValue := by
    rintro rfl
    revert hInt
    decide
  have hAbs : t.toInt.natAbs = t.toInt.toNat := by omega
  have hBound := natAbs_lt t
  refine ⟨?_, ?_, ?_⟩
  · rw [strOffT_eq hLeast, if_neg (by omega), List.nil_append, hAbs]
  · rw [← Int64.ofInt_eq_ofNat, Int.toNat_of_nonneg (Int.le_of_lt hInt), Int64.ofInt_toInt]
  · rw [← hAbs]
    exact hBound

/- A number of messages above zero, in the header. -/
theorem strSizeT_pos {c : Int32} (hPos : 0 < c) :
    strSizeT c.toInt.toNat = decimalDigits 59 c.toInt.toNat ∧
      (Int64.ofNat c.toInt.toNat).toInt32 = c ∧
      c.toInt.toNat < 10 ^ 59 := by
  have hInt : 0 < c.toInt := Int32.lt_iff_toInt_lt.mp hPos
  have hHigh := c.toInt_lt
  have hBig : (2 : Nat) ^ 31 < 10 ^ 59 := by decide
  refine ⟨offTDigits_natCast 59 _, ?_, by omega⟩
  rw [Int64.toInt32_ofNat', ← Int32.ofInt_eq_ofNat,
    Int.toNat_of_nonneg (Int.le_of_lt hInt), Int32.ofInt_toInt]

/- The text of the header, without its newline. -/
def headerText (quota : Maildirquota) : List Byte :=
  (if 0 < quota.nbytes then
    strOffT quota.nbytes ++ bytes "S"
  else
    []) ++
    (if 0 < quota.nmessages then
      (if 0 < quota.nbytes then bytes "," else []) ++
        (strSizeT quota.nmessages.toInt.toNat ++ bytes "C")
    else
      [])

theorem quotaHeader_eq (quota : Maildirquota) : quotaHeader quota = headerText quota ++ [nl] := by
  unfold quotaHeader headerText
  rw [List.append_assoc]

/- The part of the header that counts messages. -/
theorem parsequotaLoop_messages (q : Maildirquota) (hNone : q.nmessages = 0)
    (comma : List Byte) (hComma : comma = [] ∨ comma = bytes ",") (c : Int32) :
    parsequotaLoop q none (if 0 < c then
          comma ++ (strSizeT c.toInt.toNat ++ bytes "C")
        else
          []) =
      { q with nmessages := if 0 < c then c else 0 } := by
  split
  · rename_i hPos
    rcases strSizeT_pos hPos with ⟨hText, hBack, hLess⟩
    have hSkip : ∀ rest, parsequotaLoop q none (comma ++ rest) = parsequotaLoop q none rest := by
      intro rest
      rcases hComma with rfl | rfl
      · rfl
      · rfl
    rw [hSkip, hText, parsequotaLoop_numeral q hLess]
    have hLast : parsequotaLoop q (some (Int64.ofNat c.toInt.toNat)) (bytes "C") =
          { q with
            nmessages := (Int64.ofNat c.toInt.toNat).toInt32 } :=
      rfl
    rw [hLast, hBack]
  · rw [← hNone]
    rfl

/- The header is read as it was written. -/
theorem parsequotastr_headerText (quota : Maildirquota) :
    parsequotastr (headerText quota) = headerQuota quota := by
  unfold parsequotastr headerText headerQuota
  split
  · rename_i hPos
    rcases strOffT_pos hPos with ⟨hText, hBack, hLess⟩
    have hSize : ∀ rest, parsequotaLoop noQuota (some (Int64.ofNat quota.nbytes.toInt.toNat))
          (bytes "S" ++ rest) =
        parsequotaLoop { noQuota with
          nbytes := Int64.ofNat quota.nbytes.toInt.toNat }
          none rest := fun rest => rfl
    rw [hText, List.append_assoc, parsequotaLoop_numeral noQuota hLess, hSize, hBack]
    exact parsequotaLoop_messages _ rfl _ (Or.inr rfl) _
  · exact parsequotaLoop_messages noQuota rfl [] (Or.inl rfl) _

/- A line has no newline and no NUL. -/
structure Printed (text : List Byte) : Prop where
  nl : nl ∉ text
  nul : (0 : Byte) ∉ text

theorem Printed.append {text more : List Byte} (hText : Printed text)
    (hMore : Printed more) : Printed (text ++ more) where
  nl := by
    rw [List.mem_append, not_or]
    exact ⟨hText.nl, hMore.nl⟩
  nul := by
    rw [List.mem_append, not_or]
    exact ⟨hText.nul, hMore.nul⟩

theorem printed_nil : Printed [] where
  nl := List.not_mem_nil
  nul := List.not_mem_nil

theorem printed_digits (room n : Nat) : Printed (decimalDigits room n) := by
  constructor
  · intro hMem
    exact absurd (isdigit_decimalDigits hMem) (by decide)
  · intro hMem
    exact absurd (isdigit_decimalDigits hMem) (by decide)

/- Even the least number is written without a newline. -/
theorem printed_strOffT (t : Int64) : Printed (strOffT t) := by
  by_cases hLeast : t = Int64.minValue
  · subst hLeast
    constructor <;> decide
  · rw [strOffT_eq hLeast]
    apply Printed.append
    · split
      · constructor <;> decide
      · exact printed_nil
    · exact printed_digits 59 _

theorem printed_padLeft (width : Nat) {text : List Byte} (hText : Printed text) :
    Printed (padLeft width text) := by
  have hBlanks : Printed (List.replicate (width - text.length) (chr ' ')) := by
    constructor
    · intro hMem
      exact absurd (List.mem_replicate.mp hMem).2 (by decide)
    · intro hMem
      exact absurd (List.mem_replicate.mp hMem).2 (by decide)
  exact hBlanks.append hText

theorem printed_totalsText (line : Int64 × Int32) : Printed (totalsText line) := by
  have hBlank : Printed (bytes " ") := by
    constructor <;> decide
  unfold totalsText
  exact ((printed_padLeft 8 (printed_strOffT line.1)).append
    hBlank).append (printed_padLeft 4 (printed_strOffT _))

theorem printed_headerText (quota : Maildirquota) : Printed (headerText quota) := by
  have hWord : ∀ s, s = "S" ∨ s = "C" ∨ s = "," → Printed (bytes s) := by
    rintro s (rfl | rfl | rfl)
    all_goals constructor <;> decide
  have hCount : Printed (strSizeT quota.nmessages.toInt.toNat) := by
    unfold strSizeT
    rw [offTDigits_natCast]
    exact printed_digits _ _
  unfold headerText
  apply Printed.append
  · split
    · exact (printed_strOffT _).append (hWord "S" (Or.inl rfl))
    · exact printed_nil
  · split
    · apply Printed.append
      · split
        · exact hWord "," (Or.inr (Or.inr rfl))
        · exact printed_nil
      · exact hCount.append (hWord "C" (Or.inr (Or.inl rfl)))
    · exact printed_nil

/- The file after these totals and deltas were added. -/
def ledgerText (quota : Maildirquota) (lines : List (Int64 × Int32)) : List Byte :=
  (headerText quota :: lines.map totalsText).flatMap (· ++ [nl])

theorem doaddquota_false (quota : Maildirquota) (size : Int64) (cnt : Int32) :
    doaddquota quota size cnt false = totalsText (size, cnt) ++ [nl] := by
  unfold doaddquota totalsText
  rw [if_neg Bool.false_ne_true, List.nil_append, ← List.append_assoc]

theorem ledgerText_append (quota : Maildirquota) (lines : List (Int64 × Int32))
    (line : Int64 × Int32) :
    ledgerText quota (lines ++ [line]) = ledgerText quota lines ++ (totalsText line ++ [nl]) := by
  unfold ledgerText
  rw [List.map_append, List.map_singleton, ← List.cons_append,
    List.flatMap_append, List.flatMap_singleton]

theorem recalculated_file (quota : Maildirquota) (size : Int64) (cnt : Int32) :
    (Ledger.recalculated quota size cnt).file = ledgerText quota [(size, cnt)] := by
  have hLine := doaddquota_false quota size cnt
  unfold doaddquota at hLine
  rw [if_neg Bool.false_ne_true, List.nil_append] at hLine
  unfold Ledger.recalculated doaddquota ledgerText
  simp only [if_true]
  rw [hLine, quotaHeader_eq]
  simp

/- A step leaves the file alone, or adds one line to it. -/
theorem step_cases {s s' : Ledger} {event : Event} (hStep : s.step event = some s') :
    (s'.file = s.file ∧ s'.appended = s.appended) ∨
      ∃ line, s'.file = s.file ++ (totalsText line ++ [nl]) ∧
          s'.appended = s.appended ++ [line] := by
  cases event with
  | openquotafile pid =>
    cases hStep
    exact Or.inl ⟨rfl, rfl⟩
  | checkquota pid size cnt recent =>
    simp only [Ledger.step] at hStep
    split at hStep
    · cases hStep
      exact Or.inl ⟨rfl, rfl⟩
    · split at hStep
      · cases hStep
        exact Or.inl ⟨rfl, rfl⟩
      · cases hStep
  | addquota pid size cnt =>
    simp only [Ledger.step] at hStep
    split at hStep
    · cases hStep
      exact Or.inl ⟨rfl, rfl⟩
    · cases hStep
      right
      refine ⟨(size, cnt), ?_, rfl⟩
      simp only [doaddquota_false]
  | closequotafile pid =>
    cases hStep
    exact Or.inl ⟨rfl, rfl⟩

theorem step_file {quota : Maildirquota} {first : Int64 × Int32} {s s' : Ledger}
    {event : Event} (hStep : s.step event = some s')
    (hFile : s.file = ledgerText quota (first :: s.appended)) :
    s'.file = ledgerText quota (first :: s'.appended) := by
  rcases step_cases hStep with ⟨hSame, hNone⟩ | ⟨line, hMore, hAdded⟩
  · rw [hSame, hNone]
    exact hFile
  · rw [hMore, hAdded, hFile, ← List.cons_append, ledgerText_append]

theorem run_file {quota : Maildirquota} {first : Int64 × Int32} {s s' : Ledger}
    {events : List Event} (hRun : s.run events = some s')
    (hFile : s.file = ledgerText quota (first :: s.appended)) :
    s'.file = ledgerText quota (first :: s'.appended) := by
  induction events generalizing s with
  | nil =>
    cases hRun
    exact hFile
  | cons event rest ih =>
    unfold Ledger.run at hRun
    rw [List.foldlM_cons] at hRun
    cases hStep : s.step event with
    | none =>
      rw [hStep] at hRun
      cases hRun
    | some next =>
      rw [hStep] at hRun
      exact ih hRun (step_file hStep hFile)

/- The totals are the sums of the lines. -/
theorem foldl_addTotals (q : Maildirquota) (lines : List (Int64 × Int32)) :
    lines.foldl addTotals q =
      { nbytes := Int64.ofInt (q.nbytes.toInt + (lines.map (·.1.toInt)).sum)
        nmessages := Int32.ofInt (q.nmessages.toInt + (lines.map (·.2.toInt)).sum) } := by
  induction lines generalizing q with
  | nil => simp
  | cons line rest ih =>
    rw [List.foldl_cons, ih]
    simp only [addTotals, List.map_cons, List.sum_cons, Int64.ofInt_add, Int32.ofInt_add,
      Int64.ofInt_toInt, Int32.ofInt_toInt, Int64.add_assoc, Int32.add_assoc]

/- The file has no NUL, and these are its lines. -/
theorem ledgerText_lines (quota : Maildirquota) (lines : List (Int64 × Int32)) :
    linesOf ((ledgerText quota lines).takeWhile (· ≠ 0)) =
      headerText quota :: lines.map totalsText := by
  have hPrinted : ∀ text, text ∈ headerText quota :: lines.map totalsText → Printed text := by
    intro text hMem
    rcases List.mem_cons.mp hMem with rfl | hIn
    · exact printed_headerText quota
    · rcases List.mem_map.mp hIn with ⟨line, _, rfl⟩
      exact printed_totalsText line
  have hNul : (ledgerText quota lines).takeWhile (· ≠ 0) = ledgerText quota lines := by
    apply List.takeWhile_eq_self_iff.mpr
    intro b hMem
    rcases List.mem_flatMap.mp hMem with ⟨text, hText, hIn⟩
    rw [decide_eq_true_iff]
    rintro rfl
    rcases List.mem_append.mp hIn with hHere | hNl
    · exact (hPrinted text hText).nul hHere
    · cases List.mem_singleton.mp hNl
  have hOut := @linesOf_flatMap (headerText quota :: lines.map totalsText)
    (fun text hMem => (hPrinted text hMem).nl) []
  rw [List.append_nil] at hOut
  rw [hNul]
  exact hOut.trans (List.append_nil _)

/- Lines without the least number are read back. -/
theorem map_scanTotals {lines : List (Int64 × Int32)}
    (hLeast : ∀ line, line ∈ lines →
      line.1 ≠ Int64.minValue) : (lines.map totalsText).map scanTotals = lines := by
  rw [List.map_map]
  have hSame : ∀ line, line ∈ lines → (scanTotals ∘ totalsText) line = id line :=
    fun line hMem => scanTotals_totalsText (hLeast line hMem)
  rw [List.map_congr_left hSame, List.map_id]

/- How the file is read. -/
theorem openquotafile_ledgerText (quota : Maildirquota) {lines : List (Int64 × Int32)}
    (hLeast : ∀ line, line ∈ lines →
      line.1 ≠ Int64.minValue) (hSmall : (ledgerText quota lines).length < 5120) :
    openquotafile (ledgerText quota lines) =
      { quota := headerQuota quota
        size := lines.foldl addTotals noQuota
        recalculationNeeded := false
        nlines := lines.length } := by
  unfold openquotafile
  rw [if_neg (Nat.not_le_of_lt hSmall), ledgerText_lines]
  simp only []
  rw [parsequotastr_headerText, map_scanTotals hLeast, List.length_map]

/-
  In every state of every run the file is read as the quota
  of its header and the sums of all that was added, when the
  least number was not among it.
-/
theorem openquotafile_run {quota : Maildirquota} {size : Int64} {cnt : Int32}
    {events : List Event} {s : Ledger}
    (hRun : (Ledger.recalculated quota size cnt).run events =
      some s) (hSmall : s.file.length < 5120)
    (hLeast : ∀ line, line ∈ (size, cnt) :: s.appended → line.1 ≠ Int64.minValue) :
    (openquotafile s.file).quota = headerQuota quota ∧
      (openquotafile s.file).size.nbytes =
        Int64.ofInt (size.toInt + (s.appended.map (·.1.toInt)).sum) ∧
      (openquotafile s.file).size.nmessages =
        Int32.ofInt (cnt.toInt + (s.appended.map (·.2.toInt)).sum) := by
  have hFile := run_file hRun (recalculated_file quota size cnt)
  rw [hFile] at hSmall ⊢
  rw [openquotafile_ledgerText quota hLeast hSmall, foldl_addTotals]
  simp [noQuota]

/- Two processes, one of them inside the other. -/
theorem openquotafile_run_nested : ∃ s, (Ledger.recalculated ⟨1000, 10⟩ 300 2).run
          [.openquotafile 1, .openquotafile 2,
            .checkquota 2 (-120) (-1) false,
            .addquota 1 50 1, .addquota 2 (-120) (-1),
            .closequotafile 1, .closequotafile 2] = some s ∧
        (openquotafile s.file).quota = headerQuota ⟨1000, 10⟩ ∧
        (openquotafile s.file).size.nbytes =
          Int64.ofInt ((300 : Int64).toInt + (s.appended.map (·.1.toInt)).sum) ∧
        (openquotafile s.file).size.nmessages =
          Int32.ofInt ((2 : Int32).toInt + (s.appended.map (·.2.toInt)).sum) :=
  ⟨_, rfl, @openquotafile_run ⟨1000, 10⟩ 300 2
      [.openquotafile 1, .openquotafile 2,
        .checkquota 2 (-120) (-1) false,
        .addquota 1 50 1, .addquota 2 (-120) (-1),
        .closequotafile 1, .closequotafile 2]
      _ rfl (by decide)
      (List.forall_iff_forall_mem.mp (by decide))⟩

/- The least number is not read back. -/
theorem openquotafile_run_least : ¬ ∀ (quota : Maildirquota) (size : Int64) (cnt : Int32)
        (events : List Event) (s : Ledger),
      (Ledger.recalculated quota size cnt).run events = some s →
        s.file.length < 5120 →
        (openquotafile s.file).quota = headerQuota quota ∧
          (openquotafile s.file).size.nbytes =
            Int64.ofInt (size.toInt + (s.appended.map (·.1.toInt)).sum) ∧
          (openquotafile s.file).size.nmessages =
            Int32.ofInt (cnt.toInt + (s.appended.map (·.2.toInt)).sum) := by
  intro hAll
  have hSum := hAll ⟨1000, 10⟩ 300 2
    [.openquotafile 1, .addquota 1 Int64.minValue (-1)]
    _ rfl (by decide)
  revert hSum
  decide

end Wmail.Maildir
