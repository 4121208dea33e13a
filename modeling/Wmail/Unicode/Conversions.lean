import Wmail.Core.Retrying
import Wmail.Core.Runs
import Wmail.Unicode.Utf7RoundTrip
import Wmail.Unicode.Utf8RoundTrip

/-
  Texts that go from one character set to another (unicode.c,
  iso8859.c), and the names of folders (sqwebmail/maildir.c).

  Key theorems include:
    * `unicodeXconvert_tokens`
    * `folderFromutf7_folderToutf7`
-/

namespace Wmail.Unicode

/-
  `struct unicode_info`: the conversions, where a failure is
  the place that is stored in `err`.
-/
structure UnicodeInfo where
  chset : List Byte
  c2u : List Byte → Except Nat (List UnicodeChar)
  u2c : List UnicodeChar → Except Nat (List Byte)

/- `unicode_UTF8`. -/
def unicodeUTF8 : UnicodeInfo where
  chset := bytes "UTF-8"
  c2u := utf8Tou true
  u2c uc := .ok (utf8Fromu uc)

/- A code point of one of these sets, or zero. -/
def iso8859Code (table : Vector UnicodeChar 128) (b : Byte) : UnicodeChar :=
  if b < 128 then b.toUInt32 else table.get (Fin.ofNat 128 b.toNat)

/- `unicode_iso8859_c2u`. -/
def iso8859C2u (table : Vector UnicodeChar 128) : List Byte → Except Nat (List UnicodeChar) :=
  readAll (single fun b => if iso8859Code table b = 0 then none else some (iso8859Code table b)) 0 0

/- The body of the loop in `unicode_iso8859_u2c`. -/
def iso8859Byte (tab : Vector UnicodeChar 128) (ucc : UnicodeChar) : Option Byte :=
  let found :=
    if ucc &&& 0x7F = ucc then
      some ucc.toUInt8
    else if tab.get (Fin.ofNat 128 ucc.toNat) = ucc then
      some ((ucc &&& 0x7F).toUInt8 ||| 0x80)
    else
      (tab.toList.idxOf? ucc).map fun c => UInt8.ofNat c ||| 0x80
  found.map fun c => if c = 0 then 255 else c

/- `unicode_iso8859_u2c`. -/
def iso8859U2c (tab : Vector UnicodeChar 128) : List UnicodeChar → Except Nat (List Byte) :=
  readAll (single (iso8859Byte tab)) 0 0

/- One of the sets that share these functions. -/
def unicodeIso8859 (chset : List Byte) (table : Vector UnicodeChar 128) : UnicodeInfo where
  chset := chset
  c2u := iso8859C2u table
  u2c := iso8859U2c table

/- The inner loop of `unicode_xconvert`. -/
def xconvertOut (dst : UnicodeInfo) : List UnicodeChar → Option (List Byte) :=
  retryLoop (tryConvert dst.u2c) fun _ => [chr '.']

/-
  `unicode_xconvert`: a code point that is zero ends a text,
  and a byte that has no code point is copied.
-/
def unicodeXconvert (txt : List Byte) (src dst : UnicodeInfo) : Option (List Byte) :=
  if src.chset = dst.chset then
    some txt
  else
    retryLoop (fun conv => (tryConvert src.c2u conv).bind fun (uc, l) =>
      (xconvertOut dst (uc.takeWhile (· ≠ 0))).map (·, l)) (fun b => [b]) txt

------------
-- Byte by Byte
------------

/- What a text of code points is written as. -/
def Writes (dst : UnicodeInfo) (write : UnicodeChar → List Byte) : Prop :=
  ∀ uc : List UnicodeChar, 0 ∉ uc → xconvertOut dst uc = some (uc.flatMap write)

theorem writes_iso8859 (chset : List Byte) (tab : Vector UnicodeChar 128) :
    Writes (unicodeIso8859 chset tab) fun ucc => [(iso8859Byte tab ucc).getD (chr '.')] := by
  intro uc _
  have hEach := @retryLoop_tokens _ _ _ _ (steady_single (iso8859Byte tab)) some ([·])
    (fun _ => [chr '.']) (fun _ => True)
    (fun u _ => congrArg some (List.flatMap_singleton' u).symm) uc fun _ _ => trivial
  refine Eq.trans ?_ (hEach.trans ?_)
  · unfold xconvertOut
    congr 1
    funext text
    cases hTry : tryConvert (readAll (single (iso8859Byte tab)) 0 0) text with
    | none => exact hTry
    | some found => exact hTry
  · rw [tokens_single, List.flatMap_map]
    refine congrArg some (congrArg uc.flatMap (funext fun ucc => ?_))
    cases iso8859Byte tab ucc with
    | none => rfl
    | some c => rfl

theorem writes_utf8 : Writes unicodeUTF8 utf8Bytes := by
  intro uc hZero
  have hText : utf8Fromu uc = uc.flatMap utf8Bytes := by
    rw [utf8Fromu_eq, takeWhile_unclosed hZero]
  unfold xconvertOut retryLoop
  split
  · rename_i hNil
    rw [hNil]
    rfl
  · rw [← hText]
    exact dif_neg (Nat.lt_irrefl _)

/- It is empty, or ends with a blank or a newline. -/
def Breaks (front : List Byte) : Prop :=
  ∀ last, front.getLast? = some last → last = chr ' ' ∨ last = nl

/- What is read from a text, and does not go over a break. -/
structure Reads (src : UnicodeInfo) (reader : Reader Byte UnicodeChar) : Prop where
  c2u : src.c2u = readAll reader 0 0
  steady : Steady reader
  within : ∀ b s back uc more, Breaks (b :: s) → reader b (s ++ back) = some (uc, more) →
    more ≤ s.length

theorem reads_iso8859 (chset : List Byte) (table : Vector UnicodeChar 128) :
    Reads (unicodeIso8859 chset table) (single fun b =>
      if iso8859Code table b = 0 then none else some (iso8859Code table b)) where
  c2u := rfl
  steady := steady_single _
  within _ _ _ _ _ _ hRead := single_more hRead ▸ Nat.zero_le _

/- What begins with a byte of a text in UTF-8. -/
def utf8Reader : Reader Byte UnicodeChar := fun b cp =>
  if b &&& 0x80 = 0 then
    some (b.toUInt32, 0)
  else
    (utf8FormAt b cp).map fun f => (f.value b cp, f.more)

theorem utf8FormAt_spec {b : Byte} {cp : List Byte} {f : Utf8Form}
    (hFind : utf8FormAt b cp = some f) : f ∈ utf8Forms ∧ b &&& f.test = f.mark ∧
      f.more ≤ cp.length ∧ ∀ c, c ∈ cp.take f.more → c &&& 0xC0 = 0x80 := by
  have hTests := List.find?_some hFind
  unfold continued at hTests
  simp only [Bool.and_eq_true, decide_eq_true_iff, List.all_eq_true] at hTests
  exact ⟨List.mem_of_find?_eq_some hFind, hTests.1, hTests.2⟩

theorem utf8Tou_readAll (l n skip : Nat) (cp : List Byte) :
    (touCount true l n skip cp).map (fun _ => touFill skip cp) = readAll utf8Reader l skip cp := by
  induction cp generalizing l n skip with
  | nil => cases skip <;> rfl
  | cons b cp ih =>
    cases skip with
    | succ skip => exact ih (l + 1) n skip
    | zero =>
      rw [touCount, touFill, readAll, utf8Reader]
      by_cases hLow : b &&& 0x80 = 0
      · rw [if_pos hLow, if_pos hLow, if_pos hLow]
        dsimp only
        rw [← ih (l + 1) (n + 1) 0]
        cases touCount true (l + 1) (n + 1) 0 cp <;> rfl
      rw [if_neg hLow, if_neg hLow, if_neg hLow]
      cases utf8FormAt b cp with
      | none => rfl
      | some f =>
        dsimp only [Option.map_some]
        rw [← ih (l + 1) (n + 1) f.more]
        cases touCount true (l + 1) (n + 1) f.more cp <;> rfl

theorem reads_utf8 : Reads unicodeUTF8 utf8Reader where
  c2u := funext fun cp => utf8Tou_readAll 0 1 0 cp
  steady b cp uc more hRead := by
    unfold utf8Reader at hRead ⊢
    split at hRead
    · rename_i hLow
      cases hRead
      exact ⟨Nat.zero_le _, fun _ => if_pos hLow⟩
    · rename_i hHigh
      rcases Option.map_eq_some_iff.mp hRead with ⟨f, hFind, hSame⟩
      cases hSame
      rcases utf8FormAt_spec hFind with ⟨hForm, hMark, hMore, hConts⟩
      have hLength : (cp.take f.more).length = f.more := List.length_take_of_le hMore
      refine ⟨hMore, fun others => ?_⟩
      rw [if_neg hHigh, utf8FormAt_append hForm hMark hLength hConts]
      unfold Utf8Form.value
      rw [Option.map_some, List.take_left' hLength]
  within b s back uc more hBreaks hRead := by
    unfold utf8Reader at hRead
    split at hRead
    · cases hRead
      exact Nat.zero_le _
    · rename_i hHigh
      rcases Option.map_eq_some_iff.mp hRead with ⟨f, hFind, hSame⟩
      cases hSame
      rcases utf8FormAt_spec hFind with ⟨_, _, _, hConts⟩
      by_contra hShort
      have hAll : ∀ c, c ∈ s → c &&& 0xC0 = 0x80 := by
        intro c hMem
        apply hConts
        rw [List.take_append, List.take_of_length_le (by omega)]
        exact List.mem_append_left _ hMem
      cases hLast : s.getLast? with
      | none =>
        rw [List.getLast?_eq_none_iff.mp hLast] at hBreaks
        rcases hBreaks b rfl with rfl | rfl <;> exact absurd rfl hHigh
      | some last =>
        rcases hBreaks last (List.mem_getLast?_cons hLast) with rfl | rfl <;>
          exact absurd (hAll _ (List.mem_of_getLast? hLast)) (by decide)

/-
  One thing after the other is read and written, and a byte
  with which nothing begins is copied.
-/
theorem unicodeXconvert_tokens {src dst : UnicodeInfo} {reader : Reader Byte UnicodeChar}
    {write : UnicodeChar → List Byte} (hReads : Reads src reader) (hWrites : Writes dst write)
    (hOther : src.chset ≠ dst.chset) {txt : List Byte} (hText : .inr 0 ∉ tokens reader 0 txt) :
    unicodeXconvert txt src dst =
      some ((tokens reader 0 txt).flatMap (Sum.elim ([·]) write)) := by
  have hWriter : ∀ uc : List UnicodeChar, (∀ ucc, ucc ∈ uc → ucc ≠ 0) →
      xconvertOut dst (uc.takeWhile (· ≠ 0)) = some (uc.flatMap write) := by
    intro uc hAll
    have hZero : 0 ∉ uc := fun hMem => hAll 0 hMem rfl
    rw [takeWhile_unclosed hZero, hWrites uc hZero]
  unfold unicodeXconvert
  rw [if_neg hOther, hReads.c2u]
  exact retryLoop_tokens hReads.steady hWriter fun c hMem hZero => hText (hZero ▸ hMem)

/- `folder_toutf7`, when the content is in UTF-8. -/
def folderToutf7 (foldername : List Byte) : List Byte :=
  match utf8Tou true foldername with
  | .ok uc => uctomodutf7x (uc.takeWhile (· ≠ 0)) []
  | .error _ => foldername

/- `folder_fromutf7`, when the content is in UTF-8. -/
def folderFromutf7 (foldername : List Byte) : List Byte :=
  match modutf7touc foldername with
  | .ok uc => utf8Fromu uc
  | .error _ => foldername

theorem ascii_byte : ∀ b : Byte, b < 127 ∨ (mbase64Lookup b).isSome = true → b &&& 0x80 = 0 := by
  apply byte_forall
  decide +kernel

theorem exists_of_map_ok {ε α β : Type} {x : Except ε α} {f : α → β} {b : β}
    (hMap : x.map f = .ok b) : ∃ a, x = .ok a ∧ f a = b := by
  cases x with
  | error e => cases hMap
  | ok a => exact ⟨a, rfl, Except.ok.inj hMap⟩

/- Runs are in ASCII, and so are the names that are read. -/
theorem decodeRun_ascii {l uu bitcount : Nat} {s : List Byte}
    {more : List UnicodeChar × List Byte} (hRun : decodeRun l s uu bitcount = .ok more)
    (hMore : ∀ b, b ∈ more.2 → b &&& 0x80 = 0) : ∀ b, b ∈ s → b &&& 0x80 = 0 := by
  fun_induction decodeRun l s uu bitcount generalizing more with
  | case1 => cases hRun
  | case2 =>
    cases hRun
    exact List.forall_mem_cons.mpr ⟨by decide, hMore⟩
  | case3 => cases hRun
  | case4 l b =>
    rename_i hLookup _ _ _ ih
    rcases exists_of_map_ok hRun with ⟨later, hLater, rfl⟩
    exact List.forall_mem_cons.mpr ⟨ascii_byte b (Or.inr (hLookup ▸ rfl)), ih hLater hMore⟩
  | case5 l b s uu bitcount _ bits hLookup _ ih =>
    exact List.forall_mem_cons.mpr ⟨ascii_byte b (Or.inr (hLookup ▸ rfl)), ih hRun hMore⟩

theorem modutf7toucFrom_ascii {l : Nat} {s : List Byte} {u : List UnicodeChar}
    (hOk : modutf7toucFrom l s = .ok u) : ∀ b, b ∈ s → b &&& 0x80 = 0 := by
  have hHead : ∀ b : Byte, ¬(b < 0x20 || 0x7F ≤ b) = true → b &&& 0x80 = 0 := fun b hPlain =>
    ascii_byte b (Or.inl (UInt8.not_le.mp fun hHigh => hPlain (by simp [hHigh])))
  fun_induction modutf7toucFrom l s generalizing u with
  | case1 => exact fun b hMem => absurd hMem List.not_mem_nil
  | case2 => cases hOk
  | case3 l b s hPlain _ ih =>
    rcases exists_of_map_ok hOk with ⟨later, hLater, _⟩
    exact List.forall_mem_cons.mpr ⟨hHead b hPlain, ih hLater⟩
  | case4 l b s hPlain _ hDash ih =>
    rcases exists_of_map_ok hOk with ⟨later, hLater, _⟩
    rcases List.head?_eq_some_iff.mp hDash with ⟨rest, rfl⟩
    exact List.forall_mem_cons.mpr ⟨hHead b hPlain, List.forall_mem_cons.mpr ⟨by decide, ih hLater⟩⟩
  | case5 => cases hOk
  | case6 l b s hPlain _ _ more hRun ih =>
    rcases exists_of_map_ok hOk with ⟨later, hLater, _⟩
    exact List.forall_mem_cons.mpr ⟨hHead b hPlain, decodeRun_ascii hRun (ih hLater)⟩

/- No sequence of a text that is as short as it can be is a zero. -/
theorem nonzero_of_short {seqs : List (List Byte)} {u : List UnicodeChar}
    (hSeqs : List.Forall₂ Utf8Seq seqs u) (hText : 0 ∉ seqs.flatten)
    (hShort : List.Forall₂ (fun seq uc => ¬ Overlong seq uc) seqs u) : 0 ∉ u := by
  induction hSeqs with
  | nil => exact List.not_mem_nil
  | @cons seq uc seqs u hSeq _ ih =>
    rw [List.flatten_cons, List.mem_append, not_or] at hText
    rw [List.forall₂_cons] at hShort
    rcases hSeq.write hText.1 with ⟨_, hSome, _⟩ | ⟨hLong, _⟩
    · exact List.not_mem_cons_of_ne_of_not_mem hSome.symm (ih hText.2 hShort.2)
    · exact absurd hLong hShort.1

/-
  A name comes back when it is not in UTF-8, or each of its
  characters has 16 bits and is as short as it can be; in the
  second case it is stored as text that can be printed.
-/
theorem folderFromutf7_folderToutf7 {name : List Byte} (hText : 0 ∉ name)
    (hName : ∀ uc, utf8Tou true name = .ok uc →
      utf8Fromu uc = name ∧ ∀ ucc, ucc ∈ uc → ucc ≤ 0xFFFF) :
    folderFromutf7 (folderToutf7 name) = name ∧
      ((utf8Tou true name).isOk = true → ∀ b, b ∈ folderToutf7 name → 32 ≤ b ∧ b < 127) := by
  unfold folderFromutf7 folderToutf7
  cases hUtf8 : utf8Tou true name with
  | error place =>
    refine ⟨?_, fun hOk => absurd hOk Bool.false_ne_true⟩
    dsimp only
    split
    · rename_i uc hRead
      have hAscii := modutf7toucFrom_ascii hRead
      have hSeqs : List.Forall₂ Utf8Seq (name.map ([·])) (name.map (·.toUInt32)) := by
        rw [List.forall₂_map_left_iff, List.forall₂_map_right_iff, List.forall₂_same]
        exact fun b hMem => .ascii (hAscii b hMem)
      have hOk := utf8Tou_iff.mpr ⟨_, rfl, hSeqs⟩
      rw [← List.flatMap_def, List.flatMap_singleton', hUtf8] at hOk
      cases hOk
    · rfl
  | ok uc =>
    rcases hName uc hUtf8 with ⟨hBack, hSmall⟩
    rcases utf8Tou_iff.mp hUtf8 with ⟨seqs, rfl, hSeqs⟩
    have hSome := nonzero_of_short hSeqs hText ((utf8Fromu_sequences hSeqs hText).mp hBack)
    have hCan : ∀ ucc, ucc ∈ uc → encodable ucc = true := fun ucc hMem =>
      Bool.and_eq_true_iff.mpr ⟨decide_eq_true (UInt32.pos_iff_ne_zero.mpr fun hIs =>
        hSome (hIs ▸ hMem)), decide_eq_true (hSmall ucc hMem)⟩
    have hRead : modutf7touc (uctomodutf7x uc []) = .ok uc := modutf7toucFrom_uctoutf7Pass hCan 0
    dsimp only
    rw [takeWhile_unclosed hSome, hRead]
    refine ⟨hBack, fun _ b hMem => ?_⟩
    have hPrint := @uctoutf7Pass_printable [] uc (fun _ hIn => absurd hIn List.not_mem_nil) b hMem
    exact ⟨hPrint.1, hPrint.2.1⟩

theorem folderFromutf7_folderToutf7_accent :
    folderFromutf7 (folderToutf7 [0xC3, 0xA9, 0x26]) = [0xC3, 0xA9, 0x26] ∧
      ((utf8Tou true [0xC3, 0xA9, 0x26]).isOk = true →
        ∀ b, b ∈ folderToutf7 [0xC3, 0xA9, 0x26] → 32 ≤ b ∧ b < 127) := by
  refine folderFromutf7_folderToutf7 (by decide) fun uc hOk => ?_
  have hRead : utf8Tou true [0xC3, 0xA9, 0x26] = .ok [0xE9, 0x26] := rfl
  cases hRead.symm.trans hOk
  exact ⟨by decide, by simp⟩

end Wmail.Unicode
