import Wmail.Core.Keyed
import Wmail.Maildir.FolderCache

/-
  The index of a folder: its records are the summaries of the
  messages in order, and stay so while messages are marked.

  Key theorems include:
    * `tracked_markread`
    * `folderIndex_iff`
-/

namespace Wmail.Maildir

open Rfc822

variable {shown : Shown} {m : MsgInfo} {db : Cache} {infos : List MsgInfo} {n : UInt64}

theorem isdigit_ulText {b : Byte} (hMem : b ∈ ulText n) : isdigit b = true :=
  isdigit_decimalDigits hMem

theorem decimalValue_ulText (n : UInt64) : UInt64.ofNat (decimalValue (ulText n)) = n := by
  have hRoom : n.toNat < 10 ^ 20 := Nat.lt_trans n.toNat_lt (by decide)
  unfold ulText
  rw [decimalValue_decimalDigits hRoom, UInt64.ofNat_toNat]

theorem nl_notMem_ulText : nl ∉ ulText n :=
  fun hMem => absurd (isdigit_ulText hMem) (by decide)

theorem parseUl_ulText (n : UInt64) : parseUl (ulText n) = some (n, []) := by
  have hNe : ulText n ≠ [] := decimalDigits_ne_nil 19 n.toNat
  have hStart : (ulText n).dropWhile isspace = ulText n := by
    cases hText : ulText n with
    | nil => rfl
    | cons d more =>
      have hDigit := isspace_of_isdigit (isdigit_ulText (hText ▸ List.mem_cons_self))
      rw [List.dropWhile_cons_of_neg (Bool.eq_false_iff.mp hDigit.1)]
  have hAll : (ulText n).takeWhile isdigit = ulText n :=
    List.takeWhile_eq_self_iff.mpr fun _ => isdigit_ulText
  have hRest : (ulText n).dropWhile isdigit = [] :=
    List.dropWhile_eq_nil_iff.mpr fun _ => isdigit_ulText
  unfold parseUl
  rw [hStart, hAll, hRest, if_neg hNe, decimalValue_ulText]

/- No text of a summary has a newline, and its date is shown. -/
structure MsgInfo.Plain (shown : Shown) (m : MsgInfo) : Prop where
  filename : nl ∉ m.filename
  sender : nl ∉ m.from_s
  subject : nl ∉ m.subject_s
  size : nl ∉ m.size_s
  date : m.date_s = shown.displaydate m.date_n

theorem recordLines_plain (hPlain : m.Plain shown) : ∀ line, line ∈ recordLines m → nl ∉ line := by
  intro line hMem
  unfold recordLines at hMem
  simp only [List.mem_cons, List.not_mem_nil, or_false] at hMem
  rcases hMem with rfl | rfl | rfl | rfl | rfl | rfl | rfl | rfl
  · exact List.not_mem_append (by decide) hPlain.filename
  · exact List.not_mem_append (by decide) hPlain.sender
  · exact List.not_mem_append (by decide) hPlain.subject
  · exact List.not_mem_append (by decide) hPlain.size
  all_goals exact List.not_mem_append (by decide) nl_notMem_ulText

theorem strtokLines_flatMap {lines : List (List Byte)}
    (hLines : ∀ line, line ∈ lines → nl ∉ line) (hSome : ∀ line, line ∈ lines → line ≠ []) :
    strtokLines (lines.flatMap (· ++ [nl])) = lines := by
  have hSplit := linesOf_flatMap hLines []
  rw [List.append_nil, show linesOf [] = [] from rfl, List.append_nil] at hSplit
  unfold strtokLines
  rw [hSplit, List.filter_eq_self]
  exact fun line hMem => decide_eq_true (hSome line hMem)

/- The lines with numbers. -/
theorem MsgInfo.line_numbers (shown : Shown) (m : MsgInfo) (n : UInt64) :
    m.line shown (bytes "DATE=" ++ ulText n) =
        { m with date_n := n.toInt64, date_s := shown.displaydate n.toInt64 } ∧
      m.line shown (bytes "SIZEN=" ++ ulText n) = { m with size_n := n } ∧
      m.line shown (bytes "TIME=" ++ ulText n) = { m with mi_mtime := n.toInt64 } ∧
      m.line shown (bytes "INODE=" ++ ulText n) = { m with mi_ino := n } := by
  refine ⟨?_, ?_, ?_, ?_⟩
  all_goals
    show (parseUl (ulText n)).elim m _ = _
    rw [parseUl_ulText]
    rfl

/- A record is read back as it was written. -/
theorem getMsginfo_record (hPlain : m.Plain shown) (hAt : db (recKey n) = some (recordText m)) :
    getMsginfo shown db n = some m := by
  have hSome : ∀ line, line ∈ recordLines m → line ≠ [] := by
    intro line hMem hNil
    subst hNil
    simp [recordLines, bytes] at hMem
  have hDate := (MsgInfo.line_numbers shown · · |>.1)
  have hSize := (MsgInfo.line_numbers shown · · |>.2.1)
  have hTime := (MsgInfo.line_numbers shown · · |>.2.2.1)
  have hInode := (MsgInfo.line_numbers shown · · |>.2.2.2)
  unfold getMsginfo
  rw [hAt, Option.map_some, recordText, strtokLines_flatMap (recordLines_plain hPlain) hSome]
  unfold recordLines
  simp only [List.foldl_cons, List.foldl_nil, hDate, hSize, hTime, hInode]
  rw [Int64.toInt64_toUInt64, Int64.toInt64_toUInt64, ← hPlain.date]
  rfl

/- A name that is read is within one line. -/
theorem nl_notMem_getMsginfo (hRead : getMsginfo shown db n = some m) : nl ∉ m.filename := by
  have hFold : ∀ (lines : List (List Byte)) (start : MsgInfo), (∀ p, p ∈ lines → nl ∉ p) →
      nl ∉ start.filename → nl ∉ (lines.foldl (MsgInfo.line shown) start).filename := by
    intro lines
    induction lines with
    | nil => exact fun _ _ hStart => hStart
    | cons p lines ih =>
      intro start hLines hStart
      refine ih _ (fun q hMem => hLines q (List.mem_cons_of_mem p hMem)) ?_
      have hLine := hLines p List.mem_cons_self
      unfold MsgInfo.line
      cases hCut : cutAt (chr '=') p with
      | none => exact hStart
      | some parts =>
        rw [(cutAt_eq hCut).2, List.mem_append, List.mem_cons, not_or, not_or] at hLine
        dsimp only
        split
        · exact hLine.2.2
        · unfold MsgInfo.number Option.elim
          split <;> try split
          all_goals grind
  rcases Option.map_eq_some_iff.mp hRead with ⟨buf, _, rfl⟩
  apply hFold _ _ _ List.not_mem_nil
  intro p hMem
  exact not_mem_of_mem_linesOf (List.mem_filter.mp hMem).1

------------
-- What Is Stored
------------

theorem recKey_injective {a b : UInt64} (hSame : recKey a = recKey b) : a = b := by
  have hText := List.append_cancel_left hSame
  have hParse := parseUl_ulText b
  rw [← hText, parseUl_ulText] at hParse
  exact congrArg Prod.fst (Option.some.inj hParse)

theorem recKey_ne_fileKey (n : UInt64) (filename : List Byte) : recKey n ≠ fileKey filename := by
  intro hSame
  have hHead : some (chr 'R') = some (chr 'F') := congrArg List.head? hSame
  exact absurd hHead (by decide)

theorem header_ne_recKey (n : UInt64) : bytes "HEADER" ≠ recKey n := by
  intro hSame
  have hHead : some (chr 'H') = some (chr 'R') := congrArg List.head? hSame
  exact absurd hHead (by decide)

theorem fileKey_eq_iff {a b : List Byte} : fileKey a = fileKey b ↔ stem a = stem b :=
  List.append_right_inj _

theorem store_same (db : Cache) (key value : List Byte) : db.store key value key = some value :=
  if_pos rfl

theorem store_other {key other : List Byte} (hOther : other ≠ key) (db : Cache)
    (value : List Byte) : db.store key value other = db other :=
  if_neg hOther

/- The records of messages, and the places of their names. -/
structure Held (db : Cache) (infos : List MsgInfo) : Prop where
  record : ∀ n : UInt64, db (recKey n) = (infos[n.toNat]?).map recordText
  place : ∀ i m, infos[i]? = some m → db (fileKey m.filename) = some (ulText (UInt64.ofNat i))

/- Another key. -/
theorem Held.store {key value : List Byte} (hHeld : Held db infos)
    (hRec : ∀ n, recKey n ≠ key) (hFile : ∀ name, fileKey name ≠ key) :
    Held (db.store key value) infos where
  record n := (store_other (hRec n) db value).trans (hHeld.record n)
  place i m hAt := (store_other (hFile m.filename) db value).trans (hHeld.place i m hAt)

/- One message more. -/
theorem Held.saveinfo {s : Saving} (hHeld : Held s.tmpdb infos)
    (hCnt : s.cnt = UInt64.ofNat infos.length) (hRoom : infos.length < 2 ^ 64)
    (hNew : ∀ k, k ∈ infos → stem k.filename ≠ stem m.filename) :
    Held (maildirSaveinfo s m).tmpdb (infos ++ [m]) := by
  have hLength : s.cnt.toNat = infos.length := by
    rw [hCnt, UInt64.toNat_ofNat', Nat.mod_eq_of_lt hRoom]
  constructor
  · intro n
    unfold maildirSaveinfo putMsginfo
    dsimp only
    rw [store_other (recKey_ne_fileKey n _), List.getElem?_append]
    by_cases hHere : n = s.cnt
    · rw [hHere, store_same, hLength, if_neg (Nat.lt_irrefl _), Nat.sub_self]
      rfl
    · have hOther : n.toNat ≠ infos.length := fun hSame =>
        hHere (UInt64.toNat_inj.mp (hSame.trans hLength.symm))
      rw [store_other (fun hSame => hHere (recKey_injective hSame)), hHeld.record]
      split
      · rfl
      · rw [List.getElem?_eq_none (by omega), List.getElem?_eq_none (by simp; omega)]
  · intro i k hAt
    unfold maildirSaveinfo putMsginfo
    dsimp only
    rw [List.getElem?_append] at hAt
    split at hAt
    · have hOther := hNew k (List.mem_of_getElem? hAt)
      rw [store_other (fun hSame => hOther (fileKey_eq_iff.mp hSame)),
        store_other (recKey_ne_fileKey _ _).symm, hHeld.place i k hAt]
    · rw [List.getElem?_singleton] at hAt
      split at hAt
      · rename_i hLess hLast
        cases hAt
        rw [store_same, hCnt, show i = infos.length by omega]
      · cases hAt

/- All messages, one after the other. -/
theorem held_saves (ms : List MsgInfo) {s : Saving} (hHeld : Held s.tmpdb infos)
    (hCnt : s.cnt = UInt64.ofNat infos.length) (hRoom : (infos ++ ms).length < 2 ^ 64)
    (hStems : ((infos ++ ms).map fun k => stem k.filename).Nodup) :
    Held (ms.foldl maildirSaveinfo s).tmpdb (infos ++ ms) ∧
      (ms.foldl maildirSaveinfo s).cnt = UInt64.ofNat (infos ++ ms).length := by
  induction ms generalizing s infos with
  | nil =>
    rw [List.append_nil]
    exact ⟨hHeld, hCnt⟩
  | cons m ms ih =>
    rw [List.append_cons] at hRoom hStems ⊢
    have hNew : ∀ k, k ∈ infos → stem k.filename ≠ stem m.filename := by
      intro k hMem
      rw [List.map_append, List.map_append, List.append_assoc, List.nodup_append] at hStems
      exact hStems.2.2 _ (List.mem_map_of_mem hMem) _ List.mem_cons_self
    have hLess : infos.length < 2 ^ 64 := by
      rw [List.length_append, List.length_append, List.length_singleton] at hRoom
      omega
    apply ih (hHeld.saveinfo hCnt hLess hNew) _ hRoom hStems
    rw [List.length_append, List.length_singleton, UInt64.ofNat_add, ← hCnt]
    rfl

theorem nl_notMem_unfoldHeader (fp : List Byte) : nl ∉ (unfoldHeader fp).1 := by
  induction fp with
  | nil => exact List.not_mem_nil
  | cons c rest ih =>
    unfold unfoldHeader
    split
    · rename_i hOther
      exact List.not_mem_cons_of_ne_of_not_mem (Ne.symm hOther) ih
    · cases rest with
      | nil => exact List.not_mem_nil
      | cons d more =>
        dsimp only
        split
        · exact List.not_mem_nil
        · exact List.not_mem_cons_of_ne_of_not_mem (by decide) ih

theorem nl_notMem_readheader {fp hdr val rest : List Byte}
    (hRead : maildirReadheader fp = some (hdr, val, rest)) : nl ∉ val := by
  unfold maildirReadheader at hRead
  split at hRead
  · cases hRead
  · cases hRead
    intro hMem
    have hBuf := List.mem_of_mem_drop ((List.dropWhile_sublist _).subset hMem)
    exact nl_notMem_unfoldHeader fp ((List.takeWhile_sublist _).subset hBuf)

theorem nl_notMem_senderOf {val : List Byte} (hVal : nl ∉ val) : nl ∉ senderOf val := by
  intro hMem
  unfold senderOf at hMem
  rcases List.mem_append.mp hMem with hName | hDots
  · split at hName
    · exact (of_decide_eq_true (List.mem_filter.mp hName).2).1 rfl
    · exact hVal hName
  · split at hDots
    · exact absurd hDots (by decide)
    · cases hDots

def Headings.Plain (s : Headings) : Prop :=
  nl ∉ s.subject.getD [] ∧ nl ∉ s.fromheader.getD []

theorem Headings.Plain.heading {s : Headings} (hPlain : s.Plain) {val : List Byte}
    (hVal : nl ∉ val) (isSent : Bool) (hdr : List Byte) : (s.heading isSent hdr val).Plain := by
  unfold Headings.heading
  constructor
  · show nl ∉ (if _ then some val else s.subject).getD []
    split
    · exact hVal
    · exact hPlain.1
  · show nl ∉ (if (if _ then _ else _) ∧ _ then some (senderOf val) else s.fromheader).getD []
    by_cases hTaken : (if isSent then hdr = bytes "to" ∨ hdr = bytes "cc"
        else hdr = bytes "from") ∧ s.fromheader = none
    · rw [if_pos hTaken]
      exact nl_notMem_senderOf hVal
    · rw [if_neg hTaken]
      exact hPlain.2

theorem Headings.Plain.loop {s : Headings} (hPlain : s.Plain) (isSent : Bool) (fuel : Nat)
    (fp : List Byte) : (headingsLoop isSent fuel fp s).Plain := by
  induction fuel generalizing fp s with
  | zero => exact hPlain
  | succ fuel ih =>
    unfold headingsLoop
    cases hRead : maildirReadheader fp with
    | none => exact hPlain
    | some found =>
      have hNext := hPlain.heading (nl_notMem_readheader hRead) isSent found.1
      dsimp only
      split
      · exact hNext
      · exact ih hNext _

theorem nl_notMem_showsize (n : UInt64) : nl ∉ showsize shown n := by
  have hK : nl ∉ bytes "K" := by decide
  have hM : nl ∉ bytes "M" := by decide
  have hDot : nl ∉ bytes "." := by decide
  have hLess : nl ∉ bytes "0." := by decide
  unfold showsize
  split <;> try split
  all_goals simp [nl_notMem_ulText, hK, hM, hDot, hLess]

theorem ngetinfo_plain {disk : List Byte → Option FileData} {filename : List Byte}
    (hInfo : maildirNgetinfo shown disk filename = some m) :
    m.filename = basePart filename ∧ (nl ∉ m.filename → m.Plain shown) := by
  rcases Option.map_eq_some_iff.mp hInfo with ⟨file, _, rfl⟩
  have hPlain := fun isSent => Headings.Plain.loop (s := ⟨none, none, none⟩)
    ⟨List.not_mem_nil, List.not_mem_nil⟩ isSent file.contents.length file.contents
  exact ⟨rfl, fun hName => ⟨hName, (hPlain _).2, (hPlain _).1, nl_notMem_showsize _, rfl⟩⟩

theorem strictWeak_datecmp (p : SortPrefs) (ms : List MsgInfo) : StrictWeak (datecmp p) ms := by
  unfold datecmp
  simp only [Int64.lt_iff_toInt_lt, UInt64.lt_iff_toNat_lt]
  constructor
  · intro a _ b _
    grind
  · intro a _ b _ c _ hAB hBC
    grind
  · intro a _ b _ c _ hAB hBC
    grind

/- `messagecmp` orders all messages, up to ties. -/
theorem strictWeak_messagecmp (p : SortPrefs) (ms : List MsgInfo) :
    StrictWeak (messagecmp p) ms := by
  have hDate := strictWeak_datecmp p ms
  have hText (text : MsgInfo → List Byte) :
      StrictWeak (fun a b => strcasecmp (text a) (text b)) ms :=
    strictWeak_compareKeys (fun m => (text m).map fun c => (tolower c).toNat) ms
  have hFlag := strictWeak_sub (fun m : MsgInfo => (rfc822Coresubj m.subject_s).2.toNat) ms
  unfold messagecmp
  cases p.flagsortorder with
  | sender => exact (hText MsgInfo.from_s).andThen hDate
  | subject =>
    have hSubject := hText fun m => rfc2047DecodeSimple (rfc822Coresubj m.subject_s).1
    exact (hSubject.andThen hFlag).andThen hDate
  | date => exact hDate

variable {past : Byte} {maildir name : List Byte}

/- There is no colon, or one of the characters is right. -/
def TakesFlag (past : Byte) (name : List Byte) : Prop :=
  ∀ front info, cutAt (chr ':') name = some (front, info) →
    infoAt past info 0 = chr '2' ∨ infoAt past info 1 = chr ','

/- The name of a message in `cur`. -/
structure CurName (name : List Byte) : Prop where
  slash : chr '/' ∉ name
  period : name.head? ≠ some (chr '.')

theorem curPath_parts (maildir : List Byte) (hSlash : chr '/' ∉ name) :
    dirPart (curPath maildir name) = maildir ++ bytes "/cur/" ∧
      basePart (curPath maildir name) = name :=
  parts_append (Or.inr ⟨maildir ++ bytes "/cur", (List.append_assoc _ (bytes "/cur") _).symm⟩)
    hSlash

theorem curPath_inj {a b : List Byte} : curPath maildir a = curPath maildir b ↔ a = b :=
  List.append_right_inj _

/- What a flag turns a name into. -/
structure Reflagged (past : Byte) (old new : List Byte) : Prop where
  stem : stem new = stem old
  named : CurName old → CurName new
  line : nl ∉ old → nl ∉ new
  takes : TakesFlag past new

theorem Reflagged.append {front info tail : List Byte} (hFront : chr ':' ∉ front)
    (hInfo : info = [] ∨ ∃ rest, info = chr ':' :: rest)
    (hTail : ∀ c, c ∈ tail → c = chr 'S' ∨ c = chr '2' ∨ c = chr ',' ∨ c ∈ info)
    (hTakes : infoAt past tail 0 = chr '2' ∨ infoAt past tail 1 = chr ',') :
    Reflagged past (front ++ info) (front ++ chr ':' :: tail) := by
  have hOld : Maildir.stem (front ++ info) = front := by
    rcases hInfo with rfl | ⟨rest, rfl⟩
    · rw [List.append_nil]
      exact takeWhile_unclosed hFront
    · exact takeWhile_quoted hFront rest
  have hOther : ∀ c, c ≠ chr ':' → c ≠ chr 'S' → c ≠ chr '2' → c ≠ chr ',' →
      c ∉ front ++ info → c ∉ front ++ chr ':' :: tail := by
    intro c hColon hS hTwo hComma hText hMem
    rw [List.mem_append, not_or] at hText
    rcases List.mem_append.mp hMem with hIn | hMem
    · exact hText.1 hIn
    · rcases List.mem_cons.mp hMem with hHere | hIn
      · exact hColon hHere
      · rcases hTail c hIn with hIs | hIs | hIs | hIs
        · exact hS hIs
        · exact hTwo hIs
        · exact hComma hIs
        · exact hText.2 hIs
  refine ⟨(takeWhile_quoted hFront tail).trans hOld.symm, fun hNamed => ⟨?_, ?_⟩, ?_, ?_⟩
  · exact hOther _ (by decide) (by decide) (by decide) (by decide) hNamed.slash
  · cases front with
    | nil =>
      intro hHead
      exact absurd (Option.some.inj hHead) (by decide)
    | cons c front => exact hNamed.period
  · exact hOther _ (by decide) (by decide) (by decide) (by decide)
  · intro front' info' hCut
    rw [cutAt_quoted hFront] at hCut
    cases hCut
    exact hTakes

/- A name in `cur` stays there when it gets the flag. -/
theorem addflag_curPath (hSlash : chr '/' ∉ name) (hTakes : TakesFlag past name) {new : List Byte}
    (hNew : maildirAddflagfilename past (curPath maildir name) (chr 'S') = some new) :
    ∃ name', new = curPath maildir name' ∧ Reflagged past name name' := by
  rcases curPath_parts maildir hSlash with ⟨hDir, hBase⟩
  unfold maildirAddflagfilename colonFor at hNew
  rw [hBase, hDir] at hNew
  cases hCut : cutAt (chr ':') name with
  | none =>
    rw [hCut] at hNew
    have hColon : chr ':' ∉ name := by
      intro hMem
      rcases List.eq_append_cons_of_mem hMem with ⟨front, rest, rfl, hFront⟩
      rw [cutAt_quoted hFront] at hCut
      cases hCut
    refine ⟨name ++ chr ':' :: bytes "2,S", ?_, ?_⟩
    · rw [← Option.some.inj hNew]
      unfold curPath
      simp only [List.append_assoc]
      rfl
    · have hFlagged : Reflagged past (name ++ []) (name ++ chr ':' :: bytes "2,S") :=
        Reflagged.append hColon (Or.inl rfl) (by decide +kernel) (Or.inl rfl)
      rwa [List.append_nil] at hFlagged
  | some parts =>
    rcases parts with ⟨front, info⟩
    rcases cutAt_eq hCut with ⟨hFront, rfl⟩
    have hFits := hTakes front info hCut
    rw [hCut] at hNew
    dsimp only at hNew
    rw [if_neg (not_and_or.mpr (hFits.imp not_not.mpr not_not.mpr))] at hNew
    dsimp only at hNew
    split at hNew
    · cases hNew
    cases info with
    | nil =>
      refine ⟨front ++ [chr ':'], ?_, ⟨rfl, id, id, hTakes⟩⟩
      unfold curPath
      rw [← List.append_assoc]
      exact (Option.some.inj hNew).symm
    | cons c rest =>
      refine ⟨front ++ chr ':' :: c :: insertFlag (chr 'S') rest, ?_, ?_⟩
      · unfold curPath
        rw [← List.append_assoc]
        exact (Option.some.inj hNew).symm
      · apply Reflagged.append hFront (Or.inr ⟨_, rfl⟩)
        · intro d hMem
          rcases List.mem_cons.mp hMem with rfl | hIn
          · simp
          · rcases mem_insertFlag hIn with hIs | hOld
            · exact Or.inl hIs
            · simp [hOld]
        · refine hFits.imp id fun hComma => ?_
          cases rest with
          | nil => exact absurd (show (0 : Byte) = chr ',' from hComma) (by decide)
          | cons d more =>
            have hIs : d = chr ',' := hComma
            subst hIs
            rfl

------------
-- Runs
------------

/- Only the names of marked messages are other ones. -/
structure Changed (marks : List UInt64) (infos now : List MsgInfo) : Prop where
  length : now.length = infos.length
  same : ∀ i m m', infos[i]? = some m → now[i]? = some m' →
    m' = { m with filename := m'.filename } ∧ stem m'.filename = stem m.filename ∧
      (UInt64.ofNat i ∉ marks → m' = m)

theorem Changed.refl (marks : List UInt64) (infos : List MsgInfo) : Changed marks infos infos where
  length := rfl
  same i m m' hAt hNow := by
    cases Option.some.inj (hAt.symm.trans hNow)
    exact ⟨rfl, rfl, fun _ => rfl⟩

/- The records, the places and the files of messages. -/
structure Tracked (shown : Shown) (past : Byte) (maildir : List Byte) (s : CachedFolder)
    (infos : List MsgInfo) : Prop where
  held : Held s.cache infos
  plain : ∀ m, m ∈ infos → m.Plain shown
  named : ∀ m, m ∈ infos → CurName m.filename
  takes : ∀ m, m ∈ infos → TakesFlag past m.filename
  file : ∀ m, m ∈ infos → curPath maildir m.filename ∈ s.files
  stems : (infos.map fun m => stem m.filename).Nodup
  count : (opencache s.cache).map CacheHeader.all_cnt = some (UInt64.ofNat infos.length)

variable {s : CachedFolder}

theorem Tracked.record (hTracked : Tracked shown past maildir s infos) (n : UInt64) :
    getMsginfo shown s.cache n = infos[n.toNat]? := by
  have hRecord := hTracked.held.record n
  cases hAt : infos[n.toNat]? with
  | none =>
    rw [hAt] at hRecord
    unfold getMsginfo
    rw [hRecord]
    rfl
  | some m =>
    rw [hAt] at hRecord
    exact getMsginfo_record (hTracked.plain m (List.mem_of_getElem? hAt)) hRecord

/- A message whose file is there is found. -/
theorem find_eq (hNamed : CurName name) (hFile : curPath maildir name ∈ s.files) :
    s.find maildir name = some (curPath maildir name) := by
  have hFits : Maildirpath.refusesFile name = false := by
    unfold Maildirpath.refusesFile
    rw [Bool.or_eq_false_iff, decide_eq_false_iff_not]
    exact ⟨by simpa using hNamed.slash, hNamed.period⟩
  have hStat : s.directories.stat (maildir ++ bytes "/cur/" ++ name) = true :=
    List.contains_iff_mem.mpr hFile
  have hPath : Maildirpath.maildirFilename s.directories (some maildir) none name =
      some (curPath maildir name) := by
    unfold Maildirpath.maildirFilename
    rw [hFits, if_neg Bool.false_ne_true]
    exact if_pos hStat
  unfold CachedFolder.find
  rw [hPath, Option.filter_some, if_pos (List.contains_iff_mem.mpr hFile)]

theorem mem_renameFile {old new other : List Byte} {files : List (List Byte)}
    (hIn : other ∈ files) (hOld : other ≠ old) (hNew : other ≠ new) :
    other ∈ renameFile old new files := by
  unfold renameFile
  split
  · exact hIn
  · exact List.mem_map.mpr ⟨other, List.mem_filter.mpr ⟨hIn, decide_eq_true hNew⟩, if_neg hOld⟩

theorem mem_renameFile_new {old new : List Byte} {files : List (List Byte)} (hIn : old ∈ files) :
    new ∈ renameFile old new files := by
  unfold renameFile
  split
  · rename_i hSame
    exact hSame ▸ hIn
  · rename_i hOther
    exact List.mem_map.mpr ⟨old, List.mem_filter.mpr ⟨hIn, decide_eq_true hOther⟩, if_pos rfl⟩

theorem mem_of_renameFile {old new other : List Byte} {files : List (List Byte)}
    (hIn : other ∈ renameFile old new files) : other = new ∨ other ∈ files := by
  unfold renameFile at hIn
  split at hIn
  · exact Or.inr hIn
  · rcases List.mem_map.mp hIn with ⟨file, hFile, rfl⟩
    split
    · exact Or.inl rfl
    · exact Or.inr (List.mem_filter.mp hFile).1

section Step

variable {pos : UInt64} {p : MsgInfo} {new name' : List Byte}

theorem markread_none (hRecord : getMsginfo shown s.cache pos = none) :
    maildirMarkread shown past maildir s pos = s := by
  unfold maildirMarkread
  rw [hRecord]

theorem markread_eq (hRecord : getMsginfo shown s.cache pos = some p) (hNamed : CurName p.filename)
    (hFile : curPath maildir p.filename ∈ s.files) :
    maildirMarkread shown past maildir s pos =
      (maildirAddflagfilename past (curPath maildir p.filename) (chr 'S')).elim s fun new =>
        { files := renameFile (curPath maildir p.filename) new s.files
          cache := putMsginfo s.cache { p with filename := basePart new } pos } := by
  unfold maildirMarkread
  rw [hRecord]
  dsimp only
  rw [find_eq hNamed hFile]
  cases hFlag : maildirAddflagfilename past (curPath maildir p.filename) (chr 'S') with
  | none => simp only [hFlag, Option.elim]
  | some new => simp only [hFlag, Option.elim]

theorem Changed.set (hAt : infos[pos.toNat]? = some p) (hStem : stem name' = stem p.filename) :
    Changed [pos] infos (infos.set pos.toNat { p with filename := name' }) := by
  refine ⟨List.length_set, fun i m m' hM hM' => ?_⟩
  rw [List.getElem?_set] at hM'
  split at hM'
  · rename_i hHere
    subst hHere
    cases Option.some.inj (hAt.symm.trans hM)
    rw [if_pos (List.getElem?_eq_some_iff.mp hAt).1] at hM'
    cases hM'
    exact ⟨rfl, hStem, fun hNot => absurd (by simp) hNot⟩
  · cases Option.some.inj (hM.symm.trans hM')
    exact ⟨rfl, rfl, fun _ => rfl⟩

theorem Held.put (hHeld : Held db infos) (hAt : infos[pos.toNat]? = some p)
    (hStem : stem name' = stem p.filename) :
    Held (putMsginfo db { p with filename := name' } pos)
      (infos.set pos.toNat { p with filename := name' }) := by
  unfold putMsginfo
  constructor
  · intro n
    by_cases hHere : n = pos
    · rw [hHere, store_same, List.getElem?_set_self (List.getElem?_eq_some_iff.mp hAt).1]
      rfl
    · have hOther : pos.toNat ≠ n.toNat := fun hSame => hHere (UInt64.toNat_inj.mp hSame).symm
      rw [store_other (fun hSame => hHere (recKey_injective hSame)), hHeld.record,
        List.getElem?_set_ne hOther]
  · intro i m hM
    have hKey : (infos.map fun m => stem m.filename)[i]? = some (stem m.filename) := by
      rw [← map_set_keyed (f := fun m => stem m.filename)
        (b := { p with filename := name' }) hAt hStem, List.getElem?_map, hM]
      rfl
    rw [List.getElem?_map] at hKey
    rcases Option.map_eq_some_iff.mp hKey with ⟨k, hK, hSame⟩
    rw [store_other (recKey_ne_fileKey _ _).symm, ← fileKey_eq_iff.mpr hSame, hHeld.place i k hK]

/- The file and the record of a message get its new name. -/
theorem Tracked.put (hTracked : Tracked shown past maildir s infos)
    (hAt : infos[pos.toNat]? = some p) (hNew : Reflagged past p.filename name') :
    Tracked shown past maildir
      { files := renameFile (curPath maildir p.filename) (curPath maildir name') s.files
        cache := putMsginfo s.cache { p with filename := name' } pos }
      (infos.set pos.toNat { p with filename := name' }) := by
  have hIn := List.mem_of_getElem? hAt
  have hNamed := hTracked.named p hIn
  have hPlain := hTracked.plain p hIn
  have hStems : (infos.set pos.toNat { p with filename := name' }).map
      (fun m => stem m.filename) = infos.map fun m => stem m.filename :=
    map_set_keyed hAt hNew.stem
  have hCases : ∀ {P : MsgInfo → Prop}, P { p with filename := name' } →
      (∀ m, m ∈ infos → stem m.filename ≠ stem p.filename → P m) →
      ∀ m, m ∈ infos.set pos.toNat { p with filename := name' } → P m := by
    intro P hHere hThere m hMem
    rcases mem_set_keyed hTracked.stems hAt hMem with rfl | ⟨hOld, hStem⟩
    · exact hHere
    · exact hThere m hOld hStem
  refine ⟨hTracked.held.put hAt hNew.stem, hCases ?_ fun m hM _ => hTracked.plain m hM,
    hCases (hNew.named hNamed) fun m hM _ => hTracked.named m hM,
    hCases hNew.takes fun m hM _ => hTracked.takes m hM,
    hCases (mem_renameFile_new (hTracked.file p hIn)) ?_, hStems ▸ hTracked.stems, ?_⟩
  · exact ⟨hNew.line hPlain.filename, hPlain.sender, hPlain.subject, hPlain.size, hPlain.date⟩
  · intro m hOld hStem
    apply mem_renameFile (hTracked.file m hOld)
    · exact fun hSame => hStem (congrArg stem (curPath_inj.mp hSame))
    · exact fun hSame => hStem ((congrArg stem (curPath_inj.mp hSame)).trans hNew.stem)
  · rw [List.length_set, ← hTracked.count]
    unfold opencache putMsginfo
    dsimp only
    rw [store_other (header_ne_recKey pos)]

/- One message is marked. -/
theorem tracked_markread (hTracked : Tracked shown past maildir s infos) (pos : UInt64) :
    ∃ now, Changed [pos] infos now ∧
      Tracked shown past maildir (maildirMarkread shown past maildir s pos) now := by
  have hRecord := hTracked.record pos
  cases hAt : infos[pos.toNat]? with
  | none =>
    rw [hAt] at hRecord
    rw [markread_none hRecord]
    exact ⟨infos, Changed.refl _ _, hTracked⟩
  | some p =>
    rw [hAt] at hRecord
    have hIn := List.mem_of_getElem? hAt
    have hNamed := hTracked.named p hIn
    rw [markread_eq hRecord hNamed (hTracked.file p hIn)]
    cases hFlag : maildirAddflagfilename past (curPath maildir p.filename) (chr 'S') with
    | none => exact ⟨infos, Changed.refl _ _, hTracked⟩
    | some new =>
      rcases addflag_curPath hNamed.slash (hTracked.takes p hIn) hFlag with ⟨name', rfl, hNew⟩
      have hBase := (curPath_parts maildir (hNew.named hNamed).slash).2
      refine ⟨_, Changed.set hAt hNew.stem, ?_⟩
      dsimp only [Option.elim]
      rw [hBase]
      exact hTracked.put hAt hNew

end Step

/- Messages are marked, one after the other. -/
theorem tracked_markreads (marks : List UInt64) (hTracked : Tracked shown past maildir s infos) :
    ∃ now, Changed marks infos now ∧
      Tracked shown past maildir (marks.foldl (maildirMarkread shown past maildir) s) now := by
  induction marks generalizing s infos with
  | nil => exact ⟨infos, Changed.refl _ _, hTracked⟩
  | cons pos marks ih =>
    rcases tracked_markread hTracked pos with ⟨next, hStep, hNext⟩
    rcases ih hNext with ⟨now, hRun, hNow⟩
    refine ⟨now, ⟨hRun.length.trans hStep.length, ?_⟩, hNow⟩
    intro i m m' hM hM'
    have hLess : i < next.length := by
      rw [hStep.length]
      exact (List.getElem?_eq_some_iff.mp hM).1
    have hK := List.getElem?_eq_getElem hLess
    rcases hStep.same i m _ hM hK with ⟨hOnly, hStem, hKept⟩
    rcases hRun.same i _ m' hK hM' with ⟨hOnly', hStem', hKept'⟩
    refine ⟨?_, hStem'.trans hStem, fun hNot => ?_⟩
    · rw [hOnly', hOnly]
    · rw [List.mem_cons, not_or] at hNot
      exact (hKept' hNot.2).trans (hKept (by simpa using hNot.1))

------------
-- The Index
------------

/-
  The cache has these records, one for each file, and finds
  the place of each name, whatever its flags.
-/
structure Indexed (shown : Shown) (maildir : List Byte) (s : CachedFolder)
    (infos : List MsgInfo) : Prop where
  count : (opencache s.cache).map CacheHeader.all_cnt = some (UInt64.ofNat infos.length)
  record : ∀ n, getMsginfo shown s.cache n = infos[n.toNat]?
  place : ∀ i m name, infos[i]? = some m → stem name = stem m.filename →
    maildirName2pos s.cache name = some (UInt64.ofNat i)
  file : ∀ m, m ∈ infos → curPath maildir m.filename ∈ s.files

theorem Tracked.indexed (hTracked : Tracked shown past maildir s infos) :
    Indexed shown maildir s infos := by
  refine ⟨hTracked.count, hTracked.record, fun i m name hAt hStem => ?_, hTracked.file⟩
  have hDigits : (ulText (UInt64.ofNat i)).filter isdigit = ulText (UInt64.ofNat i) :=
    List.filter_eq_self.mpr fun _ => isdigit_ulText
  unfold maildirName2pos
  rw [fileKey_eq_iff.mpr hStem, hTracked.held.place i m hAt, Option.map_some, hDigits,
    decimalValue_ulText]

/-
  A folder whose files can be read and have distinct names, up
  to their flags.
-/
structure CurFolder where
  maildir : List Byte
  names : List (List Byte)
  disk : List Byte → Option FileData
  readable : ∀ name, name ∈ names → (disk (curPath maildir name)).isSome = true
  named : ∀ name, name ∈ names → CurName name ∧ 0 ∉ name
  distinct : (names.map stem).Nodup
  room : names.length < 2 ^ 64

namespace CurFolder

variable {qsort : SortMessages} {p : SortPrefs} {saveTime : Int64} {f : CurFolder}

def summaries (shown : Shown) (f : CurFolder) : List MsgInfo :=
  f.names.filterMap fun name => maildirNgetinfo shown f.disk (curPath f.maildir name)

/- The folder after `createmdcache`. -/
def start (shown : Shown) (qsort : SortMessages) (p : SortPrefs) (saveTime : Int64)
    (f : CurFolder) : CachedFolder where
  files := f.names.map (curPath f.maildir)
  cache := createmdcache shown qsort p saveTime f.maildir f.disk f.names

/-
  The records are the summaries of the messages, sorted; and
  messages that are marked keep the index right.
-/
def IndexKept (shown : Shown) (past : Byte) (qsort : SortMessages) (p : SortPrefs)
    (saveTime : Int64) (f : CurFolder) : Prop :=
  ∃ infos, infos.Perm (f.summaries shown) ∧ infos.Pairwise (fun a b => messagecmp p a b ≤ 0) ∧
    ∀ marks : List UInt64, ∃ now, Changed marks infos now ∧
      Indexed shown f.maildir
        (marks.foldl (maildirMarkread shown past f.maildir) (f.start shown qsort p saveTime)) now

theorem summary_cases (hMem : m ∈ f.summaries shown) :
    m.filename ∈ f.names ∧ (nl ∉ m.filename → m.Plain shown) := by
  rcases List.mem_filterMap.mp hMem with ⟨name, hName, hInfo⟩
  rcases ngetinfo_plain hInfo with ⟨hFile, hPlain⟩
  rw [(curPath_parts f.maildir (f.named name hName).1.slash).2] at hFile
  exact ⟨hFile ▸ hName, hPlain⟩

theorem summaries_names (shown : Shown) (f : CurFolder) :
    (f.summaries shown).map MsgInfo.filename = f.names := by
  have hEach : ∀ name, name ∈ f.names → (maildirNgetinfo shown f.disk
      (curPath f.maildir name)).map MsgInfo.filename = some name := by
    intro name hMem
    rcases Option.isSome_iff_exists.mp (f.readable name hMem) with ⟨file, hFile⟩
    have hBase := (curPath_parts f.maildir (f.named name hMem).1.slash).2
    unfold maildirNgetinfo
    rw [hFile, Option.map_some, Option.map_some, hBase]
  unfold summaries
  rw [List.map_filterMap, List.filterMap_congr hEach, List.filterMap_some]

theorem line_sort (h : CacheHeader) (r : List Byte) :
    (h.line (bytes "SORT=" ++ r)).all_cnt = h.all_cnt := by
  show (Option.elim (parseUl r) h _).all_cnt = h.all_cnt
  cases parseUl r with
  | none => rfl
  | some found => rfl

/- The number of messages is in the header. -/
theorem count_saveEnd (p : SortPrefs) (saveTime : Int64) (s : Saving) :
    (opencache (maildirSaveEnd p saveTime s)).map CacheHeader.all_cnt = some s.cnt := by
  have hSort : nl ∉ bytes "SORT=" ++
      [if p.flagisoldest1st then chr '1' else chr '0', p.flagsortorder.flag] := by
    cases p.flagisoldest1st <;> cases p.flagsortorder <;> decide
  unfold opencache maildirSaveEnd
  rw [store_same, Option.map_some, Option.map_some, strtokLines_flatMap]
  · rw [List.foldl_cons, List.foldl_cons, List.foldl_cons, List.foldl_cons, List.foldl_nil,
      line_sort]
    show some (((parseUl (ulText s.cnt)).map Prod.fst).getD 0) = some s.cnt
    rw [parseUl_ulText]
    rfl
  · intro line hMem
    simp only [List.mem_cons, List.not_mem_nil, or_false] at hMem
    rcases hMem with rfl | rfl | rfl | rfl
    · exact List.not_mem_append (by decide) nl_notMem_ulText
    · exact List.not_mem_append (by decide) nl_notMem_ulText
    · exact List.not_mem_append (by decide) nl_notMem_ulText
    · exact hSort
  · intro line hMem hNil
    subst hNil
    simp [bytes] at hMem

/- After `createmdcache` the index is right. -/
theorem exists_tracked (shown : Shown) (past : Byte) (qsort : SortMessages) (p : SortPrefs)
    (saveTime : Int64) (f : CurFolder)
    (hNames : ∀ name, name ∈ f.names → nl ∉ name ∧ TakesFlag past name) :
    ∃ infos, infos.Perm (f.summaries shown) ∧ infos.Pairwise (fun a b => messagecmp p a b ≤ 0) ∧
      Tracked shown past f.maildir (f.start shown qsort p saveTime) infos := by
  have hPerm := (qsort.perm (messagecmp p) (f.summaries shown).reverse).trans (List.reverse_perm _)
  have hSorts := qsort.sorts _ _ (strictWeak_messagecmp p (f.summaries shown).reverse)
  have hCache : (f.start shown qsort p saveTime).cache = maildirSaveEnd p saveTime
      ((qsort.sort (messagecmp p) (f.summaries shown).reverse).foldl maildirSaveinfo
        ⟨fun _ => none, 0, 0⟩) := by
    have hShown : f.names.filter (fun name => name.head? ≠ some (chr '.')) = f.names :=
      List.filter_eq_self.mpr fun name hMem => decide_eq_true (f.named name hMem).1.period
    unfold start createmdcache summaries
    rw [hShown]
  generalize qsort.sort (messagecmp p) (f.summaries shown).reverse = infos at *
  have hNameOf : ∀ m, m ∈ infos → m.filename ∈ f.names ∧ (nl ∉ m.filename → m.Plain shown) :=
    fun m hMem => summary_cases (hPerm.subset hMem)
  have hMap := hPerm.map MsgInfo.filename
  rw [summaries_names] at hMap
  have hStems : (infos.map fun m => stem m.filename).Nodup := by
    have hNodup := ((hMap.map stem).nodup_iff).mpr f.distinct
    rwa [List.map_map] at hNodup
  have hLength : infos.length < 2 ^ 64 := by
    rw [← List.length_map, hMap.length_eq]
    exact f.room
  have hEmpty : Held (fun _ => none) [] := ⟨fun _ => rfl, fun _ _ hAt => absurd hAt (by simp)⟩
  rcases held_saves (s := ⟨fun _ => none, 0, 0⟩) infos hEmpty rfl hLength hStems with ⟨hHeld, hCnt⟩
  refine ⟨infos, hPerm, hSorts, ?_, ?_, ?_, ?_, ?_, hStems, ?_⟩
  · rw [hCache]
    apply hHeld.store (fun n => (header_ne_recKey n).symm)
    intro name hSame
    have hHead : some (chr 'F') = some (chr 'H') := congrArg List.head? hSame
    exact absurd hHead (by decide)
  · exact fun m hMem => (hNameOf m hMem).2 (hNames _ (hNameOf m hMem).1).1
  · exact fun m hMem => (f.named _ (hNameOf m hMem).1).1
  · exact fun m hMem => (hNames _ (hNameOf m hMem).1).2
  · exact fun m hMem => List.mem_map_of_mem (hNameOf m hMem).1
  · rw [hCache, count_saveEnd, hCnt]
    rfl

/- Each file has its record at first. -/
theorem exists_record (hKept : IndexKept shown past qsort p saveTime f) (hName : name ∈ f.names) :
    ∃ n m, m ∈ f.summaries shown ∧ m.filename = name ∧
      getMsginfo shown (f.start shown qsort p saveTime).cache n = some m ∧
      ∃ now, Indexed shown f.maildir
          (maildirMarkread shown past f.maildir (f.start shown qsort p saveTime) n) now ∧
        ∀ m', now[n.toNat]? = some m' → stem m'.filename = stem name := by
  rcases hKept with ⟨infos, hPerm, _, hMarks⟩
  have hMap := hPerm.map MsgInfo.filename
  rw [summaries_names] at hMap
  rcases List.mem_map.mp (hMap.mem_iff.mpr hName) with ⟨m, hMem, rfl⟩
  rcases List.mem_iff_getElem?.mp hMem with ⟨i, hAt⟩
  have hLess : i < 2 ^ 64 := by
    have hRoom := f.room
    rw [← hMap.length_eq, List.length_map] at hRoom
    exact Nat.lt_trans (List.getElem?_eq_some_iff.mp hAt).1 hRoom
  have hPos : (UInt64.ofNat i).toNat = i := by
    rw [UInt64.toNat_ofNat', Nat.mod_eq_of_lt hLess]
  rcases hMarks [] with ⟨now, hSame, hIndexed⟩
  have hRecord := hIndexed.record (UInt64.ofNat i)
  have hBound : i < now.length := hSame.length ▸ (List.getElem?_eq_some_iff.mp hAt).1
  have hNow := List.getElem?_eq_getElem hBound
  rw [hPos, hNow, (hSame.same i m _ hAt hNow).2.2 List.not_mem_nil] at hRecord
  rcases hMarks [UInt64.ofNat i] with ⟨next, hChanged, hNext⟩
  refine ⟨UInt64.ofNat i, m, hPerm.subset hMem, rfl, hRecord, next, hNext, fun m' hM' => ?_⟩
  rw [hPos] at hM'
  exact (hChanged.same i m m' hAt hM').2.1

theorem IndexKept.line (hKept : IndexKept shown past qsort p saveTime f) (hName : name ∈ f.names) :
    nl ∉ name := by
  rcases exists_record hKept hName with ⟨n, m, _, rfl, hRecord, _⟩
  exact nl_notMem_getMsginfo hRecord

/- A name that does not take the flag is moved out of `cur`. -/
theorem IndexKept.takes (hKept : IndexKept shown past qsort p saveTime f)
    (hName : name ∈ f.names) : TakesFlag past name := by
  have hLine := hKept.line hName
  rcases exists_record hKept hName with ⟨n, m, hMem, rfl, hRecord, now, hNext, hStem⟩
  have hNamed := (f.named _ hName).1
  have hPlain := (summary_cases hMem).2 hLine
  have hFile : curPath f.maildir m.filename ∈ (f.start shown qsort p saveTime).files :=
    List.mem_map_of_mem hName
  have hTwo : infoAt past (bytes "2,S") 0 = chr '2' := rfl
  have hCur : nl ∉ bytes "cur:2,S" := by decide
  intro front info hCut
  by_contra hNot
  rw [not_or] at hNot
  have hFlag : maildirAddflagfilename past (curPath f.maildir m.filename) (chr 'S') =
      some (f.maildir ++ bytes "/cur:2,S") := by
    rcases curPath_parts f.maildir hNamed.slash with ⟨hDir, hBase⟩
    have hFront : (f.maildir ++ bytes "/cur/").dropLast = f.maildir ++ bytes "/cur" := by
      rw [List.dropLast_append_of_ne_nil (by decide)]
      rfl
    unfold maildirAddflagfilename colonFor
    rw [hBase, hDir, hCut, hFront]
    dsimp only
    rw [if_pos hNot]
    dsimp only
    rw [if_neg (by decide)]
    show some (f.maildir ++ bytes "/cur" ++ bytes ":2,S") = _
    rw [List.append_assoc]
    rfl
  have hBase : basePart (f.maildir ++ bytes "/cur:2,S") = bytes "cur:2,S" := by
    have hParts := @parts_append (f.maildir ++ [chr '/']) (bytes "cur:2,S")
      (Or.inr ⟨f.maildir, rfl⟩) (by decide)
    rw [List.append_assoc] at hParts
    exact hParts.2
  rw [markread_eq hRecord hNamed hFile, hFlag] at hNext
  dsimp only [Option.elim] at hNext
  rw [hBase] at hNext
  have hMoved : getMsginfo shown (putMsginfo (f.start shown qsort p saveTime).cache
      { m with filename := bytes "cur:2,S" } n) n = some { m with filename := bytes "cur:2,S" } :=
    getMsginfo_record ⟨hCur, hPlain.sender, hPlain.subject, hPlain.size, hPlain.date⟩
      (store_same _ _ _)
  have hAt := (hNext.record n).symm.trans hMoved
  have hSame : stem (bytes "cur:2,S") = stem m.filename := hStem _ hAt
  -- the record names a file of the same stem, which is another one
  rcases mem_of_renameFile (hNext.file _ (List.mem_of_getElem? hAt)) with hNew | hOld
  · have hLength := congrArg List.length hNew
    rw [curPath, List.length_append, List.length_append, List.length_append] at hLength
    exact absurd hLength (by
      show ¬f.maildir.length + 5 + 7 = f.maildir.length + 8
      omega)
  · rcases List.mem_map.mp hOld with ⟨other, hOther, hPath⟩
    have hIs := List.inj_on_of_nodup_map f.distinct hOther hName
      ((congrArg stem (curPath_inj.mp hPath)).trans hSame)
    rw [← hIs, curPath_inj.mp hPath] at hCut
    cases hCut
    exact hNot.1 hTwo

/-
  The records are the summaries, in an order that `messagecmp`
  agrees with, and stay in place while messages are marked,
  exactly when each name takes the flag and has no newline.
-/
theorem folderIndex_iff (shown : Shown) (past : Byte) (qsort : SortMessages) (p : SortPrefs)
    (saveTime : Int64) (f : CurFolder) :
    (∀ ms, StrictWeak (messagecmp p) ms) ∧
      (IndexKept shown past qsort p saveTime f ↔
        ∀ name, name ∈ f.names → nl ∉ name ∧ TakesFlag past name) := by
  refine ⟨strictWeak_messagecmp p, fun hKept name hName => ?_, fun hNames => ?_⟩
  · exact ⟨hKept.line hName, hKept.takes hName⟩
  · rcases exists_tracked shown past qsort p saveTime f hNames with ⟨infos, hPerm, hOrder, hStart⟩
    refine ⟨infos, hPerm, hOrder, fun marks => ?_⟩
    rcases tracked_markreads marks hStart with ⟨now, hChanged, hNow⟩
    exact ⟨now, hChanged, hNow.indexed⟩

/- The only file is `d/cur/c:xy`. -/
def strayFolder : CurFolder where
  maildir := bytes "d"
  names := [bytes "c:xy"]
  disk := fun _ => some ⟨[], 0, 0, 0⟩
  readable _ _ := rfl
  named name hMem := by
    rw [List.mem_singleton.mp hMem]
    exact ⟨⟨by decide, by decide⟩, by decide⟩
  distinct := List.nodup_singleton _
  room := by decide

def qsortMessages : SortMessages where
  sort cmp ms := ms.mergeSort fun a b => cmp a b ≤ 0
  perm _ ms := List.mergeSort_perm ms _
  sorts _ _ hOrder := hOrder.pairwise_mergeSort

theorem strayFolder_not_kept :
    ¬IndexKept ⟨fun _ => [], id⟩ 0 qsortMessages ⟨false, .date⟩ 0 strayFolder := by
  intro hKept
  exact absurd (hKept.takes List.mem_cons_self (bytes "c") (bytes "xy") rfl) (by decide)

end CurFolder

end Wmail.Maildir
