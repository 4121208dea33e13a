import Wmail.Authlib.Cram
import Wmail.Pcp.Gmtime
import Wmail.Rfc2045.Part

/-
  Conflicts of a booking: the reply of the server (pcpd.c)
  and how the client reads it (pcpnet.c).

  The reply is a list of lines, without their newlines.

  Key theorems include:
    * `docommitresponse_line`
    * `docommitresponse_iff`
-/

namespace Wmail

open Calendar

namespace Pcp

open Authlib (cString)
open Rfc2045 (atoi)

/- `struct report_conflict_info`. -/
structure ConflictInfo where
  conflictEventid : List Byte
  conflictAddr : List Byte
  conflictStart : Int
  conflictEnd : Int
deriving DecidableEq

/- A line of the list; `next` says that there is one more. -/
def conflictLine (next : Bool) (p : ConflictInfo) : List Byte :=
  bytes "403" ++ (if next then chr '-' else chr ' ') :: (p.conflictAddr ++ chr ' ' ::
    (pcpGmtimestr p.conflictStart ++ chr ' ' :: (pcpGmtimestr p.conflictEnd ++ chr ' ' ::
      (p.conflictEventid ++ bytes " conflicts."))))

/- What `dobook` prints for the list of the conflicts. -/
def conflictReply : List ConflictInfo → List (List Byte)
  | [] => []
  | p :: list => conflictLine (!list.isEmpty) p :: conflictReply list

inductive ErrCode where
  | eventNotFound
  | eventLocked
  | conflict
deriving DecidableEq

/- `%<width>s` of `sscanf`, with the blanks before it. -/
def scanWord (width : Nat) (text : List Byte) : Option (List Byte × List Byte) :=
  let text := text.dropWhile isspace
  let word := (text.take width).takeWhile (!isspace ·)
  if word = [] then none else some (word, text.drop word.length)

def scanWords : List Nat → List Byte → Option (List (List Byte))
  | [], _ => some []
  | width :: widths, text =>
    (scanWord width text).bind fun found => (scanWords widths found.2).map (found.1 :: ·)

/-
  The conflict of a reply line; none if a part is missing or
  a time cannot be read.
-/
def readConflict (offset : Int) (fuel : Nat) (readbuf : List Byte) : Option ConflictInfo :=
  if readbuf.take 3 = bytes "403" ∧ 3 < readbuf.length then
    match scanWords [511, 14, 14, 511] (readbuf.drop 4) with
    | some [addr, start, stop, eventid] =>
      match pcpGmtimeS offset fuel start, pcpGmtimeS offset fuel stop with
      | some fromT, some toT =>
        if fromT = 0 ∨ toT = 0 then none else some ⟨eventid, addr, fromT, toT⟩
      | _, _ => none
    | _ => none
  else
    none

/- `checkstatus`: the status, and the error code. -/
def checkstatus (readbuf : List Byte) (errcode : Option ErrCode) : Int × Option ErrCode :=
  let n := atoi readbuf
  (n, if n = 504 then some .eventNotFound else if n = 506 then some .eventLocked else errcode)

/- What is returned, the calls of the callback, and what is not read. -/
structure CommitReply where
  rc : Int
  calls : List ConflictInfo
  errcode : Option ErrCode
  rest : List (List Byte)
deriving DecidableEq

/-
  `docommitresponse`; `getonelinereply` passes over lines that
  do not begin with a status.  What the callback returns is
  assigned to `rc`, and then overwritten.
-/
def docommitresponse (offset : Int) (fuel : Nat) (rc : Int) (calls : List ConflictInfo)
    (errcode : Option ErrCode) : List (List Byte) → CommitReply
  | [] => ⟨rc, calls, errcode, []⟩
  | line :: rest =>
    let readbuf := cString (line.take 8192)
    if 3 ≤ (readbuf.takeWhile isdigit).length then
      let (ss, errcode) := checkstatus readbuf errcode
      let isLast := readbuf[3]? ≠ some (chr '-')
      if ss / 100 = 1 ∨ ss / 100 = 2 ∨ ss / 100 = 3 then
        if isLast then
          ⟨rc, calls, errcode, rest⟩
        else
          docommitresponse offset fuel rc calls errcode rest
      else if ss = 403 then
        match readConflict offset fuel readbuf with
        | none => ⟨-1, calls, errcode, rest⟩
        | some p =>
          let calls := if rc = 0 then calls ++ [p] else calls
          if isLast then
            ⟨-1, calls, some .conflict, rest⟩
          else
            docommitresponse offset fuel (-1) calls (some .conflict) rest
      else if isLast then
        ⟨-1, calls, errcode, rest⟩
      else
        docommitresponse offset fuel (-1) calls errcode rest
    else
      docommitresponse offset fuel rc calls errcode rest

/- The calls there should be, as long as the callback returns 0. -/
def dueCalls (callback : ConflictInfo → Int) : List ConflictInfo → List ConflictInfo
  | [] => []
  | p :: list => p :: if callback p = 0 then dueCalls callback list else []

/- A word, as addresses and event ids are. -/
structure IsWord (word : List Byte) : Prop where
  named : word ≠ []
  chars : ∀ b ∈ word, isspace b = false ∧ b ≠ 0

/- A conflict that the server knows of. -/
structure ConflictInfo.Known (p : ConflictInfo) : Prop where
  eventid : IsWord p.conflictEventid
  addr : IsWord p.conflictAddr
  start : 0 < p.conflictStart ∧ p.conflictStart < lastStamp
  stop : 0 < p.conflictEnd ∧ p.conflictEnd < lastStamp

/- The words have room in the buffers of the client. -/
def ConflictInfo.Fits (p : ConflictInfo) : Prop :=
  p.conflictAddr.length ≤ 511 ∧ p.conflictEventid.length ≤ 511

/- What is read of a line that another one follows. -/
def ConflictInfo.Readable (offset : Int) (fuel : Nat) (p : ConflictInfo) : Prop :=
  (readConflict offset fuel (cString ((conflictLine true p).take 8192))).isSome = true

theorem scanWord_word {width : Nat} {word : List Byte} (hWord : IsWord word)
    (hShort : word.length ≤ width) (rest : List Byte) :
    scanWord width (word ++ chr ' ' :: rest) = some (word, chr ' ' :: rest) := by
  have hDrop : (word ++ chr ' ' :: rest).dropWhile isspace = word ++ chr ' ' :: rest := by
    have hSome := hWord.named
    cases word with
    | nil => exact absurd rfl hSome
    | cons b word =>
      exact List.dropWhile_cons_of_neg (Bool.eq_false_iff.mp (hWord.chars b List.mem_cons_self).1)
  have hTake : ((word ++ chr ' ' :: rest).take width).takeWhile (!isspace ·) = word := by
    rw [List.take_append, List.take_of_length_le hShort]
    apply takeWhile_run (fun b hB => by rw [(hWord.chars b hB).1]; rfl)
    intro b hHead
    cases hMore : width - word.length with
    | zero =>
      rw [hMore] at hHead
      cases hHead
    | succ n =>
      rw [hMore] at hHead
      cases hHead
      rfl
  rw [scanWord, hDrop, hTake, if_neg hWord.named, List.drop_left]

/- The next word begins at the blank, or behind it. -/
theorem scanWords_word {width : Nat} {word : List Byte} (hWord : IsWord word)
    (hShort : word.length ≤ width) (next : Nat) (widths : List Nat) (rest : List Byte) :
    scanWords (width :: next :: widths) (word ++ chr ' ' :: rest) =
      (scanWords (next :: widths) rest).map (word :: ·) := by
  rw [scanWords, scanWord_word hWord hShort]
  rfl

theorem length_scanWords {widths : List Nat} {text : List Byte} {words : List (List Byte)}
    (hScan : scanWords widths text = some words) :
    List.Forall₂ (fun word width => word.length ≤ width) words widths := by
  induction widths generalizing text words with
  | nil =>
    cases hScan
    exact List.Forall₂.nil
  | cons width widths ih =>
    rcases Option.bind_eq_some_iff.mp hScan with ⟨found, hFound, hMap⟩
    rcases Option.map_eq_some_iff.mp hMap with ⟨more, hMore, rfl⟩
    refine List.Forall₂.cons ?_ (ih hMore)
    rw [scanWord] at hFound
    split at hFound
    · cases hFound
    · cases hFound
      exact (List.takeWhile_prefix _).length_le.trans (List.length_take_le _ _)

variable {p : ConflictInfo}

theorem stamp_word {t : Int} (hTime : 0 < t ∧ t < lastStamp) :
    IsWord (pcpGmtimestr t) ∧ (pcpGmtimestr t).length = 14 := by
  rcases digits_of_stamp hTime with ⟨hLength, hDigits⟩
  refine ⟨⟨fun hNil => ?_, fun b hB => ?_⟩, hLength⟩
  · rw [hNil] at hLength
    cases hLength
  · refine ⟨(isspace_of_isdigit (hDigits b hB)).1, ?_⟩
    rintro rfl
    cases hDigits 0 hB

theorem scanWords_conflictLine (hKnown : p.Known) (hFits : p.Fits) (next : Bool) :
    scanWords [511, 14, 14, 511] ((conflictLine next p).drop 4) =
      some [p.conflictAddr, pcpGmtimestr p.conflictStart, pcpGmtimestr p.conflictEnd,
        p.conflictEventid] := by
  rcases stamp_word hKnown.start with ⟨hStart, hStartLength⟩
  rcases stamp_word hKnown.stop with ⟨hStop, hStopLength⟩
  show scanWords _ (p.conflictAddr ++ chr ' ' :: _) = _
  rw [scanWords_word hKnown.addr hFits.1, scanWords_word hStart (Nat.le_of_eq hStartLength),
    scanWords_word hStop (Nat.le_of_eq hStopLength), scanWords]
  have hLast := scanWord_word hKnown.eventid hFits.2 (bytes "conflicts.")
  exact congrArg (fun found : Option (List Byte × List Byte) => (((found.bind fun found =>
    (scanWords [] found.2).map (found.1 :: ·)).map _).map _).map _) hLast

theorem cString_conflictLine (hKnown : p.Known) (hFits : p.Fits) (next : Bool) :
    cString ((conflictLine next p).take 8192) = conflictLine next p := by
  have hZero : ∀ {word}, IsWord word → 0 ∉ word := fun hWord hMem => (hWord.chars 0 hMem).2 rfl
  rcases stamp_word hKnown.start with ⟨hStart, hStartLength⟩
  rcases stamp_word hKnown.stop with ⟨hStop, hStopLength⟩
  rw [List.take_of_length_le]
  · apply Authlib.cString_eq_self
    have hTexts : 0 ∉ bytes "403" ∧ 0 ∉ bytes " conflicts." ∧ (0 : Byte) ≠ chr ' ' ∧
        (0 : Byte) ≠ chr '-' := by
      decide
    have hWords := And.intro (hZero hKnown.addr) (hZero hKnown.eventid)
    cases next with
    | false => simp [conflictLine, hZero hStart, hZero hStop, hWords, hTexts]
    | true => simp [conflictLine, hZero hStart, hZero hStop, hWords, hTexts]
  · rcases hFits with ⟨hAddr, hEventid⟩
    have hTexts : (bytes "403").length = 3 ∧ (bytes " conflicts.").length = 11 := ⟨rfl, rfl⟩
    simp only [conflictLine, List.length_append, List.length_cons, hTexts, hStartLength,
      hStopLength]
    omega

variable {offset : Int} {fuel : Nat}

theorem readConflict_conflictLine (hMinutes : offset % 60 = 0)
    (hDay : -86400 < offset ∧ offset < 86400) (hFuel : 2 ≤ fuel) (hKnown : p.Known)
    (hFits : p.Fits) (next : Bool) :
    readConflict offset fuel (cString ((conflictLine next p).take 8192)) = some p := by
  have hTimes := (pcpGmtimeS_pcpGmtimestr hMinutes hDay).2
  have hStart := hKnown.start
  have hStop := hKnown.stop
  rw [cString_conflictLine hKnown hFits, readConflict, if_pos ⟨rfl, Nat.le_add_left _ _⟩,
    scanWords_conflictLine hKnown hFits]
  dsimp only
  rw [hTimes _ hStart.1 hStart.2 fuel hFuel, hTimes _ hStop.1 hStop.2 fuel hFuel]
  exact if_neg (by omega)

theorem fits_of_readConflict {readbuf : List Byte}
    (hRead : readConflict offset fuel readbuf = some p) : p.Fits := by
  unfold readConflict at hRead
  split at hRead
  · split at hRead
    · rename_i hScan
      have hLengths := length_scanWords hScan
      rw [List.forall₂_cons, List.forall₂_cons, List.forall₂_cons, List.forall₂_cons] at hLengths
      split at hRead
      · split at hRead
        · cases hRead
        · cases hRead
          exact ⟨hLengths.1, hLengths.2.2.2.1⟩
      · cases hRead
    · cases hRead
  · cases hRead

------------
-- Reading the Reply
------------

variable {calls : List ConflictInfo} {later : List (List Byte)}

theorem docommitresponse_line (next : Bool) (rc : Int) (errcode : Option ErrCode)
    (rest : List (List Byte)) :
    docommitresponse offset fuel rc calls errcode (conflictLine next p :: rest) =
      match readConflict offset fuel (cString ((conflictLine next p).take 8192)) with
      | none => ⟨-1, calls, errcode, rest⟩
      | some q =>
        let calls := if rc = 0 then calls ++ [q] else calls
        if next then
          docommitresponse offset fuel (-1) calls (some .conflict) rest
        else
          ⟨-1, calls, some .conflict, rest⟩ := by
  have hDigits : 3 ≤ ((cString ((conflictLine next p).take 8192)).takeWhile isdigit).length := by
    cases next with
    | false => exact Nat.le_refl 3
    | true => exact Nat.le_refl 3
  have hStatus : checkstatus (cString ((conflictLine next p).take 8192)) errcode =
      (403, errcode) := by
    cases next with
    | false => rfl
    | true => rfl
  have hLast : (cString ((conflictLine next p).take 8192))[3]? ≠ some (chr '-') ↔
      ¬ next = true := by
    cases next with
    | false => exact iff_of_true (fun hEq => absurd (Option.some.inj hEq) (by decide)) (by decide)
    | true => exact iff_of_false (fun hNe => hNe rfl) (fun hNe => hNe rfl)
  rw [docommitresponse]
  dsimp only
  rw [if_pos hDigits, hStatus]
  dsimp only
  rw [if_neg (by decide), if_pos rfl]
  cases readConflict offset fuel (cString ((conflictLine next p).take 8192)) with
  | none => rfl
  | some q =>
    dsimp only
    rw [if_congr hLast rfl rfl, ite_not]

/- Behind the first line the callback is not called. -/
theorem calls_docommitresponse (list : List ConflictInfo) :
    (docommitresponse offset fuel (-1) calls (some .conflict)
      (conflictReply (p :: list) ++ later)).calls = calls := by
  induction list generalizing p with
  | nil =>
    rw [conflictReply, List.cons_append, docommitresponse_line]
    split
    · rfl
    · rfl
  | cons r list ih =>
    rw [conflictReply, List.cons_append, docommitresponse_line]
    split
    · rfl
    · exact ih

theorem docommitresponse_tail (list : List ConflictInfo) :
    docommitresponse offset fuel (-1) calls (some .conflict) (conflictReply (p :: list) ++ later) =
        ⟨-1, calls, some .conflict, later⟩ ↔
      ∀ q ∈ (p :: list).dropLast, q.Readable offset fuel := by
  induction list generalizing p with
  | nil =>
    rw [conflictReply, List.cons_append, docommitresponse_line]
    split
    · exact iff_of_true rfl nofun
    · exact iff_of_true rfl nofun
  | cons r list ih =>
    rw [conflictReply, List.cons_append, docommitresponse_line, List.dropLast_cons_cons,
      List.forall_mem_cons, ← ih, ConflictInfo.Readable]
    show (match readConflict offset fuel (cString ((conflictLine true p).take 8192)) with
      | none => _
      | some q => _) = _ ↔ _
    cases readConflict offset fuel (cString ((conflictLine true p).take 8192)) with
    | none =>
      refine iff_of_false (fun hEq => ?_) (by simp)
      have hLength := congrArg (fun reply => reply.rest.length) hEq
      simp [conflictReply] at hLength
      omega
    | some q => simp

/-
  The callback is called as it should be where the first
  conflict fits and is the only one, or the callback fails at
  it and the other lines can be read.
-/
theorem docommitresponse_iff (hMinutes : offset % 60 = 0)
    (hDay : -86400 < offset ∧ offset < 86400) (hFuel : 2 ≤ fuel) {list : List ConflictInfo}
    (hKnown : ∀ q ∈ p :: list, q.Known) (callback : ConflictInfo → Int) :
    docommitresponse offset fuel 0 [] none (conflictReply (p :: list) ++ later) =
        ⟨-1, dueCalls callback (p :: list), some .conflict, later⟩ ↔
      p.Fits ∧ (list = [] ∨ callback p ≠ 0) ∧ ∀ q ∈ list.dropLast, q.Readable offset fuel := by
  have hRight := readConflict_conflictLine hMinutes hDay hFuel (hKnown p List.mem_cons_self)
  rw [conflictReply, List.cons_append, docommitresponse_line, dueCalls]
  cases hRead : readConflict offset fuel (cString ((conflictLine (!list.isEmpty) p).take 8192)) with
  | none =>
    have hNot : ¬ p.Fits := fun hFits => by
      rw [hRight hFits] at hRead
      cases hRead
    simp [hNot]
  | some q =>
    by_cases hSame : q = p
    · subst hSame
      have hFits := fits_of_readConflict hRead
      cases list with
      | nil => simp [hFits, dueCalls, conflictReply]
      | cons r list =>
        by_cases hCalled : callback q = 0
        · refine iff_of_false (fun hEq => ?_) (fun hAll => by simp [hCalled] at hAll)
          have hCalls := (calls_docommitresponse list).symm.trans (congrArg CommitReply.calls hEq)
          simp [hCalled, dueCalls] at hCalls
        · simp [hFits, hCalled]
          exact docommitresponse_tail list
    · have hNot : ¬ p.Fits :=
        fun hFits => hSame (Option.some.inj (hRead.symm.trans (hRight hFits _)))
      cases list with
      | nil => simp [hNot, hSame]
      | cons r list =>
        refine iff_of_false (fun hEq => ?_) (fun hAll => hNot hAll.1)
        have hCalls := (calls_docommitresponse list).symm.trans (congrArg CommitReply.calls hEq)
        exact hSame (List.cons.inj hCalls).1

/- Two events of a morning. -/
def eight : ConflictInfo where
  conflictEventid := bytes "7"
  conflictAddr := bytes "joe"
  conflictStart := 1000022400
  conflictEnd := 1000026000

def nine : ConflictInfo :=
  { eight with
    conflictEventid := bytes "8", conflictStart := 1000026000, conflictEnd := 1000029600 }

theorem docommitresponse_eight : docommitresponse 0 2 0 [] none (conflictReply [eight] ++ []) =
    ⟨-1, dueCalls (fun _ => 0) [eight], some .conflict, []⟩ :=
  (@docommitresponse_iff eight 0 2 [] (by decide) (by decide) (Nat.le_refl 2) []
    (List.forall_mem_singleton.mpr ⟨⟨by decide, by decide +kernel⟩,
      ⟨by decide, by decide +kernel⟩, by decide, by decide⟩) fun _ => 0).mpr
    ⟨⟨by decide, by decide⟩, Or.inl rfl, nofun⟩

theorem not_docommitresponse_nine :
    conflictReply [eight, nine] =
        [bytes "403-joe 20010909080000 20010909090000 7 conflicts.",
          bytes "403 joe 20010909090000 20010909100000 8 conflicts."] ∧
      docommitresponse 0 2 0 [] none (conflictReply [eight, nine]) =
        ⟨-1, [eight], some .conflict, []⟩ ∧
      dueCalls (fun _ => 0) [eight, nine] = [eight, nine] := by
  decide +kernel

end Pcp

end Wmail
