import Wmail.Core.DotLines
import Wmail.Core.Stream
import Wmail.Maildir.Maildirfilter

/-
  The text of a new event on its way from a client to the
  calendar server (pcpnet.c, pcpd.c).

  Key theorems include:
    * `saveevent_reading`
    * `saveevent_neweventid_iff`
-/

namespace Wmail.Pcp

open Maildir (bufsiz)

/- `wbuf`, and whether a line begins. -/
structure Sender where
  wbuf : Writer Byte
  seeneol : Bool

/- One byte of the text. -/
def sendByte (st : Sender) (c : Byte) : Sender :=
  let wbuf :=
    if st.seeneol && c = chr '.' then st.wbuf.put bufsiz (chr '.') else st.wbuf
  ⟨wbuf.put bufsiz c, c = nl⟩

/-
  The text in the pieces that `pcp_read_saveevent` gives; an
  empty one is its end.
-/
def sendPieces : Sender → List (List Byte) → Sender
  | st, [] => st
  | st, [] :: _ => st
  | st, (c :: rbuf) :: pieces => sendPieces ((c :: rbuf).foldl sendByte st) pieces

/- What `neweventid` writes behind the `NEW` command. -/
def neweventidText (pieces : List (List Byte)) : List (List Byte) :=
  let st := sendPieces ⟨⟨[], []⟩, true⟩ pieces
  let s := if st.seeneol then bytes ".\n" else bytes "\n.\n"
  (s.foldl (Writer.put bufsiz) st.wbuf).flush.sent

------------
-- The Server
------------

/- `struct readnewevent_s`, without its timer. -/
structure ReadNewEvent where
  tmpfile : List Byte
  seeneol : Bool
  seendot : Bool
  seeneof : Bool
  sentprompt : Bool
deriving DecidableEq

/- One byte, and what is stored for it. -/
def ReadNewEvent.accept (rne : ReadNewEvent) (c : Byte) : ReadNewEvent × Option Byte :=
  if c = cr then
    (rne, none)
  else if c = nl then
    if rne.seendot then
      ({ rne with seeneof := true, seendot := false, seeneol := true }, none)
    else
      ({ rne with tmpfile := rne.tmpfile ++ [c], seendot := false, seeneol := true }, some c)
  else if rne.seeneol ∧ c = chr '.' then
    ({ rne with seendot := true, seeneol := false }, none)
  else
    ({ rne with tmpfile := rne.tmpfile ++ [c], seendot := false, seeneol := false }, some c)

/-
  The loop of `readnewevent_callback`: nothing is returned
  when the input ends.
-/
def readneweventLoop (n : Nat) (rne : ReadNewEvent) (input : Stream Byte) :
    Option (List Byte) × ReadNewEvent × Stream Byte :=
  if rne.seeneof ∨ n = 0 then
    (some [], rne, input)
  else
    match _hGet : input.getc with
    | none => (none, { rne with seeneof := true }, input)
    | some (c, next) =>
      match rne.accept c with
      | (rne, none) => readneweventLoop n rne next
      | (rne, some b) =>
        let (buf, last) := readneweventLoop (n - 1) rne next
        (buf.map (b :: ·), last)
termination_by input.contents.length
decreasing_by
  all_goals
    rw [Stream.contents_of_getc _hGet]
    exact Nat.lt_succ_self _

section Loop

variable {n : Nat} {rne next : ReadNewEvent} {input more : Stream Byte} {c b : Byte}

theorem readneweventLoop_stop (hStop : rne.seeneof = true ∨ n = 0) :
    readneweventLoop n rne input = (some [], rne, input) := by
  rw [readneweventLoop, if_pos hStop]

theorem readneweventLoop_end (hGo : ¬ (rne.seeneof = true ∨ n = 0)) (hGet : input.getc = none) :
    readneweventLoop n rne input = (none, { rne with seeneof := true }, input) := by
  rw [readneweventLoop, if_neg hGo]
  split
  · rfl
  · rename_i hSome
    rw [hGet] at hSome
    cases hSome

theorem readneweventLoop_skip (hGo : ¬ (rne.seeneof = true ∨ n = 0))
    (hGet : input.getc = some (c, more)) (hAccept : rne.accept c = (next, none)) :
    readneweventLoop n rne input = readneweventLoop n next more := by
  rw [readneweventLoop, if_neg hGo]
  split
  · rename_i hNone
    rw [hGet] at hNone
    cases hNone
  · rename_i hSome
    rw [hGet] at hSome
    cases hSome
    rw [hAccept]

theorem readneweventLoop_store (hGo : ¬ (rne.seeneof = true ∨ n = 0))
    (hGet : input.getc = some (c, more)) (hAccept : rne.accept c = (next, some b)) :
    readneweventLoop n rne input = ((readneweventLoop (n - 1) next more).1.map (b :: ·),
        (readneweventLoop (n - 1) next more).2) := by
  rw [readneweventLoop, if_neg hGo]
  split
  · rename_i hNone
    rw [hGet] at hNone
    cases hNone
  · rename_i hSome
    rw [hGet] at hSome
    cases hSome
    rw [hAccept]

end Loop

/- What is read is no longer there. -/
theorem length_readneweventLoop (n : Nat) (rne : ReadNewEvent) (input : Stream Byte) :
    ((readneweventLoop n rne input).1.getD []).length +
        (readneweventLoop n rne input).2.2.contents.length ≤
      input.contents.length := by
  induction hLength : input.contents.length generalizing n rne input with
  | zero =>
    have hNone : input.getc = none := Stream.getc_end (List.eq_nil_of_length_eq_zero hLength)
    by_cases hGo : rne.seeneof = true ∨ n = 0
    · rw [readneweventLoop_stop hGo]
      exact Nat.le_of_eq ((Nat.zero_add _).trans hLength)
    · rw [readneweventLoop_end hGo hNone]
      exact Nat.le_of_eq ((Nat.zero_add _).trans hLength)
  | succ length ih =>
    by_cases hGo : rne.seeneof = true ∨ n = 0
    · rw [readneweventLoop_stop hGo]
      exact Nat.le_of_eq ((Nat.zero_add _).trans hLength)
    · cases hGet : input.getc with
      | none =>
        rw [readneweventLoop_end hGo hGet]
        exact Nat.le_of_eq ((Nat.zero_add _).trans hLength)
      | some found =>
        rcases found with ⟨c, more⟩
        rw [Stream.contents_of_getc hGet] at hLength
        have hMore : more.contents.length = length := Nat.succ.inj hLength
        cases hAccept : rne.accept c with
        | mk next out =>
          cases out with
          | none =>
            rw [readneweventLoop_skip hGo hGet hAccept]
            exact Nat.le_succ_of_le (ih n next more hMore)
          | some b =>
            rw [readneweventLoop_store hGo hGet hAccept]
            have hLess := ih (n - 1) next more hMore
            cases hBuf : (readneweventLoop (n - 1) next more).1 with
            | none =>
              rw [hBuf] at hLess
              exact Nat.le_succ_of_le hLess
            | some buf =>
              rw [hBuf] at hLess
              simp only [Option.getD_some, Option.map_some, List.length_cons] at hLess ⊢
              omega

theorem accept_sentprompt (rne : ReadNewEvent) (c : Byte) :
    (rne.accept c).1.sentprompt = rne.sentprompt := by
  unfold ReadNewEvent.accept
  split
  · rfl
  · split
    · split
      · rfl
      · rfl
    · split
      · rfl
      · rfl

theorem readneweventLoop_sentprompt (n : Nat) (rne : ReadNewEvent) (input : Stream Byte) :
    (readneweventLoop n rne input).2.1.sentprompt = rne.sentprompt := by
  induction hLength : input.contents.length using Nat.strongRecOn generalizing n rne input with
  | _ length ih =>
    by_cases hGo : rne.seeneof = true ∨ n = 0
    · rw [readneweventLoop_stop hGo]
    · cases hGet : input.getc with
      | none => rw [readneweventLoop_end hGo hGet]
      | some found =>
        rcases found with ⟨c, more⟩
        have hLess : more.contents.length < length := by
          rw [← hLength, Stream.contents_of_getc hGet]
          exact Nat.lt_succ_self _
        have hSame := accept_sentprompt rne c
        cases hAccept : rne.accept c with
        | mk next out =>
          rw [hAccept] at hSame
          cases out with
          | none => rw [readneweventLoop_skip hGo hGet hAccept, ih _ hLess _ _ _ rfl, hSame]
          | some b => rw [readneweventLoop_store hGo hGet hAccept, ih _ hLess _ _ _ rfl, hSame]

/- `readnewevent_callback`; the prompt is printed once. -/
def readneweventCallback (n : Nat) (rne : ReadNewEvent) (input : Stream Byte) :
    Option (List Byte) × ReadNewEvent × Stream Byte :=
  readneweventLoop n { rne with sentprompt := true } input

/-
  The loop of `saveevent`, which reads the text into a buffer
  of the given size.
-/
def saveevent (size : Nat) (rne : ReadNewEvent) (input : Stream Byte) :
    Option (List Byte) × ReadNewEvent × Stream Byte :=
  match _hRead : readneweventCallback size rne input with
  | (none, last) => (none, last)
  | (some [], last) => (some [], last)
  | (some (b :: buf), next, more) =>
    let (text, last) := saveevent size next more
    (text.map (b :: buf ++ ·), last)
termination_by input.contents.length
decreasing_by
  have hLess := length_readneweventLoop size { rne with sentprompt := true } input
  unfold readneweventCallback at _hRead
  rw [_hRead] at hLess
  simp only [Option.getD_some, List.length_cons] at hLess
  omega

section Save

variable {size : Nat} {rne next : ReadNewEvent} {input more : Stream Byte} {b : Byte}
variable {buf : List Byte}

theorem saveevent_end
    (hRead : readneweventCallback size rne input =
      (some [], next, more)) : saveevent size rne input = (some [], next, more) := by
  rw [saveevent]
  split
  · rename_i hNone
    rw [hRead] at hNone
    cases hNone
  · rename_i hNil
    rw [hRead] at hNil
    cases hNil
    rfl
  · rename_i hSome
    rw [hRead] at hSome
    cases hSome

theorem saveevent_more
    (hRead : readneweventCallback size rne input = (some (b :: buf), next, more)) :
    saveevent size rne input = ((saveevent size next more).1.map (b :: buf ++ ·),
        (saveevent size next more).2) := by
  rw [saveevent]
  split
  · rename_i hNone
    rw [hRead] at hNone
    cases hNone
  · rename_i hNil
    rw [hRead] at hNil
    cases hNil
  · rename_i hSome
    rw [hRead] at hSome
    cases hSome
    rfl

end Save

------------
-- The Server As A Reader Of Dotted Lines
------------

/- Where the server is in a line. -/
def ReadNewEvent.place (rne : ReadNewEvent) : Undot :=
  ⟨rne.seeneol, rne.seendot⟩

variable {rne : ReadNewEvent}

theorem accept_end {c : Byte} (hStep : rne.place.step c = none) :
    ∃ next : ReadNewEvent, rne.accept c = (next, none) ∧
        next.seeneof = true ∧ next.tmpfile = rne.tmpfile := by
  unfold Undot.step ReadNewEvent.place at hStep
  unfold ReadNewEvent.accept
  dsimp only at hStep
  split at hStep
  · cases hStep
  · rename_i hCr
    rw [if_neg hCr]
    split at hStep
    · rename_i hNl
      rw [if_pos hNl]
      split at hStep
      · rename_i hDot
        rw [if_pos hDot]
        exact ⟨_, rfl, rfl, rfl⟩
      · cases hStep
    · split at hStep
      · cases hStep
      · cases hStep

theorem accept_step {c : Byte} {s : Undot} {out : Option Byte}
    (hStep : rne.place.step c = some (s, out)) :
    ∃ next : ReadNewEvent, rne.accept c = (next, out) ∧ next.place = s ∧
        next.seeneof = rne.seeneof ∧ next.tmpfile = rne.tmpfile ++ out.toList := by
  unfold Undot.step ReadNewEvent.place at hStep
  unfold ReadNewEvent.accept
  dsimp only at hStep
  split at hStep
  · rename_i hCr
    cases hStep
    rw [if_pos hCr]
    exact ⟨_, rfl, rfl, rfl, (List.append_nil _).symm⟩
  · rename_i hCr
    rw [if_neg hCr]
    split at hStep
    · rename_i hNl
      rw [if_pos hNl]
      split at hStep
      · cases hStep
      · rename_i hDot
        cases hStep
        rw [if_neg hDot]
        exact ⟨_, rfl, rfl, rfl, rfl⟩
    · rename_i hNl
      rw [if_neg hNl]
      split at hStep
      · rename_i hDot
        cases hStep
        rw [if_pos hDot]
        exact ⟨_, rfl, rfl, rfl, (List.append_nil _).symm⟩
      · rename_i hDot
        cases hStep
        rw [if_neg hDot]
        exact ⟨_, rfl, rfl, rfl, rfl⟩

/-
  The server has still to read a text, with something behind
  the line that ends it.
-/
structure Reading (rne : ReadNewEvent) (input : Stream Byte) (got rest : List Byte) : Prop where
  open_ : rne.seeneof = false
  ahead : undot rne.place input.contents = some (got, rest)

/- It has read the text. -/
structure HasRead (rne : ReadNewEvent) (input : Stream Byte) (rest : List Byte) : Prop where
  closed : rne.seeneof = true
  behind : input.contents = rest

variable {input : Stream Byte} {got rest : List Byte}

/- One call takes as much of the text as there is room for. -/
theorem readneweventLoop_reading {n : Nat} (hReading : Reading rne input got rest) :
    ∃ next more, readneweventLoop n rne input = (some (got.take n), next, more) ∧
        next.tmpfile = rne.tmpfile ++ got.take n ∧ (got.length < n → HasRead next more rest) ∧
            (n ≤ got.length → Reading next more (got.drop n) rest) := by
  induction hContents : input.contents generalizing n rne input got with
  | nil =>
    have hAhead := hReading.ahead
    rw [hContents] at hAhead
    cases hAhead
  | cons c behind ih =>
    have hAhead := hReading.ahead
    rw [hContents, undot] at hAhead
    rcases Stream.getc_contents hContents with ⟨more, hGet, hMore⟩
    by_cases hFull : n = 0
    · subst n
      refine ⟨rne, input, readneweventLoop_stop (Or.inr rfl),
        (List.append_nil _).symm,
        fun hLess => absurd hLess (Nat.not_lt_zero _), fun _ => hReading⟩
    · have hGo : ¬ (rne.seeneof = true ∨ n = 0) := by
        rintro (hClosed | hZero)
        · rw [hReading.open_] at hClosed
          cases hClosed
        · exact hFull hZero
      cases hStep : rne.place.step c with
      | none =>
        rw [hStep] at hAhead
        cases hAhead
        rcases accept_end hStep with ⟨next, hAccept, hClosed, hFile⟩
        rw [readneweventLoop_skip hGo hGet hAccept, readneweventLoop_stop (Or.inl hClosed),
          List.take_nil]
        refine ⟨next, more, rfl, ?_, fun _ => ⟨hClosed, hMore⟩, fun hZero => ?_⟩
        · rw [hFile, List.append_nil]
        · exact absurd (Nat.le_zero.mp hZero) hFull
      | some found =>
        rcases found with ⟨s, out⟩
        rw [hStep] at hAhead
        rcases Option.map_eq_some_iff.mp hAhead with ⟨⟨text, tail⟩, hBehind, hSame⟩
        rcases accept_step hStep with ⟨next, hAccept, hPlace, hClosed, hFile⟩
        simp only [Prod.mk.injEq] at hSame
        rcases hSame with ⟨hGot, hTail⟩
        subst got tail
        have hNext : Reading next more text rest := by
          constructor
          · rw [hClosed]
            exact hReading.open_
          · rw [hPlace, hMore]
            exact hBehind
        cases out with
        | none =>
          rw [readneweventLoop_skip hGo hGet hAccept]
          rcases ih hNext hMore (n := n) with ⟨last, final, hRun, hLast, hEnd, hGoes⟩
          refine ⟨last, final, hRun, ?_, hEnd, hGoes⟩
          rw [hLast, hFile]
          exact congrArg (· ++ _) (List.append_nil _)
        | some b =>
          rw [readneweventLoop_store hGo hGet hAccept]
          rcases ih hNext hMore (n := n - 1) with ⟨last, final, hRun, hLast, hEnd, hGoes⟩
          obtain ⟨room, rfl⟩ := Nat.exists_eq_succ_of_ne_zero hFull
          refine ⟨last, final, ?_, ?_, ?_, ?_⟩
          · rw [hRun]
            rfl
          · rw [hLast, hFile, List.append_assoc]
            rfl
          · intro hShort
            exact hEnd (Nat.lt_of_succ_lt_succ hShort)
          · intro hLong
            exact hGoes (Nat.le_of_succ_le_succ hLong)

theorem readneweventCallback_reading (n : Nat) (hReading : Reading rne input got rest) :
    ∃ next more, readneweventCallback n rne input = (some (got.take n), next, more) ∧
        next.tmpfile = rne.tmpfile ++ got.take n ∧ (got.length < n → HasRead next more rest) ∧
            (n ≤ got.length → Reading next more (got.drop n) rest) := by
  have hPrompt : Reading { rne with sentprompt := true }
      input got rest :=
    ⟨hReading.open_, hReading.ahead⟩
  exact readneweventLoop_reading hPrompt

/- A call that returns nothing has met the end. -/
theorem eq_nil_of_take_eq_nil {n : Nat} {got : List Byte} (hRoom : 0 < n)
    (hTake : got.take n = []) : got = [] := by
  rw [List.take_eq_nil_iff] at hTake
  exact hTake.resolve_left (Nat.ne_of_gt hRoom)

/- The whole text is saved, whatever the buffer's size. -/
theorem saveevent_reading {size : Nat} (hSize : 0 < size)
    (hReading : Reading rne input got rest) :
    ∃ next more, saveevent size rne input = (some got, next, more) ∧
        next.tmpfile = rne.tmpfile ++ got ∧ HasRead next more rest := by
  induction hLength : got.length using Nat.strongRecOn generalizing rne input got with
  | _ length ih =>
    rcases readneweventCallback_reading size hReading with ⟨next, more, hRun, hFile, hEnd, hGoes⟩
    cases hTake : got.take size with
    | nil =>
      have hNone := eq_nil_of_take_eq_nil hSize hTake
      subst got
      rw [List.take_nil] at hRun hFile
      exact ⟨next, more, saveevent_end hRun, hFile, hEnd hSize⟩
    | cons b buf =>
      rw [hTake] at hRun hFile
      rw [saveevent_more hRun]
      by_cases hShort : got.length < size
      · have hAll : got = b :: buf := by rw [← hTake, List.take_of_length_le (by omega)]
        have hRead := hEnd hShort
        have hStop : readneweventCallback size next more =
            (some [], { next with sentprompt := true }, more) :=
          readneweventLoop_stop (Or.inl hRead.closed)
        rw [saveevent_end hStop, hAll]
        refine ⟨{ next with sentprompt := true }, more, ?_, hFile, hRead.closed, hRead.behind⟩
        simp only [Option.map_some, List.append_nil]
      · have hLong : size ≤ got.length := Nat.le_of_not_lt hShort
        have hLess : (got.drop size).length < length := by
          rw [List.length_drop]
          omega
        have hSplit : b :: buf ++ got.drop size = got := by rw [← hTake, List.take_append_drop]
        rcases ih _ hLess (hGoes hLong) rfl with ⟨last, final, hSave, hLast, hRead⟩
        refine ⟨last, final, ?_, ?_, hRead⟩
        · rw [hSave]
          simp only [Option.map_some, hSplit]
        · rw [hLast, hFile, List.append_assoc, hSplit]

theorem sendByte_text (st : Sender) (c : Byte) : (sendByte st c).wbuf.text =
      st.wbuf.text ++ stuffByte st.seeneol c := by
  unfold sendByte stuffByte
  dsimp only
  rw [Writer.put_text]
  split
  · rw [Writer.put_text, List.append_assoc]
    rfl
  · rfl

/- Every line that begins with a dot gets another one. -/
theorem foldl_sendByte (text : List Byte) (st : Sender) (rest : List Byte) :
    (text.foldl sendByte st).wbuf.text ++ stuff (text.foldl sendByte st).seeneol rest =
      st.wbuf.text ++ stuff st.seeneol (text ++ rest) := by
  induction text generalizing st with
  | nil => rfl
  | cons c text ih =>
    rw [List.foldl_cons, ih, sendByte_text, List.cons_append, stuff_cons, List.append_assoc]
    rfl

theorem sendPieces_eq {pieces : List (List Byte)}
    (hPieces : ∀ piece, piece ∈ pieces → piece ≠ []) (st : Sender) :
    sendPieces st pieces = pieces.flatten.foldl sendByte st := by
  induction pieces generalizing st with
  | nil => rfl
  | cons piece pieces ih =>
    have hMore : ∀ other, other ∈ pieces → other ≠ [] :=
      fun other hMem => hPieces other (List.mem_cons_of_mem _ hMem)
    cases piece with
    | nil => exact absurd rfl (hPieces [] List.mem_cons_self)
    | cons c rbuf => rw [sendPieces, ih hMore, List.flatten_cons, List.foldl_append]

/- What is sent does not depend on the pieces. -/
theorem neweventidText_flatten {pieces : List (List Byte)}
    (hPieces : ∀ piece, piece ∈ pieces → piece ≠ []) :
    (neweventidText pieces).flatten = stuff true pieces.flatten := by
  have hAll := foldl_sendByte pieces.flatten ⟨⟨[], []⟩, true⟩ []
  unfold neweventidText
  rw [sendPieces_eq hPieces]
  dsimp only
  rw [Writer.flush_flatten, Writer.foldl_put_text]
  rw [List.append_nil] at hAll
  refine Eq.trans ?_ hAll
  congr 1
  cases (pieces.flatten.foldl sendByte ⟨⟨[], []⟩, true⟩).seeneol with
  | true => rfl
  | false => rfl

/- What the server should get for a text. -/
def received (text : List Byte) : List Byte :=
  text.filter (· ≠ cr) ++ if text.getLast? = some nl then [] else [nl]

/- Before the first byte. -/
def ReadNewEvent.fresh : ReadNewEvent where
  tmpfile := []
  seeneol := true
  seendot := false
  seeneof := false
  sentprompt := false

/-
  However the text is cut, the server gets it and reads
  nothing behind it, unless the text is empty or a line begins
  with carriage returns and a dot.
-/
theorem saveevent_neweventid_iff {pieces : List (List Byte)}
    (hPieces : ∀ piece, piece ∈ pieces → piece ≠ []) {size : Nat} (hSize : 0 < size)
    {input : Stream Byte} {more : List Byte}
    (hArrives : input.contents = (neweventidText pieces).flatten ++ more) :
    ((saveevent size .fresh input).1 = some (received pieces.flatten) ∧
        (saveevent size .fresh input).2.2.contents = more) ↔
      pieces.flatten ≠ [] ∧ ∀ line, line ∈ linesOf pieces.flatten → hiddenLine line = false := by
  rw [neweventidText_flatten hPieces] at hArrives
  rcases undot_stuff_length true .start pieces.flatten (fun _ => rfl) nofun more with
    ⟨got, tail, hRun, _⟩
  have hReading : Reading .fresh input got tail := by
    refine ⟨rfl, ?_⟩
    rw [hArrives]
    exact hRun
  rcases saveevent_reading hSize hReading with ⟨next, final, hSave, _, hRead⟩
  have hLines : hiddenDot true true pieces.flatten = false ↔
      ∀ line, line ∈ linesOf pieces.flatten → hiddenLine line = false := by
    rw [hiddenDot_linesOf, List.any_eq_false]
    simp only [Bool.not_eq_true]
  rw [hSave, hRead.behind, ← hLines, ← undot_stuff_iff pieces.flatten more, hRun]
  simp only [Option.some.injEq, Prod.mk.injEq]
  by_cases hNone : pieces.flatten = []
  · rw [hNone] at hRun ⊢
    cases hRun
    simp [received]
  · rw [plain_eq hNone]
    simp only [received, ne_eq, hNone, not_false_eq_true, true_and]

/- A text with a line that begins with a dot. -/
def dottedUpload : Stream Byte where
  held := []
  coming := [bytes "a\n..", bytes "b\n.\n"]
  ready := by
    decide

theorem saveevent_dotted : (saveevent bufsiz .fresh dottedUpload).1 =
        some (received [bytes "a\n.", bytes "b\n"].flatten) ∧
      (saveevent bufsiz .fresh dottedUpload).2.2.contents = [] :=
  (saveevent_neweventid_iff (by decide) (by decide)
    (by decide)).mpr ⟨by decide, by decide⟩

/- A text with a carriage return in front of the dot. -/
def hiddenText : List Byte :=
  bytes "a\n\r.\nDELETE x\n"

def hiddenUpload : Stream Byte where
  held := []
  coming := [bytes "a\n\r.\nDELETE x\n.\n"]
  ready := by
    decide

/- What is behind the dot is left for `doline`. -/
theorem saveevent_hidden : hiddenUpload.contents = (neweventidText [hiddenText]).flatten ∧
      (saveevent bufsiz .fresh hiddenUpload).1 = some (bytes "a\n") ∧
        (saveevent bufsiz .fresh hiddenUpload).2.2.contents = bytes "DELETE x\n.\n" ∧
          received hiddenText = bytes "a\n.\nDELETE x\n" := by
  have hReading : Reading .fresh hiddenUpload (bytes "a\n") (bytes "DELETE x\n.\n") :=
    ⟨rfl, by decide⟩
  have hSize : 0 < bufsiz := by decide
  rcases saveevent_reading hSize hReading with ⟨next, more, hSave, _, hRead⟩
  refine ⟨by decide, ?_, ?_, by decide⟩
  · rw [hSave]
  · rw [hSave]
    exact hRead.behind

end Wmail.Pcp
