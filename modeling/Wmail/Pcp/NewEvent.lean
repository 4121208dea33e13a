import Wmail.Pcp.EventUpload

/-
  The `NEW` command of the calendar server (pcpd.c), with
  everything that may fail while the text of the event is
  read.

  Key theorems include:
    * `saveeventWrites_reading`
    * `readnewevent_consumes_iff`
-/

namespace Wmail.Pcp

open Maildir (bufsiz)

/-
  What happens to one proxy of `proxy_list`: whether it is
  marked `PROXY_NEW`, the temporary file is set back, its
  server asks for the text, and the event is created there.
-/
structure ProxyAttempt where
  isNew : Bool
  rewinds : Bool
  asks : Bool
  accepts : Bool

/-
  What happens in the own calendar: whether the file for the
  text is opened, how many buffers can be written to it, and
  whether it is closed without an error.
-/
structure OwnAttempt where
  opens : Bool
  writes : Nat
  closes : Bool

/-
  One `NEW` command.  `connects` says that the proxies of the
  command line could be connected to; `proxyList` is what
  there is then.
-/
structure NewEvent where
  forceFlag : Bool
  connects : Bool
  tmpfile : Bool
  proxyList : List ProxyAttempt
  mkparticipants : Bool
  rewinds : Bool
  own : OwnAttempt
  fflush : Bool

/-
  `neweventid` for a proxy.  Its loop goes on reading when a
  write fails, so that the text is always read.
-/
def proxyNeweventid (p : ProxyAttempt) (firstSave : Bool) (rne : ReadNewEvent)
    (input : Stream Byte) : Bool × ReadNewEvent × Stream Byte :=
  if p.asks then
    if firstSave then
      let (text, last) := saveevent bufsiz rne input
      (text.isSome && p.accepts, last)
    else
      (p.accepts, rne, input)
  else
    (false, rne, input)

/-
  The loop of `saveevent` for the own calendar; it is left
  when a buffer cannot be written.
-/
def saveeventWrites (writes : Nat) (rne : ReadNewEvent) (input : Stream Byte) :
    Bool × ReadNewEvent × Stream Byte :=
  match readneweventCallback bufsiz rne input with
  | (none, last) => (false, last)
  | (some [], last) => (true, last)
  | (some (_ :: _), next, more) =>
    match writes with
    | 0 => (false, next, more)
    | writes + 1 => saveeventWrites writes next more

/-
  `neweventid` for the own calendar; the text comes from the
  client, or from the temporary file.
-/
def ownNeweventid (own : OwnAttempt) (firstSave : Bool) (rne : ReadNewEvent)
    (input : Stream Byte) : Bool × ReadNewEvent × Stream Byte :=
  if own.opens then
    if firstSave then
      let (saved, last) := saveeventWrites own.writes rne input
      (saved && own.closes, last)
    else
      (rne.tmpfile.length ≤ own.writes * bufsiz && own.closes, rne, input)
  else
    (false, rne, input)

/- Where the loop over the proxies leaves `readnewevent`. -/
inductive ProxyStage where
  | failed (rne : ReadNewEvent) (input : Stream Byte)
  | passed (firstSave : Bool) (rne : ReadNewEvent)
      (input : Stream Byte)

/- The loop over the proxies. -/
def proxyLoop (forceFlag : Bool) :
    List ProxyAttempt → Bool → ReadNewEvent → Stream Byte → ProxyStage
  | [], firstSave, rne, input => .passed firstSave rne input
  | p :: rest, firstSave, rne, input =>
    if p.isNew then
      if p.rewinds then
        match proxyNeweventid p firstSave rne input with
        | (true, rne, input) => proxyLoop forceFlag rest false rne input
        | (false, rne, input) =>
          if forceFlag then proxyLoop forceFlag rest firstSave rne input else .failed rne input
      else
        .failed rne input
    else
      proxyLoop forceFlag rest firstSave rne input

/-
  How `readnewevent` ends.  The behaviour is undefined where
  the loop that reads the rest of the text takes the memory of
  one structure for another one.
-/
inductive NewOutcome where
  | returned (created : Bool) (rne : ReadNewEvent)
      (input : Stream Byte)
  | undefined

/-
  The end of `readnewevent`.  When the event has not been
  created, the rest of the text is to be read; the loop gives
  the callback `&se` where it takes `&rne`.
-/
def NewEvent.finish (new : NewEvent) (firstSave created : Bool) (rne : ReadNewEvent)
    (input : Stream Byte) : NewOutcome :=
  if !created && !rne.seeneof then
    .undefined
  else if firstSave && !new.fflush then
    .returned false rne input
  else
    .returned created rne input

/-
  `readnewevent`.  The source does not set `sentprompt` first;
  where it is not zero by chance, no prompt is printed.
-/
def readnewevent (new : NewEvent) (input : Stream Byte) : NewOutcome :=
  if new.connects && new.tmpfile then
    match proxyLoop new.forceFlag new.proxyList true .fresh input with
    | .failed rne input => .returned false rne input
    | .passed firstSave rne input =>
      if new.mkparticipants && new.rewinds then
        let (created, rne, input) :=
          ownNeweventid new.own firstSave rne input
        new.finish firstSave created rne input
      else
        .returned false rne input
  else
    .returned false .fresh input

------------
-- What An Attempt Reads
------------

section Attempts

variable {rne : ReadNewEvent} {input : Stream Byte} {got rest : List Byte}

/- There is nothing to read behind the end of the text. -/
theorem saveevent_hasRead (size : Nat) (hRead : HasRead rne input rest) :
    ∃ next, saveevent size rne input = (some [], next, input) ∧ HasRead next input rest :=
  ⟨{ rne with sentprompt := true }, saveevent_end (readneweventLoop_stop (Or.inl hRead.closed)),
    hRead.closed, hRead.behind⟩

/- A proxy that asks for the text gets all of it. -/
theorem proxyNeweventid_cases (p : ProxyAttempt) {firstSave : Bool}
    (hFirst : firstSave = false → HasRead rne input rest)
    (hStage : Reading rne input got rest ∨ HasRead rne input rest) :
    ∃ next more, proxyNeweventid p firstSave rne input = (p.asks && p.accepts, next, more) ∧
        (p.asks = true → HasRead next more rest) ∧
          (p.asks = false → next = rne ∧ more = input) := by
  have hSize : 0 < bufsiz := by decide
  unfold proxyNeweventid
  cases p.asks with
  | false => exact ⟨rne, input, rfl, nofun, fun _ => ⟨rfl, rfl⟩⟩
  | true =>
    cases firstSave with
    | false => exact ⟨rne, input, rfl, fun _ => hFirst rfl, nofun⟩
    | true =>
      rcases hStage with hReading | hRead
      · rcases saveevent_reading hSize hReading with ⟨next, more, hSave, _, hNext⟩
        rw [if_pos rfl, if_pos rfl, hSave]
        exact ⟨next, more, rfl, fun _ => hNext, nofun⟩
      · rcases saveevent_hasRead bufsiz hRead with ⟨next, hSave, hNext⟩
        rw [if_pos rfl, if_pos rfl, hSave]
        exact ⟨next, input, rfl, fun _ => hNext, nofun⟩

theorem saveeventWrites_hasRead (writes : Nat) (hRead : HasRead rne input rest) :
    ∃ saved next, saveeventWrites writes rne input = (saved, next, input) ∧
        HasRead next input rest := by
  have hStop : readneweventCallback bufsiz rne input =
      (some [], { rne with sentprompt := true }, input) :=
    readneweventLoop_stop (Or.inl hRead.closed)
  refine ⟨true, { rne with sentprompt := true }, ?_, hRead.closed, hRead.behind⟩
  rw [saveeventWrites.eq_def, hStop]

/-
  The own calendar gets the text, unless it cannot write as
  much as is read before the end.
-/
theorem saveeventWrites_reading (writes : Nat) (hReading : Reading rne input got rest) :
    ∃ saved next more, saveeventWrites writes rne input = (saved, next, more) ∧
        (got.length < (writes + 1) * bufsiz →
          HasRead next more rest) ∧
          ((writes + 1) * bufsiz ≤ got.length → saved = false ∧ next.seeneof = false) := by
  have hSize : bufsiz = 8192 := rfl
  induction writes generalizing rne input got with
  | zero =>
    rcases readneweventCallback_reading bufsiz hReading with ⟨next, more, hCall, _, hEnd, hGoes⟩
    rw [saveeventWrites.eq_def, hCall]
    cases hTake : got.take bufsiz with
    | nil =>
      have hNone := eq_nil_of_take_eq_nil (by decide) hTake
      subst got
      exact ⟨true, next, more, rfl, fun _ => hEnd (by decide),
        fun hLong => absurd hLong (by decide)⟩
    | cons b buf =>
      refine ⟨false, next, more, rfl, ?_, ?_⟩
      · intro hShort
        exact hEnd (by omega)
      · intro hLong
        exact ⟨rfl, (hGoes (by omega)).open_⟩
  | succ writes ih =>
    have hRooms : (writes + 1 + 1) * bufsiz = (writes + 1) * bufsiz + bufsiz := Nat.succ_mul _ _
    rcases readneweventCallback_reading bufsiz hReading with ⟨next, more, hCall, _, hEnd, hGoes⟩
    rw [saveeventWrites.eq_def, hCall]
    cases hTake : got.take bufsiz with
    | nil =>
      have hNone := eq_nil_of_take_eq_nil (by decide) hTake
      subst got
      refine ⟨true, next, more, rfl, fun _ => hEnd (by decide), fun hLong => ?_⟩
      rw [List.length_nil] at hLong
      omega
    | cons b buf =>
      by_cases hShort : got.length < bufsiz
      · rcases saveeventWrites_hasRead writes (hEnd hShort) with ⟨saved, last, hSave, hLast⟩
        exact ⟨saved, last, more, hSave, fun _ => hLast, fun hLong => by omega⟩
      · rcases ih (hGoes (by omega)) with ⟨saved, last, final, hSave, hRead, hFull⟩
        rw [List.length_drop] at hRead hFull
        exact ⟨saved, last, final, hSave, fun hLess => hRead (by omega),
          fun hLong => hFull (by omega)⟩

end Attempts

/- A proxy that does not end the command. -/
def ProxyAttempt.Passes (forceFlag : Bool) (p : ProxyAttempt) : Prop :=
  p.isNew = true → p.rewinds = true ∧ (p.asks && p.accepts || forceFlag) = true

/- A proxy that the text is asked for. -/
def ProxyAttempt.Asks (p : ProxyAttempt) : Prop :=
  p.isNew = true ∧ p.asks = true

/-
  What the loop over the proxies leaves of the text: nothing,
  if a proxy asks for it, and all of it otherwise.
-/
inductive LeavesText (forceFlag : Bool) (proxyList : List ProxyAttempt) (rne : ReadNewEvent)
    (input : Stream Byte) (rest : List Byte) :
    ProxyStage → Prop where
  | failed
      (next : ReadNewEvent)
      (more : Stream Byte)
      (hFails : ¬ ∀ p, p ∈ proxyList → p.Passes forceFlag)
      (hLeft : HasRead next more rest ∨ next = rne ∧ more = input) :
      LeavesText forceFlag proxyList rne input rest (.failed next more)
  | passed
      (firstSave : Bool)
      (next : ReadNewEvent)
      (more : Stream Byte)
      (hPasses : ∀ p, p ∈ proxyList → p.Passes forceFlag)
      (hFirst : firstSave = false → HasRead next more rest)
      (hAsked : (∃ p, p ∈ proxyList ∧ p.Asks) → HasRead next more rest)
      (hUnasked : (¬ ∃ p, p ∈ proxyList ∧ p.Asks) → next = rne ∧ more = input) :
      LeavesText forceFlag proxyList rne input rest (.passed firstSave next more)

section Leaves

variable {forceFlag : Bool} {p : ProxyAttempt} {proxyList : List ProxyAttempt}
variable {rne next : ReadNewEvent} {input more : Stream Byte} {rest : List Byte}
variable {stage : ProxyStage}

/- A proxy that nothing is asked of changes nothing. -/
theorem LeavesText.skip (hPasses : p.Passes forceFlag) (hQuiet : ¬ p.Asks)
    (hLeaves : LeavesText forceFlag proxyList rne input rest stage) :
    LeavesText forceFlag (p :: proxyList) rne input rest
      stage := by
  cases hLeaves with
  | failed next more hFails hLeft =>
    refine .failed next more ?_ hLeft
    intro hAll
    exact hFails fun other hMem => hAll other (List.mem_cons_of_mem _ hMem)
  | passed firstSave next more hOthers hFirst hAsked hUnasked =>
    refine .passed firstSave next more ?_ hFirst ?_ ?_
    · intro other hMem
      rcases List.mem_cons.mp hMem with hHere | hMore
      · rw [hHere]
        exact hPasses
      · exact hOthers other hMore
    · rintro ⟨other, hMem, hAsks⟩
      rcases List.mem_cons.mp hMem with hHere | hMore
      · rw [hHere] at hAsks
        exact absurd hAsks hQuiet
      · exact hAsked ⟨other, hMore, hAsks⟩
    · intro hNone
      apply hUnasked
      rintro ⟨other, hMem, hAsks⟩
      exact hNone ⟨other, List.mem_cons_of_mem _ hMem, hAsks⟩

/- Behind a proxy that has got the text. -/
theorem LeavesText.asked (hPasses : p.Passes forceFlag) (hAsks : p.Asks)
    (hRead : HasRead next more rest)
    (hLeaves : LeavesText forceFlag proxyList next more rest stage) :
    LeavesText forceFlag (p :: proxyList) rne input rest
      stage := by
  have hStays : ∀ last final, HasRead last final rest ∨ last = next ∧ final = more →
        HasRead last final rest := by
    rintro last final (hLast | ⟨hSame, hHere⟩)
    · exact hLast
    · rw [hSame, hHere]
      exact hRead
  cases hLeaves with
  | failed last final hFails hLeft =>
    refine .failed last final ?_ (Or.inl (hStays _ _ hLeft))
    intro hAll
    exact hFails fun other hMem => hAll other (List.mem_cons_of_mem _ hMem)
  | passed firstSave last final hOthers hFirst hAsked hUnasked =>
    refine .passed firstSave last final ?_ hFirst ?_ ?_
    · intro other hMem
      rcases List.mem_cons.mp hMem with hHere | hMore
      · rw [hHere]
        exact hPasses
      · exact hOthers other hMore
    · intro _
      apply hStays
      by_cases hMore : ∃ other, other ∈ proxyList ∧ other.Asks
      · exact Or.inl (hAsked hMore)
      · exact Or.inr (hUnasked hMore)
    · intro hNone
      exact absurd ⟨p, List.mem_cons_self, hAsks⟩ hNone

end Leaves

variable {rne : ReadNewEvent} {input : Stream Byte}

theorem proxyLoop_stage (forceFlag : Bool) (proxyList : List ProxyAttempt)
    {firstSave : Bool} {got rest : List Byte}
    (hFirst : firstSave = false → HasRead rne input rest)
    (hStage : Reading rne input got rest ∨ HasRead rne input rest) :
    LeavesText forceFlag proxyList rne input rest
      (proxyLoop forceFlag proxyList firstSave rne input) := by
  induction proxyList generalizing firstSave rne input with
  | nil =>
    exact .passed _ _ _ (List.forall_mem_nil _) hFirst
      (fun hAsked => nomatch hAsked) (fun _ => ⟨rfl, rfl⟩)
  | cons p proxyList ih =>
    rw [proxyLoop]
    by_cases hNew : p.isNew = true
    · rw [if_pos hNew]
      by_cases hRewinds : p.rewinds = true
      · rw [if_pos hRewinds]
        rcases proxyNeweventid_cases p hFirst hStage with ⟨next, more, hRun, hGets, hKeeps⟩
        rw [hRun]
        by_cases hAsks : p.asks = true
        · have hRead := hGets hAsks
          cases hTaken : p.asks && p.accepts with
          | true =>
            have hPasses : p.Passes forceFlag := by
              intro _
              rw [hTaken]
              exact ⟨hRewinds, rfl⟩
            exact (ih (fun _ => hRead) (Or.inr hRead)).asked hPasses ⟨hNew, hAsks⟩ hRead
          | false =>
            cases forceFlag with
            | true =>
              have hPasses : p.Passes true := fun _ => ⟨hRewinds, Bool.or_true _⟩
              exact (ih (fun _ => hRead) (Or.inr hRead)).asked hPasses ⟨hNew, hAsks⟩ hRead
            | false =>
              refine .failed next more ?_ (Or.inl hRead)
              intro hAll
              have hHere := (hAll p List.mem_cons_self hNew).2
              rw [hTaken] at hHere
              cases hHere
        · rw [Bool.not_eq_true] at hAsks
          rcases hKeeps hAsks with ⟨hSame, hHere⟩
          subst next more
          rw [hAsks, Bool.false_and]
          cases forceFlag with
          | true =>
            have hPasses : p.Passes true := fun _ => ⟨hRewinds, Bool.or_true _⟩
            exact (ih hFirst hStage).skip hPasses (fun hBoth => absurd hBoth.2 (by simp [hAsks]))
          | false =>
            refine .failed rne input ?_ (Or.inr ⟨rfl, rfl⟩)
            intro hAll
            have hTaken := (hAll p List.mem_cons_self hNew).2
            rw [hAsks] at hTaken
            cases hTaken
      · rw [if_neg hRewinds]
        refine .failed rne input ?_ (Or.inr ⟨rfl, rfl⟩)
        intro hAll
        exact hRewinds (hAll p List.mem_cons_self hNew).1
    · rw [if_neg hNew]
      have hPasses : p.Passes forceFlag := fun hHere => absurd hHere hNew
      exact (ih hFirst hStage).skip hPasses (fun hAsks => hNew hAsks.1)

------------
-- The Text Is Not Taken For Commands
------------

/-
  Once the prompt has been printed, the text is read up to the
  line that ends it, and `rest` is left.
-/
def NewOutcome.Consumes (rest : List Byte) : NewOutcome → Prop
  | .returned _ rne input => rne.sentprompt = true → input.contents = rest
  | .undefined => False

/-
  The own calendar's turn comes while nobody has asked for
  the text, and fails before the end of the text is read.
-/
structure NewEvent.Unread (new : NewEvent) (text : List Byte) : Prop where
  connects : new.connects = true
  tmpfile : new.tmpfile = true
  passes : ∀ p, p ∈ new.proxyList → p.Passes new.forceFlag
  quiet : ¬ ∃ p, p ∈ new.proxyList ∧ p.Asks
  mkparticipants : new.mkparticipants = true
  rewinds : new.rewinds = true
  fails : new.own.opens = false ∨ (new.own.writes + 1) * bufsiz ≤ text.length

theorem NewOutcome.consumes_returned {next : ReadNewEvent} {input more : Stream Byte}
    {rest : List Byte}
    (hLeft : HasRead next more rest ∨ next = .fresh ∧ more = input) (created : Bool) :
    (NewOutcome.returned created next more).Consumes rest := by
  rcases hLeft with hRead | ⟨hSame, _⟩
  · exact fun _ => hRead.behind
  · rw [hSame]
    exact nofun

/- When the text has been read, nothing goes wrong. -/
theorem NewEvent.finish_hasRead (new : NewEvent) (firstSave created : Bool)
    {rest : List Byte} (hRead : HasRead rne input rest) :
    (new.finish firstSave created rne input).Consumes rest := by
  unfold finish
  rw [hRead.closed, Bool.not_true, Bool.and_false, if_neg Bool.false_ne_true]
  split
  · exact fun _ => hRead.behind
  · exact fun _ => hRead.behind

theorem ownNeweventid_hasRead (own : OwnAttempt) (firstSave : Bool) {rest : List Byte}
    (hRead : HasRead rne input rest) :
    ∃ created next more, ownNeweventid own firstSave rne input = (created, next, more) ∧
        HasRead next more rest := by
  unfold ownNeweventid
  split
  · split
    · rcases saveeventWrites_hasRead own.writes hRead with ⟨saved, next, hSave, hNext⟩
      rw [hSave]
      exact ⟨_, next, input, rfl, hNext⟩
    · exact ⟨_, rne, input, rfl, hRead⟩
  · exact ⟨_, rne, input, rfl, hRead⟩

/- The own calendar's turn, when nobody has read the text. -/
theorem finish_ownNeweventid (new : NewEvent) {text rest : List Byte}
    (hReading : Reading .fresh input text rest) :
    (match ownNeweventid new.own true .fresh input with
      | (created, rne, input) =>
        new.finish true created rne input).Consumes rest ↔
      ¬ (new.own.opens = false ∨ (new.own.writes + 1) * bufsiz ≤ text.length) := by
  unfold ownNeweventid
  cases new.own.opens with
  | false =>
    rw [if_neg Bool.false_ne_true]
    constructor
    · exact False.elim
    · intro hNot
      exact absurd (Or.inl rfl) hNot
  | true =>
    rw [if_pos rfl, if_pos rfl]
    rcases saveeventWrites_reading new.own.writes hReading with
      ⟨saved, next, more, hSave, hShort, hLong⟩
    rw [hSave]
    dsimp only
    by_cases hFull : (new.own.writes + 1) * bufsiz ≤ text.length
    · rcases hLong hFull with ⟨hSaved, hOpen⟩
      rw [hSaved]
      unfold NewEvent.finish
      rw [hOpen]
      constructor
      · exact False.elim
      · intro hNot
        exact absurd (Or.inr hFull) hNot
    · constructor
      · rintro _ (hClosed | hBoth)
        · cases hClosed
        · exact hFull hBoth
      · intro _
        exact new.finish_hasRead _ _ (hShort (Nat.lt_of_not_le hFull))

/- Exactly then the text may be taken for commands. -/
theorem readnewevent_consumes_iff (new : NewEvent) {input : Stream Byte}
    {text rest : List Byte} (hText : undot .start input.contents = some (text, rest)) :
    (readnewevent new input).Consumes rest ↔ ¬ new.Unread text := by
  have hReading : Reading .fresh input text rest := ⟨rfl, hText⟩
  have hLeaves : LeavesText new.forceFlag new.proxyList .fresh
      input rest (proxyLoop new.forceFlag new.proxyList true .fresh input) :=
    proxyLoop_stage _ _ nofun (Or.inl hReading)
  unfold readnewevent
  by_cases hStart : (new.connects && new.tmpfile) = true
  · rw [if_pos hStart]
    rw [Bool.and_eq_true] at hStart
    generalize proxyLoop new.forceFlag new.proxyList true .fresh input = stage at hLeaves
    cases hLeaves with
    | failed next more hFails hLeft =>
      constructor
      · intro _ hUnread
        exact hFails hUnread.passes
      · intro _
        exact NewOutcome.consumes_returned hLeft false
    | passed firstSave next more hPasses hFirst hAsked hUnasked =>
      dsimp only
      have hLeft : HasRead next more rest ∨ next = .fresh ∧ more = input := by
        by_cases hAny : ∃ p, p ∈ new.proxyList ∧ p.Asks
        · exact Or.inl (hAsked hAny)
        · exact Or.inr (hUnasked hAny)
      by_cases hMiddle : (new.mkparticipants && new.rewinds) = true
      · rw [if_pos hMiddle]
        rw [Bool.and_eq_true] at hMiddle
        by_cases hAny : ∃ p, p ∈ new.proxyList ∧ p.Asks
        · rcases ownNeweventid_hasRead new.own firstSave (hAsked hAny) with
            ⟨created, last, final, hRun, hRead⟩
          rw [hRun]
          constructor
          · intro _ hUnread
            exact hUnread.quiet hAny
          · intro _
            exact new.finish_hasRead _ _ hRead
        · rcases hUnasked hAny with ⟨hSame, hHere⟩
          subst next more
          have hSave : firstSave = true := by
            cases firstSave with
            | true => rfl
            | false => cases (hFirst rfl).closed
          subst firstSave
          rw [finish_ownNeweventid new hReading]
          constructor
          · intro hNot hUnread
            exact hNot hUnread.fails
          · intro hNot hFails
            exact hNot ⟨hStart.1, hStart.2, hPasses, hAny, hMiddle.1, hMiddle.2, hFails⟩
      · rw [if_neg hMiddle]
        constructor
        · intro _ hUnread
          rw [hUnread.mkparticipants, hUnread.rewinds] at hMiddle
          exact hMiddle rfl
        · intro _
          exact NewOutcome.consumes_returned hLeft false
  · rw [if_neg hStart]
    constructor
    · intro _ hUnread
      rw [hUnread.connects, hUnread.tmpfile] at hStart
      exact hStart rfl
    · intro _ hPrompt
      cases hPrompt

/- A `NEW` command without proxies. -/
def ownCalendar (own : OwnAttempt) : NewEvent where
  forceFlag := false
  connects := true
  tmpfile := true
  proxyList := []
  mkparticipants := true
  rewinds := true
  own := own
  fflush := true

/- A text of one line, and a command behind it. -/
def shortUpload : Stream Byte where
  held := []
  coming := [bytes "x\n.\nQUIT\n"]
  ready := by
    decide

theorem readnewevent_own : (readnewevent (ownCalendar ⟨true, 1, true⟩)
      shortUpload).Consumes (bytes "QUIT\n") :=
  (readnewevent_consumes_iff (ownCalendar ⟨true, 1, true⟩)
    (show undot .start shortUpload.contents = some (bytes "x\n", bytes "QUIT\n") by decide)).mpr
    (fun hUnread => absurd hUnread.fails (by decide))

/- A text as it arrives, and a command behind it. -/
def upload (text : List Byte) : Stream Byte where
  held := []
  coming := [stuff true text ++ bytes "QUIT\n"]
  ready := by
    intro piece hMem
    rw [List.mem_singleton.mp hMem]
    exact List.append_ne_nil_of_right_ne_nil _ (by decide)

theorem reading_upload {text : List Byte} (hCr : cr ∉ text) :
    Reading .fresh (upload text) (plain true text) (bytes "QUIT\n") := by
  have hContents : (upload text).contents = stuff true text ++ bytes "QUIT\n" := List.append_nil _
  refine ⟨rfl, ?_⟩
  rw [hContents]
  exact (undot_stuff_iff text _).mpr (hiddenDot_agree hCr true)

theorem length_le_plain {text : List Byte} (hCr : cr ∉ text) (written : Bool) :
    text.length ≤ (plain written text).length := by
  induction text generalizing written with
  | nil => exact Nat.zero_le _
  | cons c rest ih =>
    rw [List.mem_cons, not_or] at hCr
    rw [plain_cons, if_neg (Ne.symm hCr.1)]
    exact Nat.succ_le_succ (ih hCr.2 _)

/- A full disk, and a text that fills a buffer. -/
theorem readnewevent_full {text : List Byte} (hCr : cr ∉ text) (hLong : bufsiz ≤ text.length) :
    (ownNeweventid ⟨true, 0, true⟩ true .fresh (upload text)).2.1.sentprompt = true ∧
      readnewevent (ownCalendar ⟨true, 0, true⟩) (upload text) = .undefined := by
  have hPlain := length_le_plain hCr true
  have hPrompt := readneweventLoop_sentprompt bufsiz
    { ReadNewEvent.fresh with sentprompt := true } (upload text)
  rcases readneweventCallback_reading bufsiz (reading_upload hCr) with
    ⟨next, more, hCall, _, _, hGoes⟩
  have hOpen : next.seeneof = false := (hGoes (hLong.trans hPlain)).open_
  have hSome : (plain true text).take bufsiz ≠ [] := by
    intro hNone
    rw [eq_nil_of_take_eq_nil (by decide) hNone] at hPlain
    exact absurd (hLong.trans hPlain) (by decide)
  have hOwn : ownNeweventid ⟨true, 0, true⟩ true .fresh (upload text) = (false, next, more) := by
    unfold ownNeweventid
    rw [if_pos rfl, if_pos rfl, saveeventWrites.eq_def, hCall]
    cases hTake : (plain true text).take bufsiz with
    | nil => exact absurd hTake hSome
    | cons b buf => rfl
  have hNext : next.sentprompt = true := by
    unfold readneweventCallback at hCall
    rw [hCall] at hPrompt
    exact hPrompt
  constructor
  · rw [hOwn]
    exact hNext
  · unfold readnewevent ownCalendar
    dsimp only [proxyLoop, Bool.and_self, if_true]
    rw [hOwn]
    unfold NewEvent.finish
    rw [hOpen]
    rfl

/-
  The prompt has been printed, and what the rest of the text
  is taken for is not defined.
-/
theorem readnewevent_fullDisk : (ownNeweventid ⟨true, 0, true⟩ true .fresh
          (upload (List.replicate bufsiz (chr 'a')))).2.1.sentprompt =
        true ∧
      readnewevent (ownCalendar ⟨true, 0, true⟩) (upload (List.replicate bufsiz (chr 'a'))) =
        .undefined := by
  apply readnewevent_full
  · intro hMem
    exact absurd (List.eq_of_mem_replicate hMem) (by decide)
  · rw [List.length_replicate]

end Wmail.Pcp
