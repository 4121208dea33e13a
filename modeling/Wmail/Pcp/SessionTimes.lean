import Wmail.Pcp.SessionSteps

/-
  The times that a session commits are those that were booked.

  Key theorems include:
    * `Does.keeps`
    * `mainloop_commit`
-/

namespace Wmail.Pcp

/- The times of a booking, and whether it was accepted. -/
abbrev Booking :=
  Option (List EventTime) × Bool

def Call.booking (c : Call) : Option Booking :=
  match c.act with
  | .book _ f done => some (f.eventTimes, done)
  | _ => none

/- A new event is asked for in the own calendar. -/
def Call.creates (c : Call) : Bool :=
  match c.calendar, c.act with
  | .own, .newEventid _ _ => true
  | _, _ => false

/- The bookings after the calls of one more command. -/
def nextBook (last : List Booking) (calls : List Call) : List Booking :=
  if calls.filterMap Call.booking ≠ [] then
    calls.filterMap Call.booking
  else if calls.any Call.creates then
    []
  else
    last

/-
  The bookings of the last command that made some, if it came
  behind the last command that created an event.
-/
def lastBook (log : List (List Call)) : List Booking :=
  log.foldl nextBook []

/- Every booking was of these times, and was accepted. -/
def AllBooked (times : List EventTime) (bookings : List Booking) : Prop :=
  bookings ≠ [] ∧ ∀ b, b ∈ bookings → b = (some times, true)

/- A call that neither books nor creates an event. -/
def Call.Quiet (c : Call) : Prop :=
  c.booking = none ∧ c.creates = false

theorem lastBook_append (log : List (List Call)) (calls : List Call) :
    lastBook (log ++ [calls]) = nextBook (lastBook log) calls := by
  unfold lastBook
  rw [List.foldl_append, List.foldl_cons, List.foldl_nil]

/- A command without such calls changes nothing. -/
theorem nextBook_quiet {last : List Booking} {calls : List Call}
    (hQuiet : ∀ c, c ∈ calls → c.Quiet) : nextBook last calls = last := by
  have hNone : calls.filterMap Call.booking = [] := by
    rw [List.filterMap_eq_nil_iff]
    intro c hCall
    exact (hQuiet c hCall).1
  have hAny : ¬ calls.any Call.creates = true := by
    rw [List.any_eq_true]
    intro hCreates
    rcases hCreates with ⟨c, hCall, hTrue⟩
    exact absurd ((hQuiet c hCall).2.symm.trans hTrue) Bool.false_ne_true
  unfold nextBook
  rw [if_neg (not_not.mpr hNone), if_neg hAny]

theorem Call.Commits.quiet {c : Call} {srv : Server} {s : Session}
    (hCommits : c.Commits srv s) : c.Quiet := by
  have hAct : ∀ act, c.act = act → (∀ e f done, act ≠ .book e f done) →
      (∀ old made, act ≠ .newEventid old made) →
      c.Quiet := by
    intro act hEq hBook hNew
    unfold Call.Quiet Call.booking Call.creates
    rw [hEq]
    cases act with
    | book e f done => exact absurd rfl (hBook e f done)
    | newEventid old made => exact absurd rfl (hNew old made)
    | _ => simp
  rcases hCommits with ⟨e, hEq⟩ | ⟨id, hEq⟩ | hCommit
  · exact hAct _ hEq (by simp) (by simp)
  · exact hAct _ hEq (by simp) (by simp)
  · rcases hCommit with ⟨e, f, done, hEq, _⟩
    exact hAct _ hEq (by simp) (by simp)

------------
-- The Invariant
------------

/- The times that `new_commit` points to. -/
def Session.times (s : Session) : Option (List EventTime) :=
  s.heap.read s.newCommit.eventTimes s.newCommit.nEventTimes

/-
  `new_commit` and `new_commit_times` are the same pointer.
  Its block is not freed, and holds what was booked unless
  `notbooked` is set.
-/
structure Booked (log : List (List Call)) (s : Session) : Prop where
  same : s.newCommit.eventTimes = s.newCommitTimes
  live : s.newCommitTimes ≠ none → s.times ≠ none
  last : ∀ times, s.newEventid ≠ none → s.notbooked = false → s.times = some times →
      AllBooked times (lastBook log)

section Booked

variable {srv : Server} {ans : Answers} {flags : UInt32} {log log' : List (List Call)}
variable {s : Session}

theorem Booked.start : Booked log Session.start where
  same := rfl
  live := fun hSome => absurd rfl hSome
  last := fun _ hNew => absurd rfl hNew

/- After a reset nothing is booked. -/
theorem Booked.rset : Booked log (rset s).2 where
  same := rfl
  live := fun hSome => absurd rfl hSome
  last := fun _ hNew => absurd rfl hNew

/- The variables of a booking are left alone. -/
theorem Booked.quiet (hBooked : Booked log s) {calls : List Call}
    (hQuiet : ∀ c, c ∈ calls → c.Quiet) (deleted : Option (List Byte))
    (conflict force : Bool) (okFlags : UInt32) (proxyList : List Proxy) :
    Booked (log ++ [calls])
      { s with
        deletedEventid := deleted
        conflictFlag := conflict
        forceFlag := force
        newCommit := { s.newCommit with flags := okFlags }
        proxyList := proxyList } where
  same := hBooked.same
  live := hBooked.live
  last := by
    rw [lastBook_append, nextBook_quiet hQuiet]
    exact hBooked.last

/- Without a booked event the log does not matter. -/
theorem Booked.unbooked (hBooked : Booked log s) {newEventid deleted : Option (List Byte)}
    {notbooked : Bool} (hNone : newEventid ≠ none → notbooked = true) (proxyList : List Proxy) :
    Booked log'
      { s with
        deletedEventid := deleted
        newEventid := newEventid
        notbooked := notbooked
        proxyList := proxyList } where
  same := hBooked.same
  live := hBooked.live
  last := by
    intro times hNew hOff
    exact absurd (hOff.symm.trans (hNone hNew)) Bool.false_ne_true

/- A single call that neither books nor creates. -/
theorem Booked.single (hBooked : Booked log s) {act : Act}
    (hBook : Call.booking ⟨.own, act⟩ = none)
    (hCreates : Call.creates ⟨.own, act⟩ = false) : Booked (log ++ [[⟨.own, act⟩]]) s := by
  have hQuiet : ∀ c, c ∈ [Call.mk .own act] → c.Quiet := by
    intro c hCall
    rw [List.mem_singleton.mp hCall]
    exact ⟨hBook, hCreates⟩
  exact hBooked.quiet hQuiet s.deletedEventid s.conflictFlag
    s.forceFlag s.newCommit.flags s.proxyList

/- A line without a call. -/
theorem Booked.none (hBooked : Booked log s) (conflict force : Bool) :
    Booked (log ++ [[]]) { s with conflictFlag := conflict, forceFlag := force } :=
  hBooked.quiet (fun _ hCall => absurd hCall List.not_mem_nil)
    s.deletedEventid conflict force s.newCommit.flags
    s.proxyList

/- The bookings of one `BOOK` are all of its times. -/
theorem bookings_times {f f' : Commit} {e : List Byte} {proxyList : List Proxy}
    {times : List EventTime} (hProxy : f.eventTimes = some times)
    (hOwn : f'.eventTimes = some times) {b : Booking}
    (hMem : b ∈ (bookProxies ans f proxyList ++
      [Call.mk .own
        (.book (some e) f' (ans.book .own))]).filterMap Call.booking) : b.1 = some times := by
  rcases List.mem_filterMap.mp hMem with ⟨c, hCall, hBook⟩
  rcases List.mem_append.mp hCall with hProxies | hLast
  · unfold bookProxies at hProxies
    rcases List.mem_map.mp hProxies with ⟨pr, _, hEq⟩
    subst hEq
    cases Option.some.inj hBook
    exact hProxy
  · rw [List.mem_singleton.mp hLast] at hBook
    cases Option.some.inj hBook
    exact hOwn

/- Accepted calls are accepted bookings. -/
theorem bookings_accepted {calls : List Call} (hAll : calls.all Call.booked = true)
    {b : Booking} (hMem : b ∈ calls.filterMap Call.booking) : b.2 = true := by
  rcases List.mem_filterMap.mp hMem with ⟨c, hCall, hBook⟩
  have hDone := List.all_eq_true.mp hAll c hCall
  unfold Call.booking at hBook
  unfold Call.booked at hDone
  split at hBook
  · rename_i hAct
    rw [hAct] at hDone
    cases Option.some.inj hBook
    exact hDone
  · simp at hBook

/- The block of the former times is an older one. -/
theorem Booked.ne_fresh (hBooked : Booked log s) {p : Nat}
    (hTimes : s.newCommitTimes = some p) : p ≠ s.heap.fresh := by
  have hSome : s.times ≠ Option.none := by
    apply hBooked.live
    rw [hTimes]
    exact Option.some_ne_none p
  rcases Option.ne_none_iff_exists'.mp hSome with ⟨ts, hRead⟩
  unfold Session.times at hRead
  rw [hBooked.same, hTimes] at hRead
  exact Nat.ne_of_lt (Blocks.lt_of_read hRead)

/- Freeing the former times keeps the new ones. -/
theorem Booked.read_new (hBooked : Booked log s) (times : List EventTime) :
    Blocks.read (match s.newCommitTimes with
      | Option.none => s.heap.alloc times
      | some p => (s.heap.alloc times).free p)
      (some s.heap.fresh) times.length = some times := by
  cases hTimes : s.newCommitTimes with
  | none => exact Blocks.read_alloc times
  | some p =>
    dsimp only
    rw [Blocks.read_free_of_ne (hBooked.ne_fresh hTimes)]
    exact Blocks.read_alloc times

/- Freeing the new times keeps the former ones. -/
theorem Booked.read_old (hBooked : Booked log s) (hSome : s.newCommitTimes ≠ Option.none)
    (times : List EventTime) :
    ((s.heap.alloc times).free s.heap.fresh).read
      s.newCommit.eventTimes s.newCommit.nEventTimes ≠ Option.none := by
  rcases Option.ne_none_iff_exists'.mp hSome with ⟨p, hTimes⟩
  rcases Option.ne_none_iff_exists'.mp (hBooked.live hSome) with ⟨ts, hRead⟩
  unfold Session.times at hRead
  rw [hBooked.same, hTimes] at hRead ⊢
  rw [Blocks.read_free_of_ne (hBooked.ne_fresh hTimes).symm, Blocks.read_alloc_of_some hRead]
  exact Option.some_ne_none ts

/-
  `BOOK` keeps the invariant: its times take the place of the
  former ones, or are freed again.
-/
theorem dobook_booked (srv : Server) (ans : Answers) (e : List Byte)
    (args : List (List Byte)) (hBooked : Booked log s) :
    Booked (log ++ [(dobook srv ans e args s).1]) (dobook srv ans e args s).2 := by
  unfold dobook
  split
  · exact hBooked.none s.conflictFlag s.forceFlag
  · exact hBooked.none s.conflictFlag s.forceFlag
  · rename_i t more _
    have hAlloc := @Blocks.read_alloc _ s.heap (t :: more)
    dsimp only
    split
    · rename_i hAll
      have hNew := hBooked.read_new (t :: more)
      constructor
      · rfl
      · intro _ hNone
        exact Option.some_ne_none _ (hNew.symm.trans hNone)
      · intro times _ _ hTimes
        have hEq : times = t :: more := Option.some.inj (hTimes.symm.trans hNew)
        rw [hEq, lastBook_append]
        unfold nextBook
        rw [if_pos]
        · constructor
          · simp [Call.booking]
          · intro b hMem
            exact Prod.ext (bookings_times hAlloc hAlloc hMem) (bookings_accepted hAll hMem)
        · simp [Call.booking]
    · constructor
      · exact hBooked.same
      · intro hSome
        exact hBooked.read_old hSome (t :: more)
      · intro times _ hOff
        exact absurd hOff.symm Bool.false_ne_true

/- One line keeps the invariant. -/
theorem Does.keeps {result : List Call × Next} (hDoes : Does srv ans flags s result)
    (hBooked : Booked log s) {s' : Session} (hNext : result.2.session = some s') :
    Booked (log ++ [result.1]) s' := by
  cases hDoes with
  | crashed => simp [Next.session] at hNext
  | quit =>
    cases Option.some.inj hNext
    exact hBooked.none s.conflictFlag s.forceFlag
  | replied conflict force hConflict =>
    cases Option.some.inj hNext
    exact hBooked.none conflict force
  | listed range hList =>
    cases Option.some.inj hNext
    exact hBooked.single rfl rfl
  | retrieved r hRetr =>
    cases Option.some.inj hNext
    exact hBooked.single rfl rfl
  | accessed act hOwn hAct =>
    cases Option.some.inj hNext
    rcases hAct with hList | ⟨who, aclFlags, hSet⟩
    · subst hList
      exact hBooked.single rfl rfl
    · subst hSet
      exact hBooked.single rfl rfl
  | reset conflict force pending hConflict =>
    cases Option.some.inj hNext
    exact Booked.rset
  | deleted e hModify hNew =>
    rcases (deleteEvent_spec srv ans e s).2 with hCrash | ⟨proxyList, hEq⟩
    · rw [hCrash] at hNext
      simp [Next.session] at hNext
    · rw [hEq] at hNext
      cases Option.some.inj hNext
      exact hBooked.unbooked (fun hSome => absurd hNew hSome) proxyList
  | created names hModify hNew =>
    rcases (readNew_spec srv ans names hNew).2 with hCrash | ⟨proxyList, ne, notbooked, hEq, hNone⟩
    · rw [hCrash] at hNext
      simp [Next.session] at hNext
    · rw [hEq] at hNext
      cases Option.some.inj hNext
      exact hBooked.unbooked hNone proxyList
  | booked e args hNew =>
    cases Option.some.inj hNext
    exact dobook_booked srv ans e args hBooked
  | committed =>
    rcases commit_spec srv ans s with hNone | hSome
    · rw [hNone] at hNext ⊢
      cases Option.some.inj hNext
      exact hBooked.none s.conflictFlag s.forceFlag
    · rcases hSome.2.2 with ⟨okFlags, proxyList, hEq⟩
      cases Option.some.inj hNext
      rcases hEq with hTouched | hReset
      · rw [hTouched]
        exact hBooked.quiet (fun c hCall => (hSome.2.1 c hCall).quiet)
          s.deletedEventid s.conflictFlag s.forceFlag okFlags
          proxyList
      · rw [hReset]
        exact Booked.rset
  | cancelled act hModify hAct =>
    cases Option.some.inj hNext
    rcases hAct with ⟨id, hCancel | hUncancel⟩
    · subst hCancel
      exact hBooked.single rfl rfl
    · subst hUncancel
      exact hBooked.single rfl rfl

end Booked

/-
  What a command commits was booked, and can be read.
-/
def CommitsBooked (log : List (List Call)) (calls : List Call) : Prop :=
  ∀ c, c ∈ calls → ∀ e f done, c.act = .commit e f done →
    ∃ times, f.eventTimes = some times ∧ AllBooked times (lastBook log)

section Commitments

variable {srv : Server} {ans : Answers} {flags : UInt32} {log : List (List Call)} {s : Session}

theorem Call.Makes.ne_commit {c : Call} (hMakes : c.Makes) {e : Option (List Byte)}
    {f : Commit} {done : Bool} : c.act ≠ .commit e f done := by
  rcases hMakes with ⟨old, made, hAct⟩ | ⟨id, hAct⟩
  · simp [hAct]
  · simp [hAct]

theorem rset_commits : CommitsBooked log (rset s).1 := by
  intro c hCall e f done hAct
  exact absurd hAct (Call.Makes.ne_commit (Or.inr (rset_destroys hCall)))

theorem CommitsBooked.none : CommitsBooked log [] := by
  intro c hCall
  exact absurd hCall List.not_mem_nil

theorem CommitsBooked.single {c : Call} (hNe : ∀ e f done, c.act ≠ .commit e f done) :
    CommitsBooked log [c] := by
  intro d hCall e f done hAct
  rw [List.mem_singleton.mp hCall] at hAct
  exact absurd hAct (hNe e f done)

/- What the invariant says about `COMMIT`. -/
theorem commit_booked (hBooked : Booked log s) : CommitsBooked log (commit srv ans s).1 := by
  rcases commit_spec srv ans s with hNone | hSome
  · rw [hNone]
    exact CommitsBooked.none
  · intro c hCall e f done hAct
    rcases hSome.2.1 c hCall with ⟨_, hEq⟩ | ⟨_, hEq⟩ | hCommit
    · simp [hEq] at hAct
    · simp [hEq] at hAct
    · rcases hCommit with ⟨e', f', done', hEq, _, hTimes, hOff, hNew, hPtr⟩
      cases hEq.symm.trans hAct
      rcases Option.ne_none_iff_exists'.mp (hBooked.live hPtr) with ⟨times, hRead⟩
      exact ⟨times, hTimes.trans hRead, hBooked.last times hNew hOff hRead⟩

/- One line commits what was booked. -/
theorem Does.commits {result : List Call × Next} (hDoes : Does srv ans flags s result)
    (hBooked : Booked log s) : CommitsBooked log result.1 := by
  cases hDoes with
  | crashed => exact CommitsBooked.none
  | quit => exact CommitsBooked.none
  | replied conflict force hConflict => exact CommitsBooked.none
  | listed range hList => exact CommitsBooked.single (by simp)
  | retrieved r hRetr => exact CommitsBooked.single (by simp)
  | accessed act hOwn hAct =>
    apply CommitsBooked.single
    rcases hAct with hList | ⟨who, aclFlags, hSet⟩
    · simp [hList]
    · simp [hSet]
  | reset conflict force pending hConflict => exact rset_commits
  | deleted e hModify hNew =>
    intro c hCall e' f done hAct
    rcases (deleteEvent_spec srv ans e s).1 c hCall with hMakes | hRetr
    · exact absurd hAct hMakes.ne_commit
    · simp [hRetr] at hAct
  | created names hModify hNew =>
    intro c hCall e f done hAct
    have hMakes := (readNew_spec srv ans names hNew).1 c hCall
    exact absurd hAct hMakes.ne_commit
  | booked e args hNew =>
    intro c hCall e' f done hAct
    rcases dobook_books hCall with ⟨_, _, _, hEq, _⟩
    simp [hEq] at hAct
  | committed => exact commit_booked hBooked
  | cancelled act hModify hAct =>
    apply CommitsBooked.single
    rcases hAct with ⟨id, hCancel | hUncancel⟩
    · simp [hCancel]
    · simp [hUncancel]

theorem CommitsBooked.append {calls more : List Call} (hCalls : CommitsBooked log calls)
    (hMore : CommitsBooked log more) : CommitsBooked log (calls ++ more) := by
  intro c hCall
  rcases List.mem_append.mp hCall with hFirst | hRest
  · exact hCalls c hFirst
  · exact hMore c hRest

theorem turn_commits (hBooked : Booked log s) (input : Input) :
    CommitsBooked log (turn srv flags s input).1 := by
  unfold turn
  cases input with
  | hangup => exact rset_commits
  | line text ans =>
    have hDoes : Does srv ans flags s (doline srv ans flags (lineWords text) s) :=
      doline_does (lineWords text)
    have hCommits := hDoes.commits hBooked
    dsimp only
    generalize doline srv ans flags (lineWords text) s = result at hCommits
    rcases result with ⟨calls, next⟩
    cases next with
    | goesOn s' => exact hCommits
    | quits last => exact hCommits.append rset_commits
    | crashes => exact hCommits

theorem turn_booked (hBooked : Booked log s) (input : Input) {next : Session}
    (hNext : (turn srv flags s input).2 = some next) :
    Booked (log ++ [(turn srv flags s input).1]) next := by
  unfold turn at hNext ⊢
  cases input with
  | hangup => simp at hNext
  | line text ans =>
    have hDoes : Does srv ans flags s (doline srv ans flags (lineWords text) s) :=
      doline_does (lineWords text)
    dsimp only at hNext ⊢
    generalize doline srv ans flags (lineWords text) s = result at hNext hDoes
    rcases result with ⟨calls, after⟩
    cases after with
    | goesOn s' => exact hDoes.keeps hBooked hNext
    | quits last => simp at hNext
    | crashes => simp at hNext

end Commitments

/-
  Whenever a session commits a new event, its times can be
  read, and they are those of the last bookings that were made
  since the event was created, all of them accepted.
-/
theorem mainloop_commit (srv : Server) (lines : List (List Byte × Answers))
    {before after : List (List Call)} {calls : List Call}
    (hLog : mainloop srv lines = before ++ calls :: after) {c : Call} (hCall : c ∈ calls)
    {e : Option (List Byte)} {f : Commit} {done : Bool} (hCommit : c.act = .commit e f done) :
    ∃ times, f.eventTimes = some times ∧ AllBooked times (lastBook before) := by
  have hCommits := outputs_forall Booked CommitsBooked
    (fun _ _ input hBooked => turn_commits hBooked input)
    (fun _ _ input _ hBooked hNext => turn_booked hBooked input hNext)
    _ [] Booked.start hLog
  rw [List.nil_append] at hCommits
  exact hCommits c hCall e f done hCommit

/- The owner of a calendar. -/
def owner : Server where
  proxyUserid := none
  hasAcl := true
  acl := none
  publicAcl := none
  myhostname := none
  gmtime := fun _ => 1

def bookedSession : List (List Byte × Answers) :=
  [(bytes "NEW", Answers.accepting),
    (bytes "BOOK 20010101000000-20010101010000", Answers.accepting),
    (bytes "COMMIT", Answers.accepting)]

/- The calls of this session that come before `COMMIT`. -/
def bookedLog : List (List Call) :=
  [[⟨.own, .newEventid none (some (bytes "1"))⟩],
    [⟨.own, .book (some (bytes "1")) ⟨0, some [⟨1, 1⟩]⟩ true⟩]]

theorem mainloop_commit_booked : ∃ times, some [⟨1, 1⟩] = some times ∧
      AllBooked times (lastBook bookedLog) :=
  @mainloop_commit owner bookedSession bookedLog [[]]
    [⟨.own, .commit (some (bytes "1"))
        ⟨0, some [⟨1, 1⟩]⟩ true⟩,
      ⟨.own, .destroyEventid (bytes "1")⟩]
    (by decide) _ List.mem_cons_self _ _ _ rfl

end Wmail.Pcp
