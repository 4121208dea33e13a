import Wmail.Pcp.Session

/-
  What one line of a session can do: the calls it makes and
  the session it leaves.

  Key theorems include:
    * `deleteEvent_spec`
    * `commit_spec`
-/

------------
-- What A Line Does
------------

namespace Wmail.Pcp

open Maildir (caseEqual)

/- The flags of a client hold a right. -/
def Grants (flags bit : UInt32) : Prop :=
  flags &&& bit ≠ 0

instance (flags bit : UInt32) : Decidable (Grants flags bit) := by
  unfold Grants
  infer_instance

theorem grants_of_checkAcl {flags bit : UInt32} (hCheck : ¬ checkAcl flags bit = true) :
    Grants flags bit := by
  unfold checkAcl at hCheck
  unfold Grants
  simpa using hCheck

/- The session that is left, unless there is none. -/
def Next.session : Next → Option Session
  | .goesOn s => some s
  | .quits s => some s
  | .crashes => none

/- Everything that one line may do. -/
inductive Does (srv : Server) (ans : Answers) (aclFlags : UInt32) (s : Session) :
    List Call × Next → Prop where
  | crashed : Does srv ans aclFlags s ([], .crashes)
  | quit : Does srv ans aclFlags s ([], .quits s)
  | replied
      (conflict force : Bool)
      (hConflict : conflict = true → s.conflictFlag = true ∨ Grants aclFlags pcpAclConflict) :
      Does srv ans aclFlags s ([], .goesOn { s with conflictFlag := conflict, forceFlag := force })
  | listed
      (range : Int × Int)
      (hList : Grants aclFlags pcpAclList) :
      Does srv ans aclFlags s ([⟨.own, .listAll range.1 range.2⟩], .goesOn s)
  | retrieved
      (r : Retr)
      (hRetr : Grants aclFlags pcpAclRetr) :
      Does srv ans aclFlags s ([⟨.own, .retr r⟩], .goesOn s)
  | accessed
      (act : Act)
      (hOwn : srv.proxyUserid = none)
      (hAct : act = .listAcl ∨ ∃ who flags, act = .setAcl who flags) :
      Does srv ans aclFlags s ([⟨.own, act⟩], .goesOn s)
  | reset
      (conflict force pending : Bool)
      (hConflict : conflict = false) :
      Does srv ans aclFlags s ((rset
            { s with
              conflictFlag := conflict
              forceFlag := force
              needRset := pending }).1,
          .goesOn (rset
              { s with
                conflictFlag := conflict
                forceFlag := force
                needRset := pending }).2)
  | deleted
      (e : List Byte)
      (hModify : Grants aclFlags pcpAclModify)
      (hNew : s.newEventid = none) :
      Does srv ans aclFlags s (deleteEvent srv ans e s)
  | created
      (names : List (List Byte))
      (hModify : Grants aclFlags pcpAclModify)
      (hNew : s.newEventid = none) :
      Does srv ans aclFlags s (readNew srv ans names s)
  | booked
      (e : List Byte)
      (args : List (List Byte))
      (hNew : s.newEventid = some e) :
      Does srv ans aclFlags s ((dobook srv ans e args s).1, .goesOn (dobook srv ans e args s).2)
  | committed : Does srv ans aclFlags s ((commit srv ans s).1, .goesOn (commit srv ans s).2)
  | cancelled
      (act : Act)
      (hModify : Grants aclFlags pcpAclModify)
      (hAct : ∃ id, act = .cancel id ∨ act = .uncancel id s.okFlags) :
      Does srv ans aclFlags s ([⟨.own, act⟩], .goesOn s)

section Doline

variable {srv : Server} {ans : Answers} {aclFlags : UInt32} {s : Session}

theorem Does.idle : Does srv ans aclFlags s (idle s) :=
  Does.replied s.conflictFlag s.forceFlag Or.inl

/- An argument that may be missing, behind a right. -/
theorem Does.cancel (hModify : Grants aclFlags pcpAclModify) (act : List Byte → Act)
    (hAct : ∀ id, act id = .cancel id ∨ act id = .uncancel id s.okFlags) (args : List (List Byte)) :
    Does srv ans aclFlags s (args.head?.toList.map (fun q => ⟨.own, act q⟩), .goesOn s) := by
  cases args with
  | nil => exact Does.idle
  | cons q rest => exact Does.cancelled (act q) hModify ⟨q, hAct q⟩

/- Either branch of a test. -/
theorem Does.ite {c : Prop} [Decidable c] {first second : List Call × Next}
    (hFirst : c → Does srv ans aclFlags s first)
    (hSecond : ¬ c → Does srv ans aclFlags s second) :
    Does srv ans aclFlags s (if c then first else second) := by
  by_cases hTest : c
  · rw [if_pos hTest]
    exact hFirst hTest
  · rw [if_neg hTest]
    exact hSecond hTest

/- A command that needs a right. -/
theorem Does.checked {bit : UInt32} {step : List Call × Next}
    (hStep : Grants aclFlags bit → Does srv ans aclFlags s step) :
    Does srv ans aclFlags s (if checkAcl aclFlags bit then Pcp.idle s else step) :=
  Does.ite (fun _ => Does.idle) fun hCheck => hStep (grants_of_checkAcl hCheck)

theorem dolineRest_does (q : List Byte) (args : List (List Byte)) :
    Does srv ans aclFlags s (dolineRest srv ans aclFlags q args s) := by
  unfold dolineRest
  apply Does.ite
  · intro _
    exact Does.reset false false false rfl
  intro _
  apply Does.ite
  · intro _
    exact Does.idle
  intro _
  apply Does.ite
  · intro _
    apply Does.checked
    intro hModify
    split
    · rename_i hNew
      exact Does.deleted _ hModify hNew
    · exact Does.idle
  intro _
  apply Does.ite
  · intro _
    split
    · exact Does.idle
    · rename_i hNew
      apply Does.checked
      intro hModify
      exact Does.created args hModify hNew
  intro _
  apply Does.ite
  · intro _
    split
    · rename_i hNew
      exact Does.booked _ args hNew
    · exact Does.idle
  intro _
  apply Does.ite
  · intro _
    apply Does.ite
    · intro _
      apply Does.checked
      intro hConflict
      exact Does.replied true s.forceFlag fun _ => Or.inr hConflict
    · intro _
      exact Does.replied false s.forceFlag fun hOn => absurd hOn Bool.false_ne_true
  intro _
  apply Does.ite
  · intro _
    exact Does.replied s.conflictFlag _ Or.inl
  intro _
  apply Does.ite
  · intro _
    exact Does.committed
  intro _
  apply Does.ite
  · intro _
    apply Does.checked
    intro hModify
    exact Does.cancel hModify .cancel (fun _ => Or.inl rfl) args
  intro _
  apply Does.ite
  · intro _
    apply Does.checked
    intro hModify
    exact Does.cancel hModify (fun id => .uncancel id s.okFlags) (fun _ => Or.inr rfl) args
  intro _
  exact Does.idle

theorem aclCommand_does (hOwn : srv.proxyUserid = none) (args : List (List Byte)) :
    Does srv ans aclFlags s (aclCommand srv ans aclFlags args s) := by
  unfold aclCommand
  cases args with
  | nil => exact Does.crashed
  | cons q rest =>
    apply Does.ite
    · intro _
      cases rest with
      | nil => exact dolineRest_does q []
      | cons who names => exact Does.accessed _ hOwn (Or.inr ⟨_, _, rfl⟩)
    intro _
    apply Does.ite
    · intro _
      exact Does.accessed _ hOwn (Or.inl rfl)
    intro _
    exact dolineRest_does q rest

theorem doline_does (line : List (List Byte)) : Does srv ans aclFlags s
      (doline srv ans aclFlags line s) := by
  unfold doline
  cases line with
  | nil => exact Does.idle
  | cons q args =>
    apply Does.ite
    · intro _
      exact Does.quit
    intro _
    apply Does.ite
    · intro _
      exact Does.idle
    intro _
    apply Does.ite
    · intro _
      exact Does.idle
    intro _
    apply Does.ite
    · intro _
      apply Does.checked
      intro hList
      split
      · exact Does.idle
      · exact Does.listed _ hList
    intro _
    apply Does.ite
    · intro _
      apply Does.checked
      intro hRetr
      split
      · exact Does.idle
      · exact Does.retrieved _ hRetr
    intro _
    apply Does.ite
    · intro hAcl
      have hOwn : srv.proxyUserid = none := by
        simp only [Bool.and_eq_true, Option.isNone_iff_eq_none] at hAcl
        exact hAcl.2
      exact aclCommand_does hOwn args
    intro _
    exact dolineRest_does q args

end Doline

/- The call destroys a new event. -/
def Call.Destroys (c : Call) : Prop :=
  ∃ e, c.act = .destroyEventid e

/- The call makes a new event or destroys one. -/
def Call.Makes (c : Call) : Prop :=
  (∃ old made, c.act = .newEventid old made) ∨ c.Destroys

variable {proxyList : List Proxy} {c : Call}

theorem destroyProxies_destroys (hCall : c ∈ destroyProxies proxyList) : c.Destroys := by
  unfold destroyProxies at hCall
  rcases List.mem_filterMap.mp hCall with ⟨p, _, hMap⟩
  cases hEvent : p.newevent with
  | none =>
    rw [hEvent] at hMap
    simp at hMap
  | some e =>
    rw [hEvent] at hMap
    simp only [Option.map_some, Option.some.injEq] at hMap
    subst hMap
    exact ⟨e, rfl⟩

theorem destroyProxies_makes (hCall : c ∈ destroyProxies proxyList) : c.Makes :=
  Or.inr (destroyProxies_destroys hCall)

variable {s : Session}

theorem rset_destroys (hCall : c ∈ (rset s).1) : c.Destroys := by
  unfold rset at hCall
  rcases List.mem_append.mp hCall with hOwn | hProxies
  · rcases List.mem_map.mp hOwn with ⟨e, _, hEq⟩
    subst hEq
    exact ⟨e, rfl⟩
  · exact destroyProxies_destroys hProxies

/- Without an event there is nothing to destroy. -/
theorem rset_nil (hNew : s.newEventid = none) (hProxies : s.proxyList = []) : (rset s).1 = [] := by
  unfold rset destroyProxies
  simp [hNew, hProxies]

variable {ans : Answers}

theorem createProxies_makes {forceFlag : Bool} {firstSave : Bool}
    (hCall : c ∈ (createProxies forceFlag ans proxyList firstSave).1) : c.Makes := by
  induction proxyList generalizing firstSave with
  | nil => simp [createProxies] at hCall
  | cons p rest ih =>
    have hNew : ∀ made, Call.Makes ⟨.proxy p.proxy, .newEventid p.oldEventId made⟩ :=
      fun made => Or.inl ⟨_, made, rfl⟩
    unfold createProxies at hCall
    split at hCall
    · exact ih hCall
    split at hCall
    · simp at hCall
    dsimp only at hCall
    split at hCall
    · rcases List.mem_cons.mp hCall with hEq | hMore
      · subst hEq
        exact hNew _
      · exact ih hMore
    · split at hCall
      · rcases List.mem_cons.mp hCall with hEq | hMore
        · subst hEq
          exact hNew _
        · exact ih hMore
      · rw [List.mem_singleton.mp hCall]
        exact hNew _

theorem createEvent_makes (hCall : c ∈ (createEvent ans s).1) : c.Makes := by
  have hFailed : ∀ {firstSave : Bool}, c ∈
      (createProxies s.forceFlag ans s.proxyList firstSave).1 ++
        destroyProxies (createProxies s.forceFlag ans s.proxyList firstSave).2.1 →
      c.Makes := by
    intro firstSave hMem
    rcases List.mem_append.mp hMem with hMade | hDestroyed
    · exact createProxies_makes hMade
    · exact destroyProxies_makes hDestroyed
  have hOwn : ∀ {calls : List Call} {made}, (c ∈ calls → c.Makes) → c ∈ calls ++
          [⟨.own, .newEventid s.deletedEventid made⟩] →
        c.Makes := by
    intro calls made hCalls hMem
    rcases List.mem_append.mp hMem with hMade | hLast
    · exact hCalls hMade
    · rw [List.mem_singleton.mp hLast]
      exact Or.inl ⟨_, _, rfl⟩
  unfold createEvent at hCall
  split at hCall
  · simp at hCall
  dsimp only at hCall
  split at hCall
  · exact hFailed hCall
  split at hCall
  · exact hFailed hCall
  split at hCall
  · rcases List.mem_append.mp hCall with hMade | hDestroyed
    · exact hOwn createProxies_makes hMade
    · exact destroyProxies_makes hDestroyed
  · exact hOwn createProxies_makes hCall

/-
  `NEW` makes and destroys events.  With a new event nothing
  is booked.
-/
theorem readNew_spec (srv : Server) (ans : Answers) (names : List (List Byte))
    (hNew : s.newEventid = none) :
    (∀ c, c ∈ (readNew srv ans names s).1 → c.Makes) ∧
      ((readNew srv ans names s).2 = .crashes ∨
        ∃ proxyList ne notbooked, (readNew srv ans names s).2 = .goesOn
              { s with
                proxyList := proxyList
                newEventid := ne
                notbooked := notbooked } ∧
          (ne ≠ none → notbooked = true)) := by
  have hSame : ∀ proxyList,
      ({ s with proxyList := proxyList } : Session) =
        { s with
          proxyList := proxyList
          newEventid := none
          notbooked := s.notbooked } := by
    intro proxyList
    rw [← hNew]
  have hFresh : ∀ c, c ∈ (if s.deletedEventid = none then
        proxyListRset s else ([], s)).1 → c.Makes := by
    intro c hMem
    split at hMem
    · exact destroyProxies_makes hMem
    · simp at hMem
  have hMade : ∀ {made : List Call}, (∀ c, c ∈ made → c.Makes) → ∀ c,
      c ∈ (if s.deletedEventid = none then
        proxyListRset s else ([], s)).1 ++ made →
      c.Makes := by
    intro made hCalls c hMem
    rcases List.mem_append.mp hMem with hFirst | hRest
    · exact hFresh c hFirst
    · exact hCalls c hRest
  unfold readNew
  dsimp only
  split
  · exact ⟨hFresh, Or.inl rfl⟩
  · exact ⟨hFresh, Or.inr ⟨_, none, s.notbooked, congrArg Next.goesOn (hSame _),
        fun hSome => absurd rfl hSome⟩⟩
  · exact ⟨hMade fun _ => destroyProxies_makes, Or.inr
      ⟨_, none, s.notbooked, congrArg Next.goesOn (hSame _), fun hSome => absurd rfl hSome⟩⟩
  · rename_i proxyList _
    refine ⟨hMade fun _ => createEvent_makes, Or.inr ?_⟩
    cases (createEvent ans { s with proxyList := proxyList }).2.2 with
    | none =>
      exact ⟨_, none, s.notbooked, congrArg Next.goesOn (hSame _), fun hSome => absurd rfl hSome⟩
    | some ne => exact ⟨_, ne, true, rfl, fun _ => rfl⟩

/- `DELETE` asks for the participants of the event. -/
theorem deleteEvent_spec (srv : Server) (ans : Answers) (e : List Byte) (s : Session) :
    (∀ c, c ∈ (deleteEvent srv ans e s).1 →
      c.Makes ∨ c = ⟨.own, .retr (participantsOf e)⟩) ∧
      ((deleteEvent srv ans e s).2 = .crashes ∨
        ∃ proxyList, (deleteEvent srv ans e s).2 = .goesOn
              { s with
                deletedEventid := some e
                proxyList := proxyList }) := by
  have hAsked : ∀ c, c ∈ destroyProxies s.proxyList ++ [⟨.own, .retr (participantsOf e)⟩] →
      c.Makes ∨ c = ⟨.own, .retr (participantsOf e)⟩ := by
    intro c hMem
    rcases List.mem_append.mp hMem with hFirst | hRetr
    · exact Or.inl (destroyProxies_makes hFirst)
    · exact Or.inr (List.mem_singleton.mp hRetr)
  have hClosed : ∀ proxyList c, c ∈ destroyProxies s.proxyList ++
          [⟨.own, .retr (participantsOf e)⟩] ++
        destroyProxies proxyList →
      c.Makes ∨ c = ⟨.own, .retr (participantsOf e)⟩ := by
    intro proxyList c hMem
    rcases List.mem_append.mp hMem with hFirst | hRest
    · exact hAsked c hFirst
    · exact Or.inl (destroyProxies_makes hRest)
  unfold deleteEvent
  dsimp only
  split
  · exact ⟨hAsked, Or.inl rfl⟩
  · exact ⟨hClosed _, Or.inr ⟨[], rfl⟩⟩
  · exact ⟨hClosed _, Or.inr ⟨[], rfl⟩⟩
  · split
    · exact ⟨hAsked, Or.inr ⟨_, rfl⟩⟩
    · exact ⟨hClosed _, Or.inr ⟨[], rfl⟩⟩

------------
-- Bookings
------------

/- The flags hold no right but those of the session. -/
def Session.Flags (s : Session) (srv : Server) (flags : UInt32) : Prop :=
  flags = s.okFlags ∨ flags = s.okFlags ||| byproxy srv

theorem Session.flags_okFlags (s : Session) (srv : Server) : s.Flags srv s.okFlags :=
  Or.inl rfl

/- Conflicts are overlooked only after `CONFLICT ON`. -/
theorem Session.Flags.conflict {srv : Server} {flags : UInt32} (hFlags : s.Flags srv flags)
    (hOn : Grants flags pcpOkConflict) : s.conflictFlag = true := by
  by_contra hOff
  rw [Bool.not_eq_true] at hOff
  unfold Grants at hOn
  apply hOn
  rcases hFlags with hEq | hEq
  · rw [hEq]
    unfold Session.okFlags
    rw [hOff]
    cases s.forceFlag with
    | false => rfl
    | true => rfl
  · rw [hEq]
    unfold Session.okFlags byproxy
    rw [hOff]
    cases s.forceFlag with
    | false =>
      cases srv.proxyUserid.isSome with
      | false => rfl
      | true => rfl
    | true =>
      cases srv.proxyUserid.isSome with
      | false => rfl
      | true => rfl

/- A call of `BOOK`. -/
def Call.Books (c : Call) (srv : Server) (s : Session) : Prop :=
  ∃ e f done, c.act = .book e f done ∧ s.Flags srv f.flags

theorem dobook_books {srv : Server} {e : List Byte} {args : List (List Byte)}
    (hCall : c ∈ (dobook srv ans e args s).1) : c.Books srv s := by
  unfold dobook at hCall
  split at hCall
  · simp at hCall
  · simp at hCall
  · dsimp only at hCall
    rcases List.mem_append.mp hCall with hProxies | hOwn
    · unfold bookProxies at hProxies
      rcases List.mem_map.mp hProxies with ⟨pr, _, hEq⟩
      subst hEq
      exact ⟨_, _, _, rfl, Or.inl rfl⟩
    · rw [List.mem_singleton.mp hOwn]
      exact ⟨_, _, _, rfl, Or.inr rfl⟩

theorem dobook_conflictFlag (srv : Server) (ans : Answers) (e : List Byte)
    (args : List (List Byte)) (s : Session) :
    (dobook srv ans e args s).2.conflictFlag = s.conflictFlag := by
  unfold dobook
  split
  · rfl
  · rfl
  · dsimp only
    split
    · rfl
    · rfl

/- What `COMMIT` does to the session where it does not end. -/
def Session.touched (s : Session) (flags : UInt32) (proxyList : List Proxy) : Session :=
  { s with
    newCommit := { s.newCommit with flags := flags }
    proxyList := proxyList }

/- A call of `COMMIT`. -/
def Call.Commits (c : Call) (srv : Server) (s : Session) : Prop :=
  c.Destroys ∨ (∃ id, c.act = .delete id) ∨ ∃ e f done,
      c.act = .commit e f done ∧ s.Flags srv f.flags ∧
          f.eventTimes = (s.commit f.flags).eventTimes ∧
            s.notbooked = false ∧ s.newEventid ≠ none ∧ s.newCommitTimes ≠ none

theorem commitProxies_calls {forceFlag : Bool} {f : Commit}
    (hCall : c ∈ (commitProxies forceFlag ans f proxyList).1) :
    (∃ id, c.act = .delete id) ∨ ∃ e done, c.act = .commit e f done := by
  induction proxyList with
  | nil => simp [commitProxies] at hCall
  | cons pl rest ih =>
    unfold commitProxies at hCall
    dsimp only at hCall
    split at hCall
    · exact ih hCall
    split at hCall
    · split at hCall
      · rcases List.mem_cons.mp hCall with hEq | hMore
        · subst hEq
          exact Or.inr ⟨_, _, rfl⟩
        · exact ih hMore
      · rw [List.mem_singleton.mp hCall]
        exact Or.inr ⟨_, _, rfl⟩
    split at hCall
    · exact ih hCall
    split at hCall
    · rcases List.mem_cons.mp hCall with hEq | hMore
      · subst hEq
        exact Or.inl ⟨_, rfl⟩
      · exact ih hMore
    split at hCall
    · rcases List.mem_cons.mp hCall with hEq | hMore
      · subst hEq
        exact Or.inl ⟨_, rfl⟩
      · exact ih hMore
    · rw [List.mem_singleton.mp hCall]
      exact Or.inl ⟨_, rfl⟩

theorem deleteProxies_calls (hCall : c ∈ deleteProxies proxyList) : ∃ id, c.act = .delete id := by
  unfold deleteProxies at hCall
  rcases List.mem_filterMap.mp hCall with ⟨pl, _, hMap⟩
  cases hOld : pl.oldEventId with
  | none =>
    rw [hOld] at hMap
    simp at hMap
  | some old =>
    rw [hOld] at hMap
    simp only [Option.map_some, Option.some.injEq] at hMap
    subst hMap
    exact ⟨old, rfl⟩

/- `COMMIT` of a new event. -/
theorem commitNew_spec {srv : Server} {e : List Byte} (hBooked : s.notbooked = false)
    (hNew : s.newEventid ≠ none) (hTimes : s.newCommitTimes ≠ none) :
    (∀ c, c ∈ (commitNew srv ans e s).1 → c.Commits srv s) ∧
      ∃ flags proxyList, (commitNew srv ans e s).2 = s.touched flags proxyList ∨
          (commitNew srv ans e s).2 = (rset (s.touched flags proxyList)).2 := by
  have hProxies : ∀ c, c ∈ (commitProxies s.forceFlag ans (s.commit s.okFlags) s.proxyList).1 →
      c.Commits srv s := by
    intro c hMem
    rcases commitProxies_calls hMem with hDelete | hCommit
    · exact Or.inr (Or.inl hDelete)
    · rcases hCommit with ⟨old, done, hAct⟩
      exact Or.inr (Or.inr ⟨old, _, done, hAct, Or.inl rfl, rfl, hBooked, hNew, hTimes⟩)
  unfold commitNew
  dsimp only
  split
  · constructor
    · intro c hMem
      rcases List.mem_append.mp hMem with hFirst | hRest
      · exact hProxies c hFirst
      · rcases List.mem_cons.mp hRest with hEq | hRset
        · subst hEq
          exact Or.inr (Or.inr ⟨_, _, _, rfl, Or.inr rfl, rfl, hBooked, hNew, hTimes⟩)
        · exact Or.inl (rset_destroys hRset)
    · exact ⟨_, _, Or.inr rfl⟩
  · exact ⟨hProxies, _, _, Or.inl rfl⟩

/- `COMMIT` of a deletion. -/
theorem commitDelete_spec (srv : Server) (ans : Answers) (e : List Byte) (s : Session) :
    (∀ c, c ∈ (commitDelete ans e s).1 → c.Commits srv s) ∧
      ((commitDelete ans e s).2 = s ∨ (commitDelete ans e s).2 = (rset s).2) := by
  have hDeleted : ∀ c, c ∈ deleteProxies s.proxyList ++ [⟨.own, .delete e⟩] →
      c.Commits srv s := by
    intro c hMem
    rcases List.mem_append.mp hMem with hProxies | hOwn
    · exact Or.inr (Or.inl (deleteProxies_calls hProxies))
    · rw [List.mem_singleton.mp hOwn]
      exact Or.inr (Or.inl ⟨e, rfl⟩)
  have hReset : ∀ c, c ∈ deleteProxies s.proxyList ++ [⟨.own, .delete e⟩] ++ (rset s).1 →
      c.Commits srv s := by
    intro c hMem
    rcases List.mem_append.mp hMem with hFirst | hRset
    · exact hDeleted c hFirst
    · exact Or.inl (rset_destroys hRset)
  unfold commitDelete
  dsimp only
  split
  · split
    · exact ⟨hDeleted, Or.inl rfl⟩
    · exact ⟨hReset, Or.inr rfl⟩
  · exact ⟨hReset, Or.inr rfl⟩

/- `COMMIT` does nothing where no event is pending. -/
theorem commit_spec (srv : Server) (ans : Answers) (s : Session) : (commit srv ans s = ([], s)) ∨
      (s.newEventid ≠ none ∨ s.deletedEventid ≠ none) ∧
        (∀ c, c ∈ (commit srv ans s).1 → c.Commits srv s) ∧
          ∃ flags proxyList, (commit srv ans s).2 = s.touched flags proxyList ∨
              (commit srv ans s).2 = (rset (s.touched flags proxyList)).2 := by
  unfold commit
  by_cases hNotbooked : s.notbooked = true
  · rw [if_pos hNotbooked]
    exact Or.inl rfl
  rw [if_neg hNotbooked]
  rw [Bool.not_eq_true] at hNotbooked
  split
  · rename_i hNew hTimes
    have hSome : s.newEventid ≠ none := by
      rw [hNew]
      exact Option.some_ne_none _
    have hBlock : s.newCommitTimes ≠ none := by
      rw [hTimes]
      exact Option.some_ne_none _
    exact Or.inr ⟨Or.inl hSome, commitNew_spec hNotbooked hSome hBlock⟩
  · rename_i e hNew hDeleted
    have hSome : s.deletedEventid ≠ none := by
      rw [hDeleted]
      exact Option.some_ne_none e
    have hSpec := commitDelete_spec srv ans e s
    refine Or.inr ⟨Or.inr hSome, hSpec.1, s.newCommit.flags, s.proxyList, hSpec.2⟩
  · exact Or.inl rfl

end Wmail.Pcp
