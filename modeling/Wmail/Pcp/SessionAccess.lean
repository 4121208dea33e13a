import Wmail.Pcp.SessionSteps

/-
  What the rights of a client allow in a session.

  Key theorems include:
    * `doline_access`
    * `mainloop_permitted`
-/

namespace Wmail.Pcp

/-
  The flags of a client allow a call.  To look up the
  participants of an event that is deleted needs no right to
  retrieve events; the access list is never touched.
-/
def Permitted (flags : UInt32) (c : Call) : Prop :=
  match c.act with
  | .newEventid _ _ => Grants flags pcpAclModify
  | .destroyEventid _ => Grants flags pcpAclModify
  | .delete _ => Grants flags pcpAclModify
  | .cancel _ => Grants flags pcpAclModify
  | .book _ f _ =>
    Grants flags pcpAclModify ∧ (Grants f.flags pcpOkConflict → Grants flags pcpAclConflict)
  | .commit _ f _ =>
    Grants flags pcpAclModify ∧ (Grants f.flags pcpOkConflict → Grants flags pcpAclConflict)
  | .uncancel _ okFlags =>
    Grants flags pcpAclModify ∧ (Grants okFlags pcpOkConflict → Grants flags pcpAclConflict)
  | .listAll _ _ => Grants flags pcpAclList
  | .retr r => Grants flags pcpAclRetr ∨ Grants flags pcpAclModify ∧ ∃ e, r = participantsOf e
  | .setAcl _ _ => False
  | .listAcl => False

/- Something of a new or deleted event is kept. -/
def Session.Pending (s : Session) : Prop :=
  s.newEventid ≠ none ∨ s.deletedEventid ≠ none ∨ s.proxyList ≠ []

/-
  What is kept between two commands was allowed when it was
  asked for.
-/
structure Access (flags : UInt32) (s : Session) : Prop where
  modify : s.Pending → Grants flags pcpAclModify
  conflict : s.conflictFlag = true → Grants flags pcpAclConflict

section Access

variable {srv : Server} {ans : Answers} {flags : UInt32} {s : Session}

theorem Access.start : Access flags Session.start where
  modify := by
    intro hPending
    rcases hPending with hNew | hDeleted | hProxies
    · exact absurd rfl hNew
    · exact absurd rfl hDeleted
    · exact absurd rfl hProxies
  conflict := by
    intro hOn
    exact absurd hOn Bool.false_ne_true

/- After a reset nothing is kept. -/
theorem Access.rset (hAccess : Access flags s) : Access flags (rset s).2 where
  modify := by
    intro hPending
    rcases hPending with hNew | hDeleted | hProxies
    · exact absurd rfl hNew
    · exact absurd rfl hDeleted
    · exact absurd rfl hProxies
  conflict := hAccess.conflict

theorem Call.Makes.permitted {c : Call} (hMakes : c.Makes)
    (hModify : Grants flags pcpAclModify) : Permitted flags c := by
  unfold Permitted
  rcases hMakes with ⟨old, made, hAct⟩ | ⟨e, hAct⟩
  · rw [hAct]
    exact hModify
  · rw [hAct]
    exact hModify

/- Only what is kept is destroyed. -/
theorem rset_permitted (hAccess : Access flags s) {c : Call} (hCall : c ∈ (Pcp.rset s).1) :
    Permitted flags c := by
  by_cases hPending : s.Pending
  · exact Call.Makes.permitted (Or.inr (rset_destroys hCall)) (hAccess.modify hPending)
  · unfold Session.Pending at hPending
    push Not at hPending
    rw [rset_nil hPending.1 hPending.2.2] at hCall
    exact absurd hCall List.not_mem_nil

theorem Session.Flags.permitted {okFlags : UInt32} (hFlags : s.Flags srv okFlags)
    (hAccess : Access flags s) :
    Grants okFlags pcpOkConflict → Grants flags pcpAclConflict := by
  intro hOn
  exact hAccess.conflict (hFlags.conflict hOn)

theorem Call.Commits.permitted {c : Call} (hCommits : c.Commits srv s)
    (hModify : Grants flags pcpAclModify) (hAccess : Access flags s) : Permitted flags c := by
  rcases hCommits with hDestroys | ⟨id, hAct⟩ | hCommit
  · exact Call.Makes.permitted (Or.inr hDestroys) hModify
  · unfold Permitted
    rw [hAct]
    exact hModify
  · rcases hCommit with ⟨e, f, done, hAct, hFlags, _⟩
    unfold Permitted
    rw [hAct]
    exact ⟨hModify, hFlags.permitted hAccess⟩

theorem Access.pendingNew (hAccess : Access flags s) (hNew : s.newEventid ≠ none) :
    Grants flags pcpAclModify :=
  hAccess.modify (Or.inl hNew)

theorem Access.pending (hAccess : Access flags s)
    (hSome : s.newEventid ≠ none ∨ s.deletedEventid ≠ none) : Grants flags pcpAclModify := by
  rcases hSome with hNew | hDeleted
  · exact hAccess.pendingNew hNew
  · exact hAccess.modify (Or.inr (Or.inl hDeleted))

/- Conflicts may always be looked at again. -/
theorem Access.off (hAccess : Access flags s) {conflict : Bool} (hOff : conflict = false)
    (force pending : Bool) :
    Access flags
      { s with
        conflictFlag := conflict
        forceFlag := force
        needRset := pending } where
  modify := hAccess.modify
  conflict := by
    intro hOn
    exact absurd (hOff.symm.trans hOn) Bool.false_ne_true

/- The calls of one line are allowed. -/
theorem Does.permitted {result : List Call × Next} (hDoes : Does srv ans flags s result)
    (hProxy : srv.proxyUserid ≠ none) (hAccess : Access flags s) :
    ∀ c, c ∈ result.1 → Permitted flags c := by
  intro c hCall
  cases hDoes with
  | crashed => exact absurd hCall List.not_mem_nil
  | quit => exact absurd hCall List.not_mem_nil
  | replied conflict force hConflict => exact absurd hCall List.not_mem_nil
  | listed range hList =>
    rw [List.mem_singleton.mp hCall]
    exact hList
  | retrieved r hRetr =>
    rw [List.mem_singleton.mp hCall]
    exact Or.inl hRetr
  | accessed act hOwn hAct => exact absurd hOwn hProxy
  | reset conflict force pending hConflict =>
    exact rset_permitted (hAccess.off hConflict force pending) hCall
  | deleted e hModify hNew =>
    rcases (deleteEvent_spec srv ans e s).1 c hCall with hMakes | hRetr
    · exact hMakes.permitted hModify
    · rw [hRetr]
      exact Or.inr ⟨hModify, e, rfl⟩
  | created names hModify hNew =>
    exact ((readNew_spec srv ans names hNew).1 c hCall).permitted hModify
  | booked e args hNew =>
    have hSome : s.newEventid ≠ none := by
      rw [hNew]
      exact Option.some_ne_none e
    rcases dobook_books hCall with ⟨_, f, done, hAct, hFlags⟩
    unfold Permitted
    rw [hAct]
    exact ⟨hAccess.pendingNew hSome, hFlags.permitted hAccess⟩
  | committed =>
    rcases commit_spec srv ans s with hNone | hSome
    · rw [hNone] at hCall
      exact absurd hCall List.not_mem_nil
    · have hModify := hAccess.pending hSome.1
      exact (hSome.2.1 c hCall).permitted hModify hAccess
  | cancelled act hModify hAct =>
    rw [List.mem_singleton.mp hCall]
    rcases hAct with ⟨id, hCancel | hUncancel⟩
    · rw [hCancel]
      exact hModify
    · rw [hUncancel]
      exact ⟨hModify, (s.flags_okFlags srv).permitted hAccess⟩

theorem Access.touched (hAccess : Access flags s) (hModify : Grants flags pcpAclModify)
    (okFlags : UInt32) (proxyList : List Proxy) : Access flags (s.touched okFlags proxyList) :=
  ⟨fun _ => hModify, hAccess.conflict⟩

/- One line keeps what was allowed. -/
theorem Does.access {result : List Call × Next} (hDoes : Does srv ans flags s result)
    (hAccess : Access flags s) {s' : Session} (hNext : result.2.session = some s') :
    Access flags s' := by
  cases hDoes with
  | crashed => simp [Next.session] at hNext
  | quit =>
    cases Option.some.inj hNext
    exact hAccess
  | replied conflict force hConflict =>
    cases Option.some.inj hNext
    refine ⟨hAccess.modify, fun hOn => ?_⟩
    rcases hConflict hOn with hKept | hGrants
    · exact hAccess.conflict hKept
    · exact hGrants
  | listed range hList =>
    cases Option.some.inj hNext
    exact hAccess
  | retrieved r hRetr =>
    cases Option.some.inj hNext
    exact hAccess
  | accessed act hOwn hAct =>
    cases Option.some.inj hNext
    exact hAccess
  | reset conflict force pending hConflict =>
    cases Option.some.inj hNext
    exact (hAccess.off hConflict force pending).rset
  | deleted e hModify hNew =>
    rcases (deleteEvent_spec srv ans e s).2 with hCrash | ⟨proxyList, hEq⟩
    · rw [hCrash] at hNext
      simp [Next.session] at hNext
    · rw [hEq] at hNext
      cases Option.some.inj hNext
      exact ⟨fun _ => hModify, hAccess.conflict⟩
  | created names hModify hNew =>
    rcases (readNew_spec srv ans names hNew).2 with hCrash | ⟨proxyList, ne, notbooked, hEq, _⟩
    · rw [hCrash] at hNext
      simp [Next.session] at hNext
    · rw [hEq] at hNext
      cases Option.some.inj hNext
      exact ⟨fun _ => hModify, hAccess.conflict⟩
  | booked e args hNew =>
    have hSome : s.newEventid ≠ none := by
      rw [hNew]
      exact Option.some_ne_none e
    have hKept := dobook_conflictFlag srv ans e args s
    cases Option.some.inj hNext
    refine ⟨fun _ => hAccess.pendingNew hSome, fun hOn => ?_⟩
    rw [hKept] at hOn
    exact hAccess.conflict hOn
  | committed =>
    rcases commit_spec srv ans s with hNone | hSome
    · rw [hNone] at hNext
      cases Option.some.inj hNext
      exact hAccess
    · have hModify := hAccess.pending hSome.1
      rcases hSome.2.2 with ⟨okFlags, proxyList, hEq⟩
      cases Option.some.inj hNext
      rcases hEq with hTouched | hReset
      · rw [hTouched]
        exact hAccess.touched hModify okFlags proxyList
      · rw [hReset]
        exact (hAccess.touched hModify okFlags proxyList).rset
  | cancelled act hModify hAct =>
    cases Option.some.inj hNext
    exact hAccess

end Access

section Turn

variable {srv : Server} {flags : UInt32} {s : Session}

/- One turn of the loop. -/
theorem turn_permitted (hProxy : srv.proxyUserid ≠ none) (hAccess : Access flags s)
    (input : Input) :
    ∀ c, c ∈ (turn srv flags s input).1 → Permitted flags c := by
  intro c hCall
  unfold turn at hCall
  cases input with
  | hangup => exact rset_permitted hAccess hCall
  | line text ans =>
    have hDoes : Does srv ans flags s (doline srv ans flags (lineWords text) s) :=
      doline_does (lineWords text)
    dsimp only at hCall
    generalize doline srv ans flags (lineWords text) s = result at hCall hDoes
    rcases result with ⟨calls, next⟩
    cases next with
    | goesOn s' => exact hDoes.permitted hProxy hAccess c hCall
    | quits last =>
      rcases List.mem_append.mp hCall with hLine | hRset
      · exact hDoes.permitted hProxy hAccess c hLine
      · exact rset_permitted (hDoes.access hAccess rfl) hRset
    | crashes => exact hDoes.permitted hProxy hAccess c hCall

theorem turn_access (hAccess : Access flags s) (input : Input) {next : Session}
    (hNext : (turn srv flags s input).2 = some next) : Access flags next := by
  unfold turn at hNext
  cases input with
  | hangup => simp at hNext
  | line text ans =>
    have hDoes : Does srv ans flags s (doline srv ans flags (lineWords text) s) :=
      doline_does (lineWords text)
    dsimp only at hNext
    generalize doline srv ans flags (lineWords text) s = result at hNext hDoes
    rcases result with ⟨calls, after⟩
    cases after with
    | goesOn s' => exact hDoes.access hAccess hNext
    | quits last => simp at hNext
    | crashes => simp at hNext

end Turn

/-
  A client with the rights of a proxy makes no call that its
  rights do not allow, whatever its lines are.
-/
theorem mainloop_permitted (srv : Server) (hProxy : srv.proxyUserid ≠ none)
    (lines : List (List Byte × Answers)) :
    ∀ calls, calls ∈ mainloop srv lines → ∀ c, c ∈ calls → Permitted (myAclFlags srv) c := by
  intro calls hCalls
  exact mem_outputs (Access (myAclFlags srv)) (fun calls => ∀ c, c ∈ calls →
      Permitted (myAclFlags srv) c)
    (fun _ input hAccess => turn_permitted hProxy hAccess input)
    (fun _ input _ hAccess hNext => turn_access hAccess input hNext)
    Access.start hCalls

/- A proxy that may only modify the calendar. -/
def modifier : Server where
  proxyUserid := some (bytes "ann")
  hasAcl := true
  acl := some [(bytes "ann", pcpAclModify)]
  publicAcl := none
  myhostname := some (bytes "h")
  gmtime := fun _ => 1

theorem mainloop_permitted_cancel : Permitted (myAclFlags modifier) ⟨.own, .cancel (bytes "1")⟩ :=
  mainloop_permitted modifier (by decide)
    [(bytes "CANCEL 1", Answers.accepting)]
    [⟨.own, .cancel (bytes "1")⟩] (by decide)
    ⟨.own, .cancel (bytes "1")⟩ (by decide)

/- It is told whether an event has participants. -/
theorem mainloop_retrieved : modifier.proxyUserid ≠ none ∧
      [⟨.own, .retr (participantsOf (bytes "1"))⟩] ∈
        mainloop modifier
          [(bytes "DELETE 1", Answers.accepting)] ∧
      ¬ Grants (myAclFlags modifier) pcpAclRetr := by
  decide

end Wmail.Pcp
