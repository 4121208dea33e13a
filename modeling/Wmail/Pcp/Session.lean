import Wmail.Core.Blocks
import Wmail.Core.Trace
import Wmail.Core.Words
import Wmail.Maildir.Maildirfilter

/-
  A session of the calendar server (pcpd.c): the commands of
  a client, and the calls of the calendars that they make.

  The calendars themselves are not part of the session.  What
  they answer is given with each command.

  Key definitions include:
    * `Call`
-/

namespace Wmail.Pcp

open Maildir (caseEqual)

/- `PCP_ACL_MODIFY` and the other rights. -/
def pcpAclModify : UInt32 := 1
def pcpAclConflict : UInt32 := 2
def pcpAclList : UInt32 := 4
def pcpAclRetr : UInt32 := 8
def pcpAclNone : UInt32 := 16

/- `PCP_OK_CONFLICT` and the other flags of a booking. -/
def pcpOkConflict : UInt32 := 1
def pcpOkProxyErrors : UInt32 := 2
def pcpByproxy : UInt32 := 4

def pcpErrEventnotfound : Nat := 3

/- What `pcp_list_acl` calls its callback with. -/
abbrev AccessList :=
  List (List Byte × UInt32)

/-
  What does not change in a session.  The access list is
  `none` where `pcp_list_acl` fails; it is read a second time
  for the public rights.  `gmtime` is `pcp_gmtime_s`, which
  depends on the time zone.
-/
structure Server where
  proxyUserid : Option (List Byte)
  hasAcl : Bool
  acl : Option AccessList
  publicAcl : Option AccessList
  myhostname : Option (List Byte)
  gmtime : List Byte → Int

/- An address with the own host where it names none. -/
def qualify (h a : List Byte) : List Byte :=
  if chr '@' ∈ a then a else a ++ chr '@' :: h

/- `addrcmp(a, b) == 0`. -/
def addrcmp (srv : Server) (a b : List Byte) : Bool :=
  match srv.myhostname with
  | none => false
  | some h => caseEqual (qualify h a) (qualify h b)

/- `pcp_list_acl` with `get_acl_callback`. -/
def getAcl (srv : Server) (who : List Byte) (acl : AccessList) : UInt32 :=
  acl.foldl (fun flags entry => if addrcmp srv entry.1 who then entry.2 else flags)
    0

/- `my_acl_flags`, as `mainloop` computes them. -/
def myAclFlags (srv : Server) : UInt32 :=
  match srv.proxyUserid with
  | none => pcpAclModify ||| pcpAclConflict ||| pcpAclList ||| pcpAclRetr
  | some who =>
    if srv.hasAcl then
      match srv.acl with
      | none => 0
      | some acl =>
        if getAcl srv who acl = 0 then
          match srv.publicAcl with
          | none => 0
          | some acl => getAcl srv (bytes "public") acl
        else
          getAcl srv who acl
    else
      0

/- `check_acl`: true when the right is missing. -/
def checkAcl (flags bit : UInt32) : Bool :=
  flags &&& bit = 0

/- `pcp_acl_num`. -/
def pcpAclNum (c : List Byte) : UInt32 :=
  if caseEqual c (bytes "MODIFY") then pcpAclModify
  else if caseEqual c (bytes "CONFLICT") then pcpAclConflict
  else if caseEqual c (bytes "LIST") then pcpAclList
  else if caseEqual c (bytes "RETR") then pcpAclRetr
  else if caseEqual c (bytes "NONE") then pcpAclNone
  else 0

/- `struct PCP_event_time`. -/
structure EventTime where
  start : Int
  stop : Int
deriving DecidableEq

/- The own calendar, or that of a proxy. -/
inductive Calendar where
  | own
  | proxy (handle : Nat)
deriving DecidableEq

/- A function for `callback_retr_participants`. -/
inductive Participants where
  | callbackRetrParticipants
  | openEventParticipant
deriving DecidableEq

/- `struct PCP_retr`; a callback may be missing. -/
structure Retr where
  eventIdList : List (List Byte)
  retrStatus : Bool := false
  retrDate : Bool := false
  retrParticipants : Option Participants := none
  headersFunc : Bool := false
  rfc822Func : Bool := false
deriving DecidableEq

/-
  What a calendar reads of `struct PCP_commit`.  There are no
  times where the pointer is null or its block was freed.
-/
structure Commit where
  flags : UInt32
  eventTimes : Option (List EventTime)
deriving DecidableEq

/- A function of a calendar with its arguments. -/
inductive Act where
  | newEventid
      (old made : Option (List Byte))
  | destroyEventid (e : List Byte)
  | book (e : Option (List Byte)) (f : Commit) (done : Bool)
  | commit (e : Option (List Byte)) (f : Commit) (done : Bool)
  | delete (id : List Byte)
  | cancel (id : List Byte)
  | uncancel (id : List Byte) (flags : UInt32)
  | listAll (listFrom listTo : Int)
  | retr (r : Retr)
  | setAcl (who : List Byte) (flags : UInt32)
  | listAcl
deriving DecidableEq

structure Call where
  calendar : Calendar
  act : Act
deriving DecidableEq

------------
-- The Session
------------

/-
  `struct proxy_list`, with its flags `PROXY_NEW` and
  `PROXY_IGNORE`.
-/
structure Proxy where
  userid : List Byte
  oldEventId : Option (List Byte)
  proxy : Nat
  newevent : Option (List Byte)
  isNew : Bool
  isIgnored : Bool

/- `new_commit`; the times are a pointer. -/
structure NewCommit where
  flags : UInt32
  eventTimes : Option Nat
  nEventTimes : Nat

/- The variables of pcpd.c, and the blocks of event times. -/
structure Session where
  deletedEventid : Option (List Byte)
  newEventid : Option (List Byte)
  conflictFlag : Bool
  forceFlag : Bool
  notbooked : Bool
  needRset : Bool
  newCommit : NewCommit
  newCommitTimes : Option Nat
  heap : Blocks EventTime
  proxyList : List Proxy

def Session.start : Session where
  deletedEventid := none
  newEventid := none
  conflictFlag := false
  forceFlag := false
  notbooked := false
  needRset := false
  newCommit := ⟨0, none, 0⟩
  newCommitTimes := none
  heap := []
  proxyList := []

/- What `new_commit` shows to a calendar. -/
def Session.commit (s : Session) (flags : UInt32) : Commit where
  flags := flags
  eventTimes :=
    s.heap.read s.newCommit.eventTimes s.newCommit.nEventTimes

/- The flags of a booking. -/
def Session.okFlags (s : Session) : UInt32 :=
  (if s.conflictFlag then pcpOkConflict else 0) |||
    (if s.forceFlag then pcpOkProxyErrors else 0)

/- The flags that a proxy session adds for its own calendar. -/
def byproxy (srv : Server) : UInt32 :=
  if srv.proxyUserid.isSome then pcpByproxy else 0

/-
  What is answered to the calls of one command.  `opens` are
  the handles of `pcp_find_proxy`, in order, and `participants`
  is what `pcp_retr` finds for `DELETE`.  The result of a
  deletion is an error code.
-/
structure Answers where
  opens : List (Option Nat)
  participants : List (List Byte × List Byte)
  retr : Bool
  tmpfile : Bool
  rewinds : Calendar → Bool
  newEventid : Calendar → Option (List Byte)
  mkparticipants : Bool
  fflush : Bool
  book : Calendar → Bool
  commit : Calendar → Bool
  delete : Calendar → Option Nat

/- Every calendar answers, and accepts. -/
def Answers.accepting : Answers where
  opens := []
  participants := []
  retr := true
  tmpfile := true
  rewinds := fun _ => true
  newEventid := fun _ => some (bytes "1")
  mkparticipants := true
  fflush := true
  book := fun _ => true
  commit := fun _ => true
  delete := fun _ => none

/- What follows a command. -/
inductive Next where
  | goesOn (s : Session)
  | quits (s : Session)
  | crashes

/- The calls of `proxy_list_rset`. -/
def destroyProxies (proxyList : List Proxy) : List Call :=
  proxyList.filterMap fun p => p.newevent.map fun e => ⟨.proxy p.proxy, .destroyEventid e⟩

/- `proxy_list_rset`. -/
def proxyListRset (s : Session) : List Call × Session :=
  (destroyProxies s.proxyList, { s with proxyList := [] })

/-
  `proxy`, and what is then done to the structure that it
  returns.
-/
def proxy (srv : Server) (proxyUserid : List Byte) (use : Proxy → Proxy)
    (opens : List (Option Nat)) (proxyList : List Proxy) :
    Option (List (Option Nat) × List Proxy) :=
  match proxyList.findIdx? (fun p => addrcmp srv proxyUserid p.userid) with
  | some i => some (opens, proxyList.modify i use)
  | none =>
    match opens with
    | some handle :: rest =>
      some (rest, use ⟨proxyUserid, none, handle, none, false, false⟩ :: proxyList)
    | _ => none

/-
  What comes of opening proxies: a session for a proxy
  refuses to, and without a proxy `FORCE` goes through a null
  pointer.
-/
inductive Opening where
  | opened (proxyList : List Proxy)
  | refused (proxyList : List Proxy)
  | failed (proxyList : List Proxy)
  | crashed

/- Open the proxies of a list, one after the other. -/
def openProxies (srv : Server) (forceFlag : Bool) :
    List (List Byte × (Proxy → Proxy)) → List (Option Nat) → List Proxy → Opening
  | [], _, proxyList => .opened proxyList
  | (n, use) :: rest, opens, proxyList =>
    if srv.proxyUserid.isSome then
      .refused proxyList
    else
      match proxy srv n use opens proxyList with
      | some (opens, proxyList) => openProxies srv forceFlag rest opens proxyList
      | none => if forceFlag then .crashed else .failed proxyList

/- The participants that `open_event_participant` is given. -/
def openEventParticipants (srv : Server) (forceFlag : Bool) (ans : Answers)
    (proxyList : List Proxy) : Opening :=
  openProxies srv forceFlag (ans.participants.map fun e =>
      (e.1, fun p => { p with oldEventId := some e.2 }))
    ans.opens proxyList

/- The names behind `NEW`. -/
def openNewProxies (srv : Server) (forceFlag : Bool) (ans : Answers)
    (names : List (List Byte)) (proxyList : List Proxy) : Opening :=
  openProxies srv forceFlag (names.map fun n => (n, fun p => { p with isNew := true }))
    ans.opens proxyList

/-
  The loop of `readnewevent` over the proxies: the calls, the
  proxies, and `first_save` where it does not fail.
-/
def createProxies (forceFlag : Bool) (ans : Answers) :
    List Proxy → Bool → List Call × List Proxy × Option Bool
  | [], firstSave => ([], [], some firstSave)
  | p :: rest, firstSave =>
    if ¬ p.isNew then
      let more := createProxies forceFlag ans rest firstSave
      (more.1, p :: more.2.1, more.2.2)
    else if ¬ ans.rewinds (.proxy p.proxy) then
      ([], p :: rest, none)
    else
      let made := ans.newEventid (.proxy p.proxy)
      let call : Call :=
        ⟨.proxy p.proxy, .newEventid p.oldEventId made⟩
      match made with
      | some e =>
        let more := createProxies forceFlag ans rest false
        (call :: more.1,
          { p with newevent := some e } :: more.2.1,
          more.2.2)
      | none =>
        if forceFlag then
          let more :=
            createProxies forceFlag ans rest firstSave
          (call :: more.1,
            { p with
              newevent := none
              isNew := false
              isIgnored := true } :: more.2.1,
            more.2.2)
        else
          ([call], { p with newevent := none } :: rest, none)

/-
  `readnewevent` from the temporary file on: the calls, the
  proxies, and `ne` where it is reached.
-/
def createEvent (ans : Answers) (s : Session) :
    List Call × List Proxy × Option (Option (List Byte)) :=
  if ¬ ans.tmpfile then
    ([], s.proxyList, none)
  else
    let made := createProxies s.forceFlag ans s.proxyList true
    match made.2.2 with
    | none => (made.1 ++ destroyProxies made.2.1, [], none)
    | some firstSave =>
      if ¬ (ans.mkparticipants && ans.rewinds .own) then
        (made.1 ++ destroyProxies made.2.1, [], none)
      else
        let ne := ans.newEventid .own
        let calls :=
          made.1 ++ [⟨.own, .newEventid s.deletedEventid ne⟩]
        if firstSave && ¬ ans.fflush then
          (calls ++ destroyProxies made.2.1, [], none)
        else
          (calls, made.2.1, some ne)

/-
  `readnewevent`, and `new_eventid` set to what it returns.
-/
def readNew (srv : Server) (ans : Answers) (names : List (List Byte)) (s : Session) :
    List Call × Next :=
  let fresh :=
    if s.deletedEventid = none then proxyListRset s else ([], s)
  match openNewProxies srv s.forceFlag ans names fresh.2.proxyList with
  | .crashed => (fresh.1, .crashes)
  | .refused proxyList => (fresh.1, .goesOn { s with proxyList := proxyList })
  | .failed proxyList =>
    (fresh.1 ++ destroyProxies proxyList, .goesOn { s with proxyList := [] })
  | .opened proxyList =>
    let made :=
      createEvent ans { s with proxyList := proxyList }
    (fresh.1 ++ made.1,
      .goesOn (match made.2.2 with
        | none => { s with proxyList := made.2.1 }
        | some ne =>
          { s with
            proxyList := made.2.1
            newEventid := ne
            notbooked := true }))

------------
-- Commands
------------

/- `rset`. -/
def rset (s : Session) : List Call × Session :=
  (s.newEventid.toList.map (fun e =>
      ⟨.own, .destroyEventid e⟩) ++
    destroyProxies s.proxyList,
    { s with
      deletedEventid := none
      newEventid := none
      notbooked := false
      newCommit :=
        { s.newCommit with eventTimes := none, nEventTimes := 0 }
      newCommitTimes := none
      heap :=
        match s.newCommitTimes with
        | none => s.heap
        | some p => s.heap.free p
      proxyList := [] })

/- The times of a `BOOK` command; none where it is malformed. -/
def bookTimes (srv : Server) : List (List Byte) → Option (List EventTime)
  | [] => some []
  | p :: rest =>
    if p.length ≠ 14 + 14 + 1 || p[14]? ≠ some (chr '-') then
      none
    else
      let start := srv.gmtime (p.take 14)
      let stop := srv.gmtime (p.drop 15)
      if start = 0 || stop = 0 then none else (bookTimes srv rest).map (⟨start, stop⟩ :: ·)

/- The bookings of the proxies. -/
def bookProxies (ans : Answers) (f : Commit) (proxyList : List Proxy) : List Call :=
  (proxyList.filter (·.isNew)).map fun pr =>
    ⟨.proxy pr.proxy, .book pr.newevent f (ans.book (.proxy pr.proxy))⟩

/- No calendar reported a conflict. -/
def Call.booked (c : Call) : Bool :=
  match c.act with
  | .book _ _ done => done
  | _ => true

/- `dobook`. -/
def dobook (srv : Server) (ans : Answers) (e : List Byte) (args : List (List Byte))
    (s : Session) : List Call × Session :=
  match bookTimes srv args with
  | none => ([], s)
  | some [] => ([], s)
  | some (t :: more) =>
    let newTimes := s.heap.fresh
    let s₁ : Session :=
      { s with
        heap := s.heap.alloc (t :: more)
        newCommit :=
          { flags := s.okFlags
            eventTimes := some newTimes
            nEventTimes := (t :: more).length }
        notbooked := true }
    let flags := s.okFlags ||| byproxy srv
    let calls :=
      bookProxies ans (s₁.commit s.okFlags) s.proxyList ++
        [⟨.own, .book (some e) (s₁.commit flags) (ans.book .own)⟩]
    (calls,
      if calls.all Call.booked then
        { s₁ with
          newCommit := { s₁.newCommit with flags := flags }
          newCommitTimes := some newTimes
          heap :=
            match s.newCommitTimes with
            | none => s₁.heap
            | some p => s₁.heap.free p
          notbooked := false }
      else
        { s₁ with
          newCommit := { s.newCommit with flags := flags }
          heap := s₁.heap.free newTimes })

/- The time range behind `FROM`. -/
def listRange (srv : Server) (q : List Byte) : Option (Int × Int) :=
  let listTo (listFrom : Int) (q : List Byte) :=
    match q with
    | [] => some (listFrom, 0)
    | b :: buf =>
      if b ≠ chr '-' || buf.length ≠ 14 || srv.gmtime buf = 0 then
        none
      else
        some (listFrom, srv.gmtime buf)
  if q.head? = some (chr '-') then
    listTo 0 q
  else if q.length < 14 || srv.gmtime (q.take 14) = 0 then
    none
  else
    listTo (srv.gmtime (q.take 14)) (q.drop 14)

/- The arguments of `list`; none where they are malformed. -/
def list (srv : Server) : List (List Byte) → Int × Int → Option (Int × Int)
  | [], range => some range
  | q :: rest, range =>
    if caseEqual q (bytes "FROM") then
      match rest with
      | [] => none
      | q :: rest =>
        if range ≠ (0, 0) then
          none
        else
          match listRange srv q with
          | none => none
          | some range => list srv rest range
    else
      list srv rest range

/- The arguments of `retr`; none where they are malformed. -/
def retr : List (List Byte) → Retr → Option Retr
  | [], _ => none
  | q :: rest, r =>
    if caseEqual q (bytes "EVENTS") then
      if (r.headersFunc && r.rfc822Func) || rest.isEmpty then
        none
      else
        some { r with eventIdList := rest.reverse }
    else if caseEqual q (bytes "TEXT") then
      retr rest { r with rfc822Func := true }
    else if caseEqual q (bytes "HEADERS") then
      retr rest { r with headersFunc := true }
    else if caseEqual q (bytes "DATE") then
      retr rest { r with retrDate := true }
    else if caseEqual q (bytes "ADDR") then
      retr rest
        { r with
          retrParticipants := some .callbackRetrParticipants }
    else if caseEqual q (bytes "STATUS") then
      retr rest { r with retrStatus := true }
    else
      none

/- The request of `DELETE` for the participants. -/
def participantsOf (e : List Byte) : Retr where
  eventIdList := [e]
  retrParticipants := some .openEventParticipant

/- `DELETE` of an event. -/
def deleteEvent (srv : Server) (ans : Answers) (e : List Byte) (s : Session) : List Call × Next :=
  let calls :=
    destroyProxies s.proxyList ++ [⟨.own, .retr (participantsOf e)⟩]
  let s₁ : Session :=
    { s with deletedEventid := some e, proxyList := [] }
  match openEventParticipants srv s.forceFlag ans [] with
  | .crashed => (calls, .crashes)
  | .refused proxyList | .failed proxyList => (calls ++ destroyProxies proxyList, .goesOn s₁)
  | .opened proxyList =>
    if ans.retr then
      (calls, .goesOn { s₁ with proxyList := proxyList })
    else
      (calls ++ destroyProxies proxyList, .goesOn s₁)

/-
  The loop of `COMMIT` over the proxies.  It is left where a
  calendar fails and nothing is forced.
-/
def commitProxies (forceFlag : Bool) (ans : Answers) (f : Commit) :
    List Proxy → List Call × List Proxy × Bool
  | [] => ([], [], true)
  | pl :: rest =>
    let more := commitProxies forceFlag ans f rest
    if pl.isIgnored then
      (more.1, pl :: more.2.1, more.2.2)
    else if pl.isNew then
      let done := ans.commit (.proxy pl.proxy)
      let call : Call :=
        ⟨.proxy pl.proxy, .commit pl.newevent f done⟩
      if done || forceFlag then
        (call :: more.1, pl :: more.2.1, more.2.2)
      else
        ([call], { pl with isNew := false } :: rest, false)
    else
      match pl.oldEventId with
      | none => (more.1, pl :: more.2.1, more.2.2)
      | some old =>
        let call : Call :=
          ⟨.proxy pl.proxy, .delete old⟩
        if ans.delete (.proxy pl.proxy) = none then
          (call :: more.1, pl :: more.2.1, more.2.2)
        else if forceFlag then
          (call :: more.1,
            { pl with isIgnored := true } :: more.2.1,
            more.2.2)
        else
          ([call], pl :: rest, false)

/- `COMMIT` of a new event. -/
def commitNew (srv : Server) (ans : Answers) (e : List Byte) (s : Session) : List Call × Session :=
  let s₁ : Session :=
    { s with newCommit := { s.newCommit with flags := s.okFlags } }
  let proxies :=
    commitProxies s.forceFlag ans (s₁.commit s.okFlags) s.proxyList
  let s₂ : Session := { s₁ with proxyList := proxies.2.1 }
  if proxies.2.2 then
    let flags := s.okFlags ||| byproxy srv
    let last :=
      rset { s₂ with newCommit := { s₂.newCommit with flags := flags } }
    (proxies.1 ++
      ⟨.own, .commit (some e) (s₂.commit flags) (ans.commit .own)⟩ :: last.1,
      last.2)
  else
    (proxies.1, s₂)

/- The deletions of the proxies. -/
def deleteProxies (proxyList : List Proxy) : List Call :=
  (proxyList.filter (! ·.isIgnored)).filterMap fun pl =>
    pl.oldEventId.map fun old => ⟨.proxy pl.proxy, .delete old⟩

/- `COMMIT` of a deletion. -/
def commitDelete (ans : Answers) (e : List Byte) (s : Session) : List Call × Session :=
  let calls :=
    deleteProxies s.proxyList ++ [⟨.own, .delete e⟩]
  match ans.delete .own with
  | some errcode =>
    if errcode ≠ pcpErrEventnotfound then (calls, s) else (calls ++ (rset s).1, (rset s).2)
  | none => (calls ++ (rset s).1, (rset s).2)

/- `COMMIT`. -/
def commit (srv : Server) (ans : Answers) (s : Session) : List Call × Session :=
  if s.notbooked then
    ([], s)
  else
    match s.newEventid, s.newCommitTimes, s.deletedEventid with
    | some e, some _, _ => commitNew srv ans e s
    | none, _, some e => commitDelete ans e s
    | _, _, _ => ([], s)

/- A reply without a call. -/
def idle (s : Session) : List Call × Next :=
  ([], .goesOn s)

/-
  `doline` behind the `ACL` command.  What it has no branch
  for is a syntax error.
-/
def dolineRest (srv : Server) (ans : Answers) (aclFlags : UInt32) (q : List Byte)
    (args : List (List Byte)) (s : Session) : List Call × Next :=
  if caseEqual q (bytes "RSET") then
    let last := rset
      { s with
        conflictFlag := false
        forceFlag := false
        needRset := false }
    (last.1, .goesOn last.2)
  else if s.needRset then
    idle s
  else if caseEqual q (bytes "DELETE") then
    if checkAcl aclFlags pcpAclModify then
      idle s
    else
      match args, s.deletedEventid, s.newEventid with
      | e :: _, none, none => deleteEvent srv ans e s
      | _, _, _ => idle s
  else if caseEqual q (bytes "NEW") then
    match s.newEventid with
    | some _ => idle s
    | none =>
      if checkAcl aclFlags pcpAclModify then idle s else readNew srv ans args s
  else if caseEqual q (bytes "BOOK") then
    match s.newEventid with
    | some e =>
      let last := dobook srv ans e args s
      (last.1, .goesOn last.2)
    | none => idle s
  else if caseEqual q (bytes "CONFLICT") then
    if args.head?.any (caseEqual · (bytes "ON")) then
      if checkAcl aclFlags pcpAclConflict then idle s else idle { s with conflictFlag := true }
    else
      idle { s with conflictFlag := false }
  else if caseEqual q (bytes "FORCE") then
    idle
      { s with
        forceFlag := args.head?.any (caseEqual · (bytes "ON")) }
  else if caseEqual q (bytes "COMMIT") then
    let last := commit srv ans s
    (last.1, .goesOn last.2)
  else if caseEqual q (bytes "CANCEL") then
    if checkAcl aclFlags pcpAclModify then
      idle s
    else
      (args.head?.toList.map (fun q => ⟨.own, .cancel q⟩), .goesOn s)
  else if caseEqual q (bytes "UNCANCEL") then
    if checkAcl aclFlags pcpAclModify then
      idle s
    else
      (args.head?.toList.map (fun q => ⟨.own, .uncancel q s.okFlags⟩), .goesOn s)
  else
    idle s

/-
  The `ACL` command.  An unknown one is looked for among the
  commands behind it, and without a word `strcasecmp` is given
  a null pointer.
-/
def aclCommand (srv : Server) (ans : Answers) (aclFlags : UInt32) (args : List (List Byte))
    (s : Session) : List Call × Next :=
  match args with
  | [] => ([], .crashes)
  | q :: rest =>
    if caseEqual q (bytes "SET") then
      match rest with
      | [] => dolineRest srv ans aclFlags q [] s
      | who :: names =>
        ([⟨.own, .setAcl who
          (names.foldl (fun flags n => flags ||| pcpAclNum n) 0)⟩], .goesOn s)
    else if caseEqual q (bytes "LIST") then
      ([⟨.own, .listAcl⟩], .goesOn s)
    else
      dolineRest srv ans aclFlags q rest s

/- `doline`, given the words of the line. -/
def doline (srv : Server) (ans : Answers) (aclFlags : UInt32) (line : List (List Byte))
    (s : Session) : List Call × Next :=
  match line with
  | [] => idle s
  | q :: args =>
    if caseEqual q (bytes "QUIT") then
      ([], .quits s)
    else if caseEqual q (bytes "NOOP") then
      idle s
    else if caseEqual q (bytes "CAPABILITY") then
      idle s
    else if caseEqual q (bytes "LIST") then
      if checkAcl aclFlags pcpAclList then
        idle s
      else
        match list srv args (0, 0) with
        | none => idle s
        | some range => ([⟨.own, .listAll range.1 range.2⟩], .goesOn s)
    else if caseEqual q (bytes "RETR") then
      if checkAcl aclFlags pcpAclRetr then
        idle s
      else
        match retr args { eventIdList := [] } with
        | none => idle s
        | some r => ([⟨.own, .retr r⟩], .goesOn s)
    else if caseEqual q (bytes "ACL") && srv.hasAcl && srv.proxyUserid.isNone then
      aclCommand srv ans aclFlags args s
    else
      dolineRest srv ans aclFlags q args s

/- The words of a line, as `mainloop` and `strtok` see them. -/
def lineWords (line : List Byte) : List (List Byte) :=
  wordsOf 32 ((line.takeWhile (· ≠ 0)).map fun b => if isspace b then 32 else b)

/- A line of the client, or the end of its lines. -/
inductive Input where
  | line (text : List Byte) (ans : Answers)
  | hangup

/- One turn of the loop in `mainloop`, and what follows it. -/
def turn (srv : Server) (aclFlags : UInt32) (s : Session) : Input → List Call × Option Session
  | .hangup => ((rset s).1, none)
  | .line text ans =>
    match doline srv ans aclFlags (lineWords text) s with
    | (calls, .goesOn next) => (calls, some next)
    | (calls, .quits last) => (calls ++ (rset last).1, none)
    | (calls, .crashes) => (calls, none)

/- `mainloop`: the calls of each command. -/
def mainloop (srv : Server) (lines : List (List Byte × Answers)) : List (List Call) :=
  outputs (turn srv (myAclFlags srv)) (lines.map (fun l => .line l.1 l.2) ++ [.hangup])
    Session.start

end Wmail.Pcp
