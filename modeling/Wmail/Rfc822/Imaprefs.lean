import Mathlib.Logic.Function.Basic
import Wmail.Core.Links
import Wmail.Rfc822.Address
import Wmail.Rfc822.ParseDate
import Wmail.Rfc822.Subject

/-
  Threading by references (imaprefs.c).

  Messages are numbered in the order of their allocation,
  which is the order of the list from `firstmsg`: a pointer to
  a message is its number.  Memory never runs out.

  Key definitions include:
    * `Refmsg`
-/

namespace Wmail.Rfc822

/- `struct imap_refmsg`.  A null `subj` is `none`. -/
structure Refmsg where
  parent : Option Nat := none
  firstchild : Option Nat := none
  lastchild : Option Nat := none
  prevsib : Option Nat := none
  nextsib : Option Nat := none
  isdummy : Bool := false
  flag2 : Bool := false
  msgid : List Byte := []
  subj : Option (List Byte) := none
  timestamp : Int := 0
  seqnum : Nat := 0

/- `struct imap_subjlookup`, in a chain of them. -/
structure Subjlookup where
  subj : List Byte
  msg : Option Nat
  msgisrefwd : Bool

/- `struct imap_refmsgtable`: a hash chain is a list. -/
structure Refmsgtable where
  msgs : Nat → Refmsg
  nmsgs : Nat
  hashtable : Nat → List Nat
  subjtable : Nat → List Subjlookup
  rootptr : Option Nat

/- `rfc822_threadalloc`. -/
def rfc822Threadalloc : Refmsgtable :=
  { msgs := fun _ => {}
    nmsgs := 0
    hashtable := fun _ => []
    subjtable := fun _ => []
    rootptr := none }

/- Assign to fields of a message. -/
def Refmsgtable.setMsg (mt : Refmsgtable) (m : Nat) (f : Refmsg → Refmsg) : Refmsgtable :=
  { mt with
    msgs := Function.update mt.msgs m (f (mt.msgs m)) }

/- `swapmsgdata`, which leaves `subj` and the links alone. -/
def swapmsgdata (mt : Refmsgtable) (a b : Nat) : Refmsgtable :=
  let carry (source : Refmsg) (msg : Refmsg) : Refmsg :=
    { msg with
      msgid := source.msgid
      isdummy := source.isdummy
      flag2 := source.flag2
      timestamp := source.timestamp
      seqnum := source.seqnum }
  (mt.setMsg a (carry (mt.msgs b))).setMsg b
    (carry (mt.msgs a))

/- `strcmp`. -/
def strcmp (a b : List Byte) : Ordering :=
  compare a b

/- `hashmsgid`, with an `unsigned long` of 64 bits. -/
def hashmsgid (msgid : List Byte) : Nat :=
  let hashno := msgid.foldl (fun (hashno : UInt64) c =>
      let n := hashno <<< 1
      let n := if hashno &&& 512 = 0 then n else n ^^^ 1
      n ^^^ c.toUInt64) 0
  hashno.toNat % 512

/- Insert into a chain before the first greater entry. -/
def chainInsert {α : Type} (key : α → List Byte) (new : α) : List α → List α
  | [] => [new]
  | h :: rest =>
    if strcmp (key h) (key new) = .gt then new :: h :: rest else h :: chainInsert key new rest

/- The first entry of that key, up to the first greater. -/
def chainSearch {α : Type} (key : α → List Byte) (wanted : List Byte) : List α → Option α
  | [] => none
  | h :: rest =>
    match strcmp (key h) wanted with
    | .eq => some h
    | .gt => none
    | .lt => chainSearch key wanted rest

/- `rfc822_threadallocmsg`: the new message is `nmsgs`. -/
def rfc822Threadallocmsg (mt : Refmsgtable) (msgid : List Byte) : Refmsgtable :=
  let n := hashmsgid msgid
  let mt := mt.setMsg mt.nmsgs fun _ => { msgid }
  { mt with
    nmsgs := mt.nmsgs + 1
    hashtable :=
      Function.update mt.hashtable n (chainInsert (fun m => (mt.msgs m).msgid) mt.nmsgs
          (mt.hashtable n)) }

/- `rfc822_threadsearchmsg`. -/
def rfc822Threadsearchmsg (mt : Refmsgtable) (msgid : List Byte) : Option Nat :=
  chainSearch (fun m => (mt.msgs m).msgid) msgid (mt.hashtable (hashmsgid msgid))

/- `findsubj` without `create`. -/
def findsubj (mt : Refmsgtable) (s : List Byte) : Option Subjlookup :=
  let ss := (rfc822Coresubj s).1
  chainSearch Subjlookup.subj ss (mt.subjtable (hashmsgid ss))

/- `findsubj` with `create`: a new entry has no message. -/
def findsubjCreate (mt : Refmsgtable) (s : List Byte) : Refmsgtable × Subjlookup :=
  let ss := rfc822Coresubj s
  let n := hashmsgid ss.1
  match findsubj mt s with
  | some subjtop => (mt, subjtop)
  | none =>
    let newsubj := ⟨ss.1, none, ss.2⟩
    ({ mt with
        subjtable :=
          Function.update mt.subjtable n (chainInsert Subjlookup.subj newsubj
              (mt.subjtable n)) },
      newsubj)

/- Assign to the entry of a subject. -/
def Refmsgtable.setSubj (mt : Refmsgtable) (subjtop : Subjlookup) (toproot : Nat)
    (isrefwd : Bool) : Refmsgtable :=
  let n := hashmsgid subjtop.subj
  { mt with
    subjtable :=
      Function.update mt.subjtable n ((mt.subjtable n).map fun h =>
          if h.subj = subjtop.subj then
            { h with msg := some toproot, msgisrefwd := isrefwd }
          else
            h) }

/- The link to what follows `prevsib` among `p`'s children. -/
def setNext (mt : Refmsgtable) (prevsib : Option Nat) (p : Nat) (link : Option Nat) :
    Refmsgtable :=
  match prevsib with
  | some sib => mt.setMsg sib fun m => { m with nextsib := link }
  | none => mt.setMsg p fun m => { m with firstchild := link }

/- The link to what precedes `nextsib` among `p`'s children. -/
def setPrev (mt : Refmsgtable) (nextsib : Option Nat) (p : Nat) (link : Option Nat) :
    Refmsgtable :=
  match nextsib with
  | some sib => mt.setMsg sib fun m => { m with prevsib := link }
  | none => mt.setMsg p fun m => { m with lastchild := link }

/- `linkparent`. -/
def linkparent (mt : Refmsgtable) (msg lastmsg : Nat) : Refmsgtable :=
  let mt := mt.setMsg msg fun m => { m with parent := some lastmsg }
  let mt := mt.setMsg msg fun m => { m with prevsib := (mt.msgs lastmsg).lastchild }
  let mt := setNext mt (mt.msgs msg).prevsib lastmsg (some msg)
  let mt := mt.setMsg lastmsg fun m => { m with lastchild := some msg }
  mt.setMsg msg fun m => { m with nextsib := none }

/- `breakparent`. -/
def breakparent (mt : Refmsgtable) (m : Nat) : Refmsgtable :=
  match (mt.msgs m).parent with
  | none => mt
  | some p =>
    let mt :=
      setNext mt (mt.msgs m).prevsib p (mt.msgs m).nextsib
    let mt :=
      setPrev mt (mt.msgs m).nextsib p (mt.msgs m).prevsib
    mt.setMsg m fun s => { s with parent := none }

/- `while (p->firstchild) breakparent(p->firstchild)`. -/
def breakChildren : Nat → Refmsgtable → Nat → Refmsgtable
  | 0, mt, _ => mt
  | fuel + 1, mt, p =>
    match (mt.msgs p).firstchild with
    | none => mt
    | some m => breakChildren fuel (breakparent mt m) p

/- Move the children of `p`, one by one, to the end of `q`'s. -/
def moveChildren : Nat → Refmsgtable → Nat → Nat → Refmsgtable
  | 0, mt, _, _ => mt
  | fuel + 1, mt, p, q =>
    match (mt.msgs p).firstchild with
    | none => mt
    | some m => moveChildren fuel (linkparent (breakparent mt m) m q) p q

/- Take all children of `p` into an array. -/
def takeChildren : Nat → Refmsgtable → Nat → List Nat × Refmsgtable
  | 0, mt, _ => ([], mt)
  | fuel + 1, mt, p =>
    match (mt.msgs p).firstchild with
    | none => ([], mt)
    | some m =>
      let rest := takeChildren fuel (breakparent mt m) p
      (m :: rest.1, rest.2)

/- Link the messages of an array to `p`. -/
def linkAll (mt : Refmsgtable) (ms : List Nat) (p : Nat) : Refmsgtable :=
  ms.foldl (fun mt m => linkparent mt m p) mt

/- `m` and its ancestors have a message with that id. -/
def idAbove (mt : Refmsgtable) (msgid : List Byte) (m : Nat) : Bool :=
  (Links.follow (fun x => (mt.msgs x).parent) mt.nmsgs m).any
    fun x => strcmp (mt.msgs x).msgid msgid = .eq

/- The message that a reference names, or a new dummy. -/
def refMsg (mt : Refmsgtable) (msgid : List Byte) : Refmsgtable × Nat :=
  let found :=
    if msgid = [] then none else rfc822Threadsearchmsg mt msgid
  match found with
  | some msg => (mt, msg)
  | none =>
    ((rfc822Threadallocmsg mt msgid).setMsg mt.nmsgs
        fun m => { m with isdummy := true },
      mt.nmsgs)

/- Link to the last reference, unless that makes a loop. -/
def linkRef (mt : Refmsgtable) (msg last : Nat) : Refmsgtable :=
  if idAbove mt (mt.msgs msg).msgid last then mt else linkparent mt msg last

/- The loop over the references: the table and `lastmsg`. -/
def dorefs (mt : Refmsgtable) (lastmsg : Option Nat) : List (List Byte) → Refmsgtable × Option Nat
  | [] => (mt, lastmsg)
  | msgid :: rest =>
    let ref := refMsg mt msgid
    match lastmsg with
    | none => dorefs ref.1 (some ref.2) rest
    | some last =>
      if (ref.1.msgs ref.2).parent ≠ none then
        dorefs ref.1 (some ref.2) rest
      else
        dorefs (linkRef ref.1 ref.2 last) (some ref.2) rest

/- The message of a `dorefcreate` call, not linked yet. -/
def ownMsg (mt : Refmsgtable) (newmsgid : List Byte) : Refmsgtable × Nat :=
  let found :=
    if newmsgid = [] then none else rfc822Threadsearchmsg mt newmsgid
  match found with
  | none => (rfc822Threadallocmsg mt newmsgid, mt.nmsgs)
  | some msg =>
    if (mt.msgs msg).isdummy then
      let mt := mt.setMsg msg fun m => { m with isdummy := false }
      (breakparent mt msg, msg)
    else
      -- a duplicate takes an empty id
      let mt := breakparent (breakChildren mt.nmsgs mt msg) msg
      (rfc822Threadallocmsg mt [], mt.nmsgs)

/- `dorefcreate`. -/
def dorefcreate (mt : Refmsgtable) (newmsgid : List Byte) (refs : List (List Byte)) :
    Refmsgtable × Nat :=
  let linked := dorefs mt none refs
  let own := ownMsg linked.1 newmsgid
  match linked.2 with
  | none => own
  | some last => (linkRef own.1 own.2 last, own.2)

/- The headers of a message; a null pointer is `none`. -/
structure Headers where
  msgidhdr : Option (List Byte)
  refhdr : Option (List Byte)
  subjheader : Option (List Byte)
  dateheader : Option (List Byte)
  seqnum : Nat

/- The address list of a header. -/
def headerAddrs (hdr : Option (List Byte)) : List (List Byte) :=
  (parseaddr (tokenize (hdr.getD []))).map rfc822Getaddr

/- The message id that `rfc822_threadmsg` reads. -/
def Headers.msgid (h : Headers) : List Byte :=
  (headerAddrs h.msgidhdr).headD []

/- The time that `rfc822_threadmsg` reads. -/
def Headers.timestamp (h : Headers) : Int :=
  match h.dateheader with
  | none => 0
  | some dateheader => rfc822Parsedt dateheader

/- `rfc822_threadmsg`. -/
def rfc822Threadmsg (mt : Refmsgtable) (h : Headers) : Refmsgtable :=
  let created := dorefcreate mt h.msgid (headerAddrs h.refhdr)
  created.1.setMsg created.2 fun m =>
    { m with
      subj := h.subjheader.orElse fun _ => m.subj
      timestamp := h.timestamp
      seqnum := h.seqnum }

/- One message in `rfc822_threadprune`. -/
def pruneMsg (mt : Refmsgtable) (msg : Nat) : Refmsgtable :=
  match (mt.msgs msg).parent with
  | none => mt
  | some saveparent =>
    if (mt.msgs msg).isdummy then
      match (mt.msgs msg).firstchild with
      | none => breakparent mt msg
      | some child =>
        if (mt.msgs child).nextsib ≠ none ∧ (mt.msgs saveparent).parent ≠ none then
          mt
        else
          moveChildren mt.nmsgs (breakparent mt msg) msg saveparent
    else
      mt

/- `rfc822_threadprune`. -/
def rfc822Threadprune (mt : Refmsgtable) : Refmsgtable :=
  (List.range mt.nmsgs).foldl pruneMsg mt

/- One message in `rfc822_threadgetroot`. -/
def rootMsg (root : Nat) (mt : Refmsgtable) (m : Nat) : Refmsgtable :=
  if (mt.msgs m).parent = none then
    if (mt.msgs m).isdummy ∧ (mt.msgs m).firstchild = none then mt else linkparent mt m root
  else
    mt

/- `rfc822_threadgetroot`. -/
def rfc822Threadgetroot (mt : Refmsgtable) : Refmsgtable :=
  match mt.rootptr with
  | some _ => mt
  | none =>
    let root := mt.nmsgs
    let mt := rfc822Threadallocmsg mt (bytes "(root)")
    -- the root is its own parent for a while
    let mt := mt.setMsg root fun m => { m with parent := some root }
    let mt := mt.setMsg root fun m => { m with isdummy := true }
    let mt := (List.range mt.nmsgs).foldl (rootMsg root) mt
    let mt := mt.setMsg root fun m => { m with parent := none }
    { mt with rootptr := some root }

/-
  The C library's `qsort`, which rearranges an array.
-/
structure Qsort where
  sort : (Nat → Nat → Int) → List Nat → List Nat
  perm : ∀ cmp ms, (sort cmp ms).Perm ms

/- A `qsort` that keeps the order of equal elements. -/
def Qsort.mergeSort : Qsort where
  sort cmp ms := ms.mergeSort fun a b => cmp a b ≤ 0
  perm _ ms := List.mergeSort_perm ms _

/- `while (ma && ma->isdummy) ma = ma->firstchild`. -/
def firstReal : Nat → Refmsgtable → Option Nat → Option Nat
  | 0, _, ma => ma
  | _ + 1, _, none => none
  | fuel + 1, mt, some ma =>
    if (mt.msgs ma).isdummy then firstReal fuel mt (mt.msgs ma).firstchild else some ma

/- `cmp_msgs`. -/
def cmpMsgs (mt : Refmsgtable) (a b : Nat) : Int :=
  let ma := firstReal mt.nmsgs mt (some a)
  let mb := firstReal mt.nmsgs mt (some b)
  let ta := (ma.map fun m => (mt.msgs m).timestamp).getD 0
  let tb := (mb.map fun m => (mt.msgs m).timestamp).getD 0
  let na := (ma.map fun m => (mt.msgs m).seqnum).getD 0
  let nb := (mb.map fun m => (mt.msgs m).seqnum).getD 0
  if ta ≠ 0 ∧ tb ≠ 0 ∧ ta ≠ tb then
    if ta < tb then -1 else 1
  else if na < nb then
    -1
  else if na > nb then
    1
  else
    0

/-
  A loop over a message and its later siblings.  It fails
  when the body does, or when it does not come to an end.
-/
def forSiblings (body : Refmsgtable → Nat → Option Refmsgtable) :
    Nat → Refmsgtable → Option Nat → Option Refmsgtable
  | _, mt, none => some mt
  | 0, _, some _ => none
  | fuel + 1, mt, some q =>
    match body mt q with
    | none => none
    | some mt => forSiblings body fuel mt (mt.msgs q).nextsib

/- Sort the children of a message. -/
def sortChildren (qsort : Qsort) (mt : Refmsgtable) (p : Nat) : Refmsgtable :=
  let taken := takeChildren mt.nmsgs mt p
  linkAll taken.2 (qsort.sort (cmpMsgs taken.2) taken.1) p

/-
  Sort the children of a message, after those of the children
  that `deeper` tells, at most `fuel` calls deep.
-/
def sortLevels (qsort : Qsort) (deeper : Refmsg → Bool) :
    Nat → Refmsgtable → Nat → Option Refmsgtable
  | 0, _, _ => none
  | fuel + 1, mt, p =>
    (forSiblings
      (fun mt q =>
        if deeper (mt.msgs q) then sortLevels qsort deeper fuel mt q else some mt)
      mt.nmsgs mt (mt.msgs p).firstchild).map fun mt => sortChildren qsort mt p

/- `rfc822_threadsortsubj`, which goes into dummies only. -/
def rfc822Threadsortsubj (qsort : Qsort) (mt : Refmsgtable) (root : Nat) : Option Refmsgtable :=
  sortLevels qsort Refmsg.isdummy (mt.nmsgs + 1) mt root

/- `dothreadsort`. -/
def dothreadsort (qsort : Qsort) (mt : Refmsgtable) (p : Nat) : Option Refmsgtable :=
  sortLevels qsort (fun _ => true) (mt.nmsgs + 1) mt p

/- `rfc822_threadsortbydate`. -/
def rfc822Threadsortbydate (qsort : Qsort) (mt : Refmsgtable) : Option Refmsgtable :=
  match mt.rootptr with
  | none => none
  | some root => dothreadsort qsort mt root

/-
  The subject of a thread: `none` when a dummy has no child,
  whose null pointer the code would follow.
-/
def threadSubj (mt : Refmsgtable) (toproot : Nat) : Option (List Byte) :=
  if (mt.msgs toproot).isdummy then
    (mt.msgs toproot).firstchild.map fun p => (mt.msgs p).subj.getD []
  else
    some ((mt.msgs toproot).subj.getD [])

/- One thread in `rfc822_threadgathersubj`. -/
def gatherMsg (mt : Refmsgtable) (toproot : Nat) : Option Refmsgtable :=
  match threadSubj mt toproot with
  | none => none
  | some subj =>
    if subj = [] then
      some mt
    else
      let found := findsubjCreate mt subj
      let mt := found.1
      let subjtop := found.2
      let isrefwd := (rfc822Coresubj subj).2
      match subjtop.msg with
      | none => some (mt.setSubj subjtop toproot isrefwd)
      | some top =>
        if (mt.msgs top).isdummy then
          some mt
        else if (mt.msgs toproot).isdummy ∨ (subjtop.msgisrefwd ∧ ¬ isrefwd) then
          some (mt.setSubj subjtop toproot isrefwd)
        else
          some mt

/- `rfc822_threadgathersubj`. -/
def rfc822Threadgathersubj (mt : Refmsgtable) (root : Nat) : Option Refmsgtable :=
  forSiblings gatherMsg mt.nmsgs mt (mt.msgs root).firstchild

/- Put `toproot` under `top`. -/
def mergeUnder (mt : Refmsgtable) (toproot top : Nat) : Refmsgtable :=
  linkparent (breakparent mt toproot) toproot top

/- A new dummy in the place of `top`, with both under it. -/
def mergeDummy (mt : Refmsgtable) (toproot top : Nat) : Refmsgtable :=
  let q := mt.nmsgs
  let mt := (rfc822Threadallocmsg mt (bytes "(dummy)")).setMsg q fun m => { m with isdummy := true }
  let mt := swapmsgdata mt q top
  let mt := moveChildren mt.nmsgs mt top q
  let mt := linkparent mt q top
  mergeUnder mt toproot top

/- The rules for two threads of one subject. -/
def mergeInto (mt : Refmsgtable) (toproot top : Nat) (isrefwd : Bool) : Refmsgtable :=
  if (mt.msgs top).isdummy ∧ (mt.msgs toproot).isdummy then
    breakparent (moveChildren mt.nmsgs mt toproot top) toproot
  else if (mt.msgs top).isdummy then
    mergeUnder mt toproot top
  else if isrefwd ∧ ¬ (rfc822Coresubj ((mt.msgs top).subj.getD [])).2 then
    mergeUnder mt toproot top
  else
    mergeDummy mt toproot top

/- One thread in `rfc822_threadmergesubj`. -/
def mergeMsg (mt : Refmsgtable) (toproot : Nat) : Option Refmsgtable :=
  match threadSubj mt toproot with
  | none => none
  | some subj =>
    if subj = [] then
      some mt
    else
      match (findsubj mt subj).bind Subjlookup.msg with
      | none => none
      | some top =>
        let mt := mt.setMsg top fun m => { m with flag2 := true }
        if (mt.msgs toproot).flag2 then
          some (mt.setMsg toproot fun m => { m with flag2 := false })
        else
          let mt := mt.setMsg top fun m => { m with flag2 := false }
          some (mergeInto mt toproot top (rfc822Coresubj subj).2)

/-
  The loop of `rfc822_threadmergesubj`, which reads `nextsib`
  before the body moves the thread.
-/
def mergeLoop : Nat → Refmsgtable → Option Nat → Option Refmsgtable
  | _, mt, none => some mt
  | 0, _, some _ => none
  | fuel + 1, mt, some toproot =>
    let nextroot := (mt.msgs toproot).nextsib
    match mergeMsg mt toproot with
    | none => none
    | some mt => mergeLoop fuel mt nextroot

/- `rfc822_threadmergesubj`. -/
def rfc822Threadmergesubj (mt : Refmsgtable) (root : Nat) : Option Refmsgtable :=
  mergeLoop mt.nmsgs mt (mt.msgs root).firstchild

/- Run a stage on the root. -/
def onRoot (stage : Refmsgtable → Nat → Option Refmsgtable) (mt : Refmsgtable) :
    Option Refmsgtable :=
  match mt.rootptr with
  | none => none
  | some root => stage mt root

/- The stages of `rfc822_thread`, in order. -/
def threadStages (qsort : Qsort) : List (Refmsgtable → Option Refmsgtable) :=
  [fun mt => some (rfc822Threadprune mt),
    fun mt => some (rfc822Threadgetroot mt),
    onRoot (rfc822Threadsortsubj qsort),
    onRoot rfc822Threadgathersubj,
    onRoot rfc822Threadmergesubj,
    rfc822Threadsortbydate qsort]

/- Run some stages one after the other. -/
def runStages (mt : Refmsgtable) (stages : List (Refmsgtable → Option Refmsgtable)) :
    Option Refmsgtable :=
  stages.foldlM (fun mt stage => stage mt) mt

/- `rfc822_thread`: the table with its root, if it succeeds. -/
def rfc822Thread (qsort : Qsort) (mt : Refmsgtable) : Option Refmsgtable :=
  match mt.rootptr with
  | some _ => some mt
  | none => runStages mt (threadStages qsort)

end Wmail.Rfc822
