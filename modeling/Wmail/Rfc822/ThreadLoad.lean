import Wmail.Rfc822.HashChains

/-
  Loading messages into the table.

  After any number of `rfc822_threadmsg` calls, the links are
  a forest, and the messages that are no dummies are those of
  the calls, one for each.

  Key theorems include:
    * `Loaded.threadmsg`
    * `loaded`
-/

namespace Wmail.Rfc822

/- What a message carries of its call. -/
def Refmsg.sent (msg : Refmsg) : List Byte × Nat × Int :=
  (msg.msgid, msg.seqnum, msg.timestamp)

/- An allocated message that is no dummy. -/
def Refmsgtable.Real (mt : Refmsgtable) (m : Nat) : Prop :=
  m < mt.nmsgs ∧ (mt.msgs m).isdummy = false

/- The real messages are the same, and carry the same. -/
structure SameReal (mt other : Refmsgtable) : Prop where
  real : ∀ m, other.Real m ↔ mt.Real m
  sent : ∀ m, mt.Real m → (other.msgs m).sent = (mt.msgs m).sent

theorem SameReal.refl (mt : Refmsgtable) : SameReal mt mt :=
  ⟨fun _ => Iff.rfl, fun _ _ => rfl⟩

theorem SameReal.trans {mt other last : Refmsgtable} (hFirst : SameReal mt other)
    (hSecond : SameReal other last) : SameReal mt last := by
  constructor
  · intro m
    exact (hSecond.real m).trans (hFirst.real m)
  · intro m hReal
    have hOther := (hFirst.real m).mpr hReal
    exact (hSecond.sent m hOther).trans (hFirst.sent m hReal)

theorem Relinked.sent {mt other : Refmsgtable} (hLinks : Relinked mt other) (m : Nat) :
    (other.msgs m).sent = (mt.msgs m).sent :=
  congrArg (fun msg => msg.sent) (hLinks.unlinked m)

theorem Relinked.flag2 {mt other : Refmsgtable} (hLinks : Relinked mt other) (m : Nat) :
    (other.msgs m).flag2 = (mt.msgs m).flag2 :=
  congrArg (fun msg => msg.flag2) (hLinks.unlinked m)

theorem Relinked.subj {mt other : Refmsgtable} (hLinks : Relinked mt other) (m : Nat) :
    (other.msgs m).subj = (mt.msgs m).subj :=
  congrArg (fun msg => msg.subj) (hLinks.unlinked m)

theorem Relinked.real {mt other : Refmsgtable} (hLinks : Relinked mt other) (m : Nat) :
    other.Real m ↔ mt.Real m := by
  unfold Refmsgtable.Real
  rw [hLinks.nmsgs, hLinks.isdummy]

theorem Relinked.sameReal {mt other : Refmsgtable} (hLinks : Relinked mt other) :
    SameReal mt other :=
  ⟨hLinks.real, fun m _ => hLinks.sent m⟩

/- The real messages, and what each of them carries. -/
structure Holds (mt : Refmsgtable) (nodes : List Nat) (sent : List (List Byte × Nat × Int)) :
    Prop where
  nodup : nodes.Nodup
  mem_nodes : ∀ m, m ∈ nodes ↔ mt.Real m
  sent : nodes.map (fun m => (mt.msgs m).sent) = sent

theorem Holds.sameReal {mt other : Refmsgtable} {nodes : List Nat}
    {sent : List (List Byte × Nat × Int)} (hHolds : Holds mt nodes sent)
    (hSame : SameReal mt other) : Holds other nodes sent := by
  refine ⟨hHolds.nodup, ?_, ?_⟩
  · intro m
    rw [hHolds.mem_nodes, hSame.real]
  · rw [← hHolds.sent]
    apply List.map_congr_left
    intro m hMem
    exact hSame.sent m ((hHolds.mem_nodes m).mp hMem)

/- What holds of the table while messages are loaded. -/
structure Filed (mt : Refmsgtable) (forest : Forest Nat) : Prop where
  threaded : Threaded mt forest
  hashed : Hashed mt
  unique : ∀ a b, a < mt.nmsgs → b < mt.nmsgs → mt.msgid a = mt.msgid b → mt.msgid a ≠ [] → a = b
  noRoot : mt.rootptr = none
  noSubjects : ∀ n, mt.subjtable n = []
  noFlags : ∀ m, (mt.msgs m).flag2 = false

namespace Filed

variable {mt other : Refmsgtable} {forest linked : Forest Nat}

theorem relinked (hFiled : Filed mt forest) (hLinks : Relinked mt other)
    (hThreaded : Threaded other linked) : Filed other linked := by
  refine ⟨hThreaded, hFiled.hashed.relinked hLinks, ?_, ?_, ?_, ?_⟩
  · intro a b hFirst hSecond hSame hSome
    have hA : other.msgid a = mt.msgid a := hLinks.msgid a
    have hB : other.msgid b = mt.msgid b := hLinks.msgid b
    rw [hLinks.nmsgs] at hFirst hSecond
    rw [hA] at hSome
    rw [hA, hB] at hSame
    exact hFiled.unique a b hFirst hSecond hSame hSome
  · exact hLinks.rootptr.trans hFiled.noRoot
  · intro n
    rw [hLinks.subjtable]
    exact hFiled.noSubjects n
  · intro m
    rw [hLinks.flag2]
    exact hFiled.noFlags m

/- An assignment to what neither the links nor a chain use. -/
theorem setMsg (hFiled : Filed mt forest) (m : Nat) {f : Refmsg → Refmsg} (hLinks :
      ∀ msg, (f msg).parent = msg.parent ∧ (f msg).firstchild = msg.firstchild ∧
        (f msg).lastchild = msg.lastchild ∧
        (f msg).prevsib = msg.prevsib ∧
        (f msg).nextsib = msg.nextsib)
    (hOthers : ∀ msg, (f msg).msgid = msg.msgid ∧ (f msg).flag2 = msg.flag2) :
    Filed (mt.setMsg m f) forest := by
  have hIds : ∀ x, (mt.setMsg m f).msgid x = mt.msgid x := by
    intro x
    show (Function.update mt.msgs m (f (mt.msgs m)) x).msgid = _
    by_cases hNode : x = m
    · subst hNode
      rw [Function.update_self]
      exact (hOthers _).1
    · rw [Function.update_of_ne hNode]
      rfl
  refine ⟨hFiled.threaded.congr (pointers_setMsg mt m hLinks)
    (Nat.le_refl _), hFiled.hashed.congr rfl rfl hIds, ?_,
    hFiled.noRoot, hFiled.noSubjects, ?_⟩
  · intro a b hFirst hSecond hSame hSome
    rw [hIds] at hSome
    rw [hIds, hIds] at hSame
    exact hFiled.unique a b hFirst hSecond hSame hSome
  · intro x
    show (Function.update mt.msgs m (f (mt.msgs m)) x).flag2 = _
    by_cases hNode : x = m
    · subst hNode
      rw [Function.update_self]
      exact (hOthers _).2.trans (hFiled.noFlags _)
    · rw [Function.update_of_ne hNode]
      exact hFiled.noFlags x

/- A new message whose id, if any, is new. -/
theorem threadallocmsg (hFiled : Filed mt forest) {msgid : List Byte}
    (hFresh : msgid ≠ [] → ∀ m, m < mt.nmsgs → mt.msgid m ≠ msgid) :
    Filed (rfc822Threadallocmsg mt msgid) forest := by
  have hOld : ∀ m, m < mt.nmsgs → (rfc822Threadallocmsg mt msgid).msgid m = mt.msgid m := by
    intro m hNode
    unfold Refmsgtable.msgid
    rw [msgs_threadallocmsg_of_ne _ _ (Nat.ne_of_lt hNode)]
  have hNew : (rfc822Threadallocmsg mt msgid).msgid mt.nmsgs = msgid := by
    unfold Refmsgtable.msgid
    rw [msgs_threadallocmsg_self]
  have hSplit : ∀ m, m < (rfc822Threadallocmsg mt msgid).nmsgs → m < mt.nmsgs ∨ m = mt.nmsgs :=
    fun m hNode => Nat.lt_succ_iff_lt_or_eq.mp hNode
  refine ⟨hFiled.threaded.threadallocmsg msgid,
    hFiled.hashed.threadallocmsg msgid, ?_, hFiled.noRoot,
    hFiled.noSubjects, ?_⟩
  · intro a b hFirst hSecond hSame hSome
    rcases hSplit a hFirst with hA | rfl
    · rw [hOld a hA] at hSame hSome
      rcases hSplit b hSecond with hB | rfl
      · rw [hOld b hB] at hSame
        exact hFiled.unique a b hA hB hSame hSome
      · rw [hNew] at hSame
        exact absurd hSame (hFresh (hSame ▸ hSome) a hA)
    · rw [hNew] at hSame hSome
      rcases hSplit b hSecond with hB | rfl
      · rw [hOld b hB] at hSame
        exact absurd hSame.symm (hFresh hSome b hB)
      · rfl
  · intro m
    by_cases hNode : m = mt.nmsgs
    · subst hNode
      rw [msgs_threadallocmsg_self]
    · rw [msgs_threadallocmsg_of_ne _ _ hNode]
      exact hFiled.noFlags m

end Filed

theorem setMsg_msgs_of_ne (mt : Refmsgtable) {m x : Nat} (f : Refmsg → Refmsg)
    (hOther : x ≠ m) : (mt.setMsg m f).msgs x = mt.msgs x :=
  Function.update_of_ne hOther _ _

theorem setMsg_msgs_self (mt : Refmsgtable) (m : Nat) (f : Refmsg → Refmsg) :
    (mt.setMsg m f).msgs m = f (mt.msgs m) :=
  Function.update_self _ _ _

theorem setMsg_twice (mt : Refmsgtable) (m : Nat) (f g : Refmsg → Refmsg) :
    (mt.setMsg m f).setMsg m g = mt.setMsg m fun msg => g (f msg) := by
  unfold Refmsgtable.setMsg
  simp only [Function.update_self, Function.update_idem]

variable {mt : Refmsgtable} {forest : Forest Nat} {msgid : List Byte}

/- The message of a lookup, when there is one. -/
theorem lookup_eq_some (hFiled : Filed mt forest) {m : Nat} (hFound : (if msgid = [] then
        none
      else
        rfc822Threadsearchmsg mt msgid) = some m) :
    msgid ≠ [] ∧ m < mt.nmsgs ∧ mt.msgid m = msgid := by
  by_cases hEmpty : msgid = []
  · rw [if_pos hEmpty] at hFound
    cases hFound
  · rw [if_neg hEmpty] at hFound
    exact ⟨hEmpty, hFiled.hashed.search_eq_some hFound⟩

theorem lookup_eq_none (hFiled : Filed mt forest) (hNone : (if msgid = [] then
        none
      else
        rfc822Threadsearchmsg mt msgid) = none) (hSome : msgid ≠ []) (m : Nat)
    (hNode : m < mt.nmsgs) : mt.msgid m ≠ msgid := by
  rw [if_neg hSome] at hNone
  exact hFiled.hashed.search_eq_none hNone hNode

/- A new dummy is no real message. -/
theorem sameReal_dummy (mt : Refmsgtable) (msgid : List Byte) {f : Refmsg → Refmsg}
    (hDummy : ∀ msg, (f msg).isdummy = true) :
    SameReal mt ((rfc822Threadallocmsg mt msgid).setMsg mt.nmsgs f) := by
  constructor
  · intro m
    by_cases hNode : m = mt.nmsgs
    · subst hNode
      constructor
      · rintro ⟨_, hReal⟩
        rw [setMsg_msgs_self, hDummy] at hReal
        cases hReal
      · rintro ⟨hLess, _⟩
        exact absurd hLess (Nat.lt_irrefl _)
    · unfold Refmsgtable.Real
      rw [setMsg_msgs_of_ne _ _ hNode, msgs_threadallocmsg_of_ne _ _ hNode]
      refine and_congr_left fun _ => ?_
      show m < mt.nmsgs + 1 ↔ m < mt.nmsgs
      omega
  · rintro m ⟨hLess, _⟩
    have hNode := Nat.ne_of_lt hLess
    rw [setMsg_msgs_of_ne _ _ hNode, msgs_threadallocmsg_of_ne _ _ hNode]

theorem refMsg_filed (hFiled : Filed mt forest) (msgid : List Byte) :
    Filed (refMsg mt msgid).1 forest ∧ SameReal mt (refMsg mt msgid).1 ∧
      (refMsg mt msgid).2 < (refMsg mt msgid).1.nmsgs ∧
      mt.nmsgs ≤ (refMsg mt msgid).1.nmsgs := by
  unfold refMsg
  simp only []
  generalize hLookup : (if msgid = [] then
      none
    else
      rfc822Threadsearchmsg mt msgid) = found
  cases found with
  | some m =>
    rcases lookup_eq_some hFiled hLookup with ⟨_, hNode, _⟩
    exact ⟨hFiled, SameReal.refl mt, hNode, Nat.le_refl _⟩
  | none =>
    have hAlloc := hFiled.threadallocmsg (lookup_eq_none hFiled hLookup)
    have hMarked : Filed ((rfc822Threadallocmsg mt msgid).setMsg mt.nmsgs
          fun m => { m with isdummy := true }) forest :=
      hAlloc.setMsg mt.nmsgs (fun _ => ⟨rfl, rfl, rfl, rfl, rfl⟩) fun _ => ⟨rfl, rfl⟩
    have hSame : SameReal mt ((rfc822Threadallocmsg mt msgid).setMsg mt.nmsgs
          fun m => { m with isdummy := true }) :=
      sameReal_dummy mt msgid fun _ => rfl
    exact ⟨hMarked, hSame, Nat.lt_succ_self _, Nat.le_succ _⟩

theorem linkRef_relinked (mt : Refmsgtable) (msg last : Nat) :
    Relinked mt (linkRef mt msg last) := by
  unfold linkRef
  split
  · exact Relinked.refl mt
  · exact Relinked.linkparent mt msg last

/- A link to the last reference keeps the forest. -/
theorem linkRef_filed (hFiled : Filed mt forest) {msg last : Nat}
    (hTop : forest.parent msg = none) (hNode : msg < mt.nmsgs) (hLast : last < mt.nmsgs) :
    ∃ linked, Filed (linkRef mt msg last) linked := by
  have hLinks := linkRef_relinked mt msg last
  unfold linkRef at hLinks ⊢
  split
  · exact ⟨forest, hFiled⟩
  · rename_i hClear
    have hApart := hFiled.threaded.not_above_of_idAbove (Bool.not_eq_true _ |>.mp hClear)
    rw [if_neg hClear] at hLinks
    exact ⟨_, hFiled.relinked hLinks (hFiled.threaded.linkparent hTop hApart hNode hLast)⟩

/- References add dummies, and links without a loop. -/
theorem dorefs_filed (hFiled : Filed mt forest) {lastmsg : Option Nat}
    (hLast : ∀ last, lastmsg = some last → last < mt.nmsgs) (refs : List (List Byte)) :
    ∃ linked, Filed (dorefs mt lastmsg refs).1 linked ∧ SameReal mt (dorefs mt lastmsg refs).1 ∧
      ∀ last, (dorefs mt lastmsg refs).2 = some last → last < (dorefs mt lastmsg refs).1.nmsgs := by
  induction refs generalizing mt forest lastmsg with
  | nil => exact ⟨forest, hFiled, SameReal.refl mt, hLast⟩
  | cons msgid rest ih =>
    rcases refMsg_filed hFiled msgid with ⟨hRef, hSame, hNode, hCount⟩
    unfold dorefs
    simp only []
    generalize refMsg mt msgid = ref at hRef hSame hNode hCount ⊢
    have hNow : ∀ last, some ref.2 = some last → last < ref.1.nmsgs := by
      rintro last ⟨⟩
      exact hNode
    cases lastmsg with
    | none =>
      rcases ih hRef hNow with ⟨linked, hLinked, hReal, hEnd⟩
      exact ⟨linked, hLinked, hSame.trans hReal, hEnd⟩
    | some last =>
      simp only []
      by_cases hParent : (ref.1.msgs ref.2).parent = none
      · rw [if_neg (not_not_intro hParent)]
        have hTop : forest.parent ref.2 = none := (hRef.threaded.parent ref.2).symm.trans hParent
        have hBound := Nat.lt_of_lt_of_le (hLast last rfl) hCount
        rcases linkRef_filed hRef hTop hNode hBound with ⟨joined, hJoined⟩
        have hLinks := linkRef_relinked ref.1 ref.2 last
        have hBelow : ∀ x, some ref.2 = some x → x < (linkRef ref.1 ref.2 last).nmsgs := by
          intro x hX
          rw [hLinks.nmsgs]
          exact hNow x hX
        rcases ih hJoined hBelow with ⟨linked, hLinked, hReal, hEnd⟩
        exact ⟨linked, hLinked, (hSame.trans hLinks.sameReal).trans hReal, hEnd⟩
      · rw [if_pos hParent]
        rcases ih hRef hNow with ⟨linked, hLinked, hReal, hEnd⟩
        exact ⟨linked, hLinked, hSame.trans hReal, hEnd⟩

------------
-- The Message Of A Call
------------

/- What a call makes its message: a new real one, on top. -/
structure Owned (mt other : Refmsgtable) (own : Nat) (msgid : List Byte) : Prop where
  fresh : ¬ mt.Real own
  real : ∀ m, other.Real m ↔ mt.Real m ∨ m = own
  sent : ∀ m, mt.Real m → (other.msgs m).sent = (mt.msgs m).sent
  id : ((∃ m, mt.Real m ∧ mt.msgid m = msgid) → other.msgid own = []) ∧
    ((¬ ∃ m, mt.Real m ∧ mt.msgid m = msgid) → other.msgid own = msgid)

theorem Owned.relinked {mt other last : Refmsgtable} {own : Nat}
    (hOwned : Owned mt other own msgid) (hLinks : Relinked other last) :
    Owned mt last own msgid := by
  have hId : last.msgid own = other.msgid own := hLinks.msgid own
  constructor
  · exact hOwned.fresh
  · intro m
    exact (hLinks.real m).trans (hOwned.real m)
  · intro m hReal
    exact (hLinks.sent m).trans (hOwned.sent m hReal)
  · rw [hId]
    exact hOwned.id

/- A table with one new message. -/
theorem owned_threadallocmsg {mt other : Refmsgtable} (hLinks : Relinked mt other)
    {msgid newmsgid : List Byte}
    (hId :
      ((∃ m, mt.Real m ∧ mt.msgid m = msgid) → newmsgid = []) ∧
      ((¬ ∃ m, mt.Real m ∧ mt.msgid m = msgid) → newmsgid = msgid)) :
    Owned mt (rfc822Threadallocmsg other newmsgid)
      other.nmsgs msgid := by
  have hCount := hLinks.nmsgs
  have hNew : (rfc822Threadallocmsg other newmsgid).msgs mt.nmsgs = { msgid := newmsgid } := by
    rw [← hCount]
    exact msgs_threadallocmsg_self other newmsgid
  have hOld : ∀ m, m ≠ mt.nmsgs → (rfc822Threadallocmsg other newmsgid).msgs m =
          other.msgs m := by
    intro m hNode
    rw [← hCount] at hNode
    exact msgs_threadallocmsg_of_ne other newmsgid hNode
  rw [hCount]
  constructor
  · rintro ⟨hLess, _⟩
    exact Nat.lt_irrefl _ hLess
  · intro m
    by_cases hNode : m = mt.nmsgs
    · subst hNode
      refine iff_of_true ⟨?_, ?_⟩ (Or.inr rfl)
      · rw [nmsgs_threadallocmsg, hCount]
        exact Nat.lt_succ_self _
      · rw [hNew]
    · rw [or_iff_left hNode]
      unfold Refmsgtable.Real
      rw [hOld m hNode, hLinks.isdummy]
      refine and_congr_left fun _ => ?_
      rw [nmsgs_threadallocmsg, hCount]
      omega
  · rintro m ⟨hLess, _⟩
    rw [hOld m (Nat.ne_of_lt hLess)]
    exact hLinks.sent m
  · unfold Refmsgtable.msgid at hId ⊢
    rw [hNew]
    exact hId

/- An assignment of `isdummy` makes a dummy real. -/
theorem owned_wake {own : Nat} (hNode : own < mt.nmsgs)
    (hDummy : (mt.msgs own).isdummy = true) (hId : mt.msgid own = msgid)
    (hOnly : ¬ ∃ m, mt.Real m ∧ mt.msgid m = msgid) :
    Owned mt (mt.setMsg own fun m => { m with isdummy := false }) own
      msgid := by
  constructor
  · rintro ⟨_, hReal⟩
    rw [hDummy] at hReal
    cases hReal
  · intro m
    by_cases hSelf : m = own
    · subst hSelf
      refine iff_of_true ⟨hNode, ?_⟩ (Or.inr rfl)
      rw [setMsg_msgs_self]
    · rw [or_iff_left hSelf]
      unfold Refmsgtable.Real
      rw [setMsg_msgs_of_ne _ _ hSelf]
      rfl
  · rintro m ⟨_, hReal⟩
    have hSelf : m ≠ own := by
      rintro rfl
      rw [hDummy] at hReal
      cases hReal
    rw [setMsg_msgs_of_ne _ _ hSelf]
  · refine ⟨fun hSome => absurd hSome hOnly, fun _ => ?_⟩
    unfold Refmsgtable.msgid at hId ⊢
    rw [setMsg_msgs_self]
    exact hId

theorem ownMsg_filed (hFiled : Filed mt forest) (newmsgid : List Byte) :
    ∃ linked, Filed (ownMsg mt newmsgid).1 linked ∧ linked.parent (ownMsg mt newmsgid).2 = none ∧
      (ownMsg mt newmsgid).2 < (ownMsg mt newmsgid).1.nmsgs ∧
      mt.nmsgs ≤ (ownMsg mt newmsgid).1.nmsgs ∧
      Owned mt (ownMsg mt newmsgid).1 (ownMsg mt newmsgid).2 newmsgid := by
  unfold ownMsg
  simp only []
  generalize hLookup : (if newmsgid = [] then
      none
    else
      rfc822Threadsearchmsg mt newmsgid) = found
  cases found with
  | none =>
    have hFresh := lookup_eq_none hFiled hLookup
    refine ⟨forest, hFiled.threadallocmsg hFresh,
      hFiled.threaded.parent_of_nmsgs_le (Nat.le_refl _),
      Nat.lt_succ_self _, Nat.le_succ _,
      owned_threadallocmsg (Relinked.refl mt) ⟨?_, ?_⟩⟩
    · rintro ⟨m, ⟨hNode, _⟩, hSame⟩
      by_contra hSome
      exact hFresh hSome m hNode hSame
    · exact fun _ => rfl
  | some msg =>
    rcases lookup_eq_some hFiled hLookup with ⟨hSome, hNode, hId⟩
    simp only []
    by_cases hDummy : (mt.msgs msg).isdummy = true
    · rw [if_pos hDummy]
      have hOnly : ¬ ∃ m, mt.Real m ∧ mt.msgid m = newmsgid := by
        rintro ⟨m, ⟨hLess, hReal⟩, hSame⟩
        have hEq := hFiled.unique m msg hLess hNode (hSame.trans hId.symm) (hSame.symm ▸ hSome)
        rw [hEq, hDummy] at hReal
        cases hReal
      have hAwake : Filed (mt.setMsg msg fun m => { m with isdummy := false }) forest :=
        hFiled.setMsg msg (fun _ => ⟨rfl, rfl, rfl, rfl, rfl⟩) fun _ => ⟨rfl, rfl⟩
      have hOwned := owned_wake hNode hDummy hId hOnly
      have hBound : msg < (mt.setMsg msg fun m => { m with isdummy := false }).nmsgs := hNode
      have hCount : mt.nmsgs ≤ (mt.setMsg msg fun m =>
          { m with isdummy := false }).nmsgs := Nat.le_refl _
      generalize (mt.setMsg msg fun m =>
        { m with isdummy := false }) = awake
        at hAwake hOwned hBound hCount ⊢
      have hLinks := Relinked.breakparent awake msg
      rcases hAwake.threaded.detach msg with ⟨detached, hDetached, hParent⟩
      refine ⟨detached, hAwake.relinked hLinks hDetached, ?_, ?_, ?_, hOwned.relinked hLinks⟩
      · rw [hParent, Function.update_self]
      · rw [hLinks.nmsgs]
        exact hBound
      · rw [hLinks.nmsgs]
        exact hCount
    · rw [if_neg hDummy]
      have hReal : mt.Real msg := ⟨hNode, Bool.not_eq_true _ |>.mp hDummy⟩
      rcases hFiled.threaded.breakChildren msg with ⟨emptied, hEmptied⟩
      rcases hEmptied.detach msg with ⟨detached, hDetached, _⟩
      have hLinks :=
        (Relinked.breakChildren mt.nmsgs mt msg).trans (Relinked.breakparent _ msg)
      have hAlone := hFiled.relinked hLinks hDetached
      have hOwned : Owned mt _ _ newmsgid :=
        owned_threadallocmsg hLinks ⟨fun _ => rfl, fun hNone => absurd ⟨msg, hReal, hId⟩ hNone⟩
      have hNoId :
          ([] : List Byte) ≠ [] → ∀ m,
            m < (breakparent (breakChildren mt.nmsgs mt msg) msg).nmsgs →
            (breakparent (breakChildren mt.nmsgs mt msg) msg).msgid m ≠ [] :=
        fun hFalse => absurd rfl hFalse
      refine ⟨detached, hAlone.threadallocmsg hNoId, ?_, ?_, ?_, hOwned⟩
      · exact hDetached.parent_of_nmsgs_le (Nat.le_refl _)
      · exact Nat.lt_succ_self _
      · rw [nmsgs_threadallocmsg, hLinks.nmsgs]
        exact Nat.le_succ _

/- The same real messages before. -/
theorem Owned.of_sameReal {mt mid other : Refmsgtable} {own : Nat}
    (hOwned : Owned mid other own msgid) (hSame : SameReal mt mid) :
    Owned mt other own msgid := by
  have hId : ∀ m, mt.Real m → mid.msgid m = mt.msgid m :=
    fun m hReal => congrArg Prod.fst (hSame.sent m hReal)
  have hThere : (∃ m, mid.Real m ∧ mid.msgid m = msgid) ↔ ∃ m, mt.Real m ∧ mt.msgid m = msgid := by
    constructor
    · rintro ⟨m, hReal, hEq⟩
      have hOld := (hSame.real m).mp hReal
      exact ⟨m, hOld, (hId m hOld).symm.trans hEq⟩
    · rintro ⟨m, hReal, hEq⟩
      exact ⟨m, (hSame.real m).mpr hReal, (hId m hReal).trans hEq⟩
  constructor
  · intro hReal
    exact hOwned.fresh ((hSame.real own).mpr hReal)
  · intro m
    rw [hOwned.real m, hSame.real m]
  · intro m hReal
    have hMid := (hSame.real m).mpr hReal
    exact (hOwned.sent m hMid).trans (hSame.sent m hReal)
  · rw [← hThere]
    exact hOwned.id

theorem dorefcreate_filed (hFiled : Filed mt forest) (newmsgid : List Byte)
    (refs : List (List Byte)) :
    ∃ linked, Filed (dorefcreate mt newmsgid refs).1 linked ∧
      Owned mt (dorefcreate mt newmsgid refs).1 (dorefcreate mt newmsgid refs).2 newmsgid := by
  have hNoLast : ∀ last, (none : Option Nat) = some last → last < mt.nmsgs := by
    rintro last ⟨⟩
  rcases dorefs_filed hFiled hNoLast refs with ⟨joined, hJoined, hSame, hEnd⟩
  unfold dorefcreate
  simp only []
  generalize dorefs mt none refs = linked at hJoined hSame hEnd ⊢
  rcases ownMsg_filed hJoined newmsgid with ⟨mine, hMine, hTop, hNode, hCount, hOwned⟩
  generalize ownMsg linked.1 newmsgid = own at hMine hTop hNode hCount hOwned ⊢
  replace hOwned := hOwned.of_sameReal hSame
  cases hLast : linked.2 with
  | none => exact ⟨mine, hMine, hOwned⟩
  | some last =>
    have hBound := Nat.lt_of_lt_of_le (hEnd last hLast) hCount
    rcases linkRef_filed hMine hTop hNode hBound with ⟨final, hFinal⟩
    exact ⟨final, hFinal, hOwned.relinked (linkRef_relinked own.1 own.2 last)⟩

/-
  The id that a call's message gets: none when an earlier call
  has the same.
-/
def ownId (earlier : List Headers) (h : Headers) : List Byte :=
  if h.msgid ∈ earlier.map Headers.msgid then [] else h.msgid

/- What the messages of the calls carry. -/
def sentBy : List Headers → List Headers → List (List Byte × Nat × Int)
  | _, [] => []
  | earlier, h :: rest => (ownId earlier h, h.seqnum, h.timestamp) :: sentBy (earlier ++ [h]) rest

theorem sentBy_concat (earlier calls : List Headers) (h : Headers) :
    sentBy earlier (calls ++ [h]) = sentBy earlier calls ++
        [(ownId (earlier ++ calls) h, h.seqnum, h.timestamp)] := by
  induction calls generalizing earlier with
  | nil =>
    rw [List.append_nil]
    rfl
  | cons first rest ih =>
    show _ :: sentBy (earlier ++ [first]) (rest ++ [h]) = _
    rw [ih, List.append_assoc, List.singleton_append]
    rfl

/- An id is carried if and only if some call has it. -/
theorem mem_sentBy (calls : List Headers) (hSome : msgid ≠ []) :
    (∃ s, s ∈ sentBy [] calls ∧ s.1 = msgid) ↔ msgid ∈ calls.map Headers.msgid := by
  induction calls using List.reverseRecOn with
  | nil =>
    constructor
    · rintro ⟨s, hMem, _⟩
      cases hMem
    · intro hMem
      cases hMem
  | append_singleton calls h ih =>
    rw [sentBy_concat, List.map_append, List.mem_append, ← ih, List.nil_append]
    constructor
    · rintro ⟨s, hMem, hId⟩
      rcases List.mem_append.mp hMem with hOld | hNew
      · exact Or.inl ⟨s, hOld, hId⟩
      · rw [List.mem_singleton.mp hNew] at hId
        right
        unfold ownId at hId
        split at hId
        · exact absurd hId.symm hSome
        · exact List.mem_singleton.mpr hId.symm
    · rintro (⟨s, hOld, hId⟩ | hNew)
      · exact ⟨s, List.mem_append_left _ hOld, hId⟩
      · have hId : h.msgid = msgid := (List.mem_singleton.mp hNew).symm
        by_cases hKnown : h.msgid ∈ calls.map Headers.msgid
        · rw [hId, ← ih] at hKnown
          rcases hKnown with ⟨s, hOld, hSame⟩
          exact ⟨s, List.mem_append_left _ hOld, hSame⟩
        · refine ⟨_, List.mem_append_right _ List.mem_cons_self, ?_⟩
          unfold ownId
          rw [if_neg hKnown]
          exact hId

/- What holds of the table after some calls. -/
structure Loaded (mt : Refmsgtable) (forest : Forest Nat) (calls : List Headers)
    (nodes : List Nat) :
    Prop extends Holds mt nodes (sentBy [] calls) where
  filed : Filed mt forest

/- A real message has the id of a call. -/
theorem Loaded.known {calls : List Headers} {nodes : List Nat}
    (hLoaded : Loaded mt forest calls nodes) (hSome : msgid ≠ []) :
    (∃ m, mt.Real m ∧ mt.msgid m = msgid) ↔ msgid ∈ calls.map Headers.msgid := by
  rw [← mem_sentBy calls hSome, ← hLoaded.sent]
  constructor
  · rintro ⟨m, hReal, hId⟩
    exact ⟨_, List.mem_map_of_mem ((hLoaded.mem_nodes m).mpr hReal), hId⟩
  · rintro ⟨s, hMem, hId⟩
    rcases List.mem_map.mp hMem with ⟨m, hNode, rfl⟩
    exact ⟨m, (hLoaded.mem_nodes m).mp hNode, hId⟩

theorem Loaded.threadalloc (forest : Forest Nat) (hEmpty : Threaded rfc822Threadalloc forest) :
    Loaded rfc822Threadalloc forest [] [] := by
  refine ⟨⟨List.nodup_nil, ?_, rfl⟩, ⟨hEmpty,
    Hashed.threadalloc, ?_, rfl, fun _ => rfl, fun _ => rfl⟩⟩
  · intro m
    refine iff_of_false List.not_mem_nil ?_
    rintro ⟨hLess, _⟩
    exact Nat.not_lt_zero m hLess
  · intro a b hFirst
    exact absurd hFirst (Nat.not_lt_zero a)

/- One more call adds one more real message. -/
theorem Loaded.threadmsg {calls : List Headers} {nodes : List Nat}
    (hLoaded : Loaded mt forest calls nodes) (h : Headers) :
    ∃ linked more, Loaded (rfc822Threadmsg mt h) linked (calls ++ [h])
        more := by
  rcases dorefcreate_filed hLoaded.filed h.msgid
    (headerAddrs h.refhdr) with ⟨linked, hFiled, hOwned⟩
  unfold rfc822Threadmsg
  simp only []
  generalize dorefcreate mt h.msgid (headerAddrs h.refhdr) = created at hFiled hOwned ⊢
  have hId : created.1.msgid created.2 = ownId calls h := by
    unfold ownId
    by_cases hNone : h.msgid = []
    · rw [hNone] at hOwned ⊢
      rw [ite_self]
      by_cases hThere : ∃ m, mt.Real m ∧ mt.msgid m = []
      · exact hOwned.id.1 hThere
      · exact hOwned.id.2 hThere
    · have hKnown := hLoaded.known hNone
      split
      · rename_i hThere
        exact hOwned.id.1 (hKnown.mpr hThere)
      · rename_i hThere
        exact hOwned.id.2 fun hOther => hThere (hKnown.mp hOther)
  have hDone : Filed (created.1.setMsg created.2 fun m =>
        { m with
          subj := h.subjheader.orElse fun _ => m.subj
          timestamp := h.timestamp
          seqnum := h.seqnum }) linked :=
    hFiled.setMsg created.2 (fun _ => ⟨rfl, rfl, rfl, rfl, rfl⟩) fun _ => ⟨rfl, rfl⟩
  have hFresh : created.2 ∉ nodes := by
    intro hMem
    exact hOwned.fresh ((hLoaded.mem_nodes _).mp hMem)
  refine ⟨linked, nodes ++ [created.2], ⟨?_, ?_, ?_⟩, hDone⟩
  · rw [← List.concat_eq_append]
    exact hLoaded.nodup.concat hFresh
  · intro m
    rw [List.mem_append, List.mem_singleton, hLoaded.mem_nodes, ← hOwned.real]
    by_cases hSelf : m = created.2
    · subst hSelf
      unfold Refmsgtable.Real
      rw [setMsg_msgs_self]
      rfl
    · unfold Refmsgtable.Real
      rw [setMsg_msgs_of_ne _ _ hSelf]
      rfl
  · rw [sentBy_concat, List.map_append, ← hLoaded.sent, List.nil_append]
    congr 1
    · apply List.map_congr_left
      intro m hMem
      have hSelf : m ≠ created.2 := by
        rintro rfl
        exact hFresh hMem
      rw [setMsg_msgs_of_ne _ _ hSelf]
      exact hOwned.sent m ((hLoaded.mem_nodes m).mp hMem)
    · rw [List.map_singleton, setMsg_msgs_self, ← hId]
      rfl

/- The forest without links. -/
def looseForest : Forest Nat where
  parent := fun _ => none
  children := fun _ => []
  mem_children := by
    intro p m
    exact iff_of_false List.not_mem_nil (by rintro ⟨⟩)
  nodup := fun _ => List.nodup_nil
  ranked := by
    refine ⟨fun _ => 0, ?_⟩
    rintro x y ⟨⟩

theorem threadalloc_threaded : Threaded rfc822Threadalloc looseForest := by
  refine ⟨⟨fun _ => rfl, fun _ => rfl, fun _ => rfl, ?_, ?_⟩, ?_⟩
  · intro p front m back hSplit
    cases front <;> cases hSplit
  · intro p front m back hSplit
    cases front <;> cases hSplit
  · rintro m p ⟨⟩

/- Any sequence of calls on a fresh table. -/
theorem loaded (calls : List Headers) : ∃ forest nodes,
      Loaded (calls.foldl rfc822Threadmsg rfc822Threadalloc)
        forest calls nodes := by
  induction calls using List.reverseRecOn with
  | nil => exact ⟨looseForest, [], Loaded.threadalloc _ threadalloc_threaded⟩
  | append_singleton calls h ih =>
    rcases ih with ⟨forest, nodes, hLoaded⟩
    rw [List.foldl_concat]
    exact hLoaded.threadmsg h

end Wmail.Rfc822
