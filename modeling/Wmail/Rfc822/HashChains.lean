import Wmail.Rfc822.ThreadLinks

/-
  Hash chains of messages and of subjects.

  A search of a chain stops at the first greater entry, which
  is right because insertion keeps every chain sorted.

  Key theorems include:
    * `Hashed.search_eq_some`
    * `Hashed.search_eq_none`
-/

namespace Wmail.Rfc822

theorem strcmp_eq_iff {a b : List Byte} : strcmp a b = .eq ↔ a = b :=
  Std.LawfulEqOrd.compare_eq_iff_eq

instance : Std.TransCmp strcmp :=
  inferInstanceAs (Std.TransCmp (compare : List Byte → List Byte → Ordering))

theorem strcmp_gt_of_isLE {a b c : List Byte} (hFirst : strcmp a b = .gt)
    (hSecond : (strcmp a c).isLE) : c ≠ b := by
  rintro rfl
  rw [hFirst] at hSecond
  cases hSecond

section Chains

variable {α : Type} {key : α → List Byte}

/- The keys of a chain do not fall. -/
def ChainSorted (key : α → List Byte) (chain : List α) : Prop :=
  chain.Pairwise fun a b => (strcmp (key a) (key b)).isLE

theorem chainSearch_eq_some {wanted : List Byte} {chain : List α} {h : α}
    (hFound : chainSearch key wanted chain = some h) : h ∈ chain ∧ key h = wanted := by
  induction chain with
  | nil => cases hFound
  | cons x rest ih =>
    unfold chainSearch at hFound
    cases hCompare : strcmp (key x) wanted with
    | eq =>
      rw [hCompare] at hFound
      cases hFound
      exact ⟨List.mem_cons_self, strcmp_eq_iff.mp hCompare⟩
    | gt =>
      rw [hCompare] at hFound
      cases hFound
    | lt =>
      rw [hCompare] at hFound
      rcases ih hFound with ⟨hMem, hKey⟩
      exact ⟨List.mem_cons_of_mem x hMem, hKey⟩

theorem chainSearch_eq_none {wanted : List Byte} {chain : List α}
    (hSorted : ChainSorted key chain) (hNone : chainSearch key wanted chain = none) {h : α}
    (hMem : h ∈ chain) : key h ≠ wanted := by
  induction chain with
  | nil => cases hMem
  | cons x rest ih =>
    rcases List.pairwise_cons.mp hSorted with ⟨hHead, hRest⟩
    unfold chainSearch at hNone
    cases hCompare : strcmp (key x) wanted with
    | eq =>
      rw [hCompare] at hNone
      cases hNone
    | gt =>
      -- every later entry is greater, too
      rcases List.mem_cons.mp hMem with rfl | hLater
      · intro hSame
        rw [strcmp_eq_iff.mpr hSame] at hCompare
        cases hCompare
      · exact strcmp_gt_of_isLE hCompare (hHead h hLater)
    | lt =>
      rw [hCompare] at hNone
      rcases List.mem_cons.mp hMem with rfl | hLater
      · intro hSame
        rw [strcmp_eq_iff.mpr hSame] at hCompare
        cases hCompare
      · exact ih hRest hNone hLater

theorem chainInsert_perm (key : α → List Byte) (new : α) (chain : List α) :
    (chainInsert key new chain).Perm (new :: chain) := by
  induction chain with
  | nil => exact List.Perm.refl _
  | cons x rest ih =>
    unfold chainInsert
    split
    · exact List.Perm.refl _
    · exact (ih.cons x).trans (List.Perm.swap new x rest)

theorem mem_chainInsert {new h : α} {chain : List α} :
    h ∈ chainInsert key new chain ↔ h = new ∨ h ∈ chain :=
  (chainInsert_perm key new chain).mem_iff.trans List.mem_cons

theorem ChainSorted.insert {chain : List α} (hSorted : ChainSorted key chain) (new : α) :
    ChainSorted key (chainInsert key new chain) := by
  induction chain with
  | nil => exact List.pairwise_singleton _ _
  | cons x rest ih =>
    rcases List.pairwise_cons.mp hSorted with ⟨hHead, hRest⟩
    unfold chainInsert
    split
    · rename_i hGreater
      have hNew : (strcmp (key new) (key x)).isLE :=
        Ordering.isLE_of_eq_lt (Std.OrientedCmp.lt_of_gt hGreater)
      refine List.pairwise_cons.mpr ⟨?_, hSorted⟩
      intro y hMem
      rcases List.mem_cons.mp hMem with rfl | hLater
      · exact hNew
      · exact Std.TransCmp.isLE_trans hNew (hHead y hLater)
    · rename_i hNotGreater
      refine List.pairwise_cons.mpr ⟨?_, ih hRest⟩
      intro y hMem
      rcases mem_chainInsert.mp hMem with rfl | hLater
      · cases hCompare : strcmp (key x) (key y) with
        | lt => rfl
        | eq => rfl
        | gt => exact absurd hCompare hNotGreater
      · exact hHead y hLater

theorem ChainSorted.congr {other : α → List Byte} {chain : List α}
    (hSorted : ChainSorted key chain) (hSame : ∀ h, h ∈ chain → other h = key h) :
    ChainSorted other chain := by
  apply List.Pairwise.imp_of_mem _ hSorted
  intro a b hFirst hSecond hLe
  rw [hSame a hFirst, hSame b hSecond]
  exact hLe

end Chains

/- The id of a message. -/
def Refmsgtable.msgid (mt : Refmsgtable) (m : Nat) : List Byte :=
  (mt.msgs m).msgid

/- Every message is in its chain, and every chain is sorted. -/
structure Hashed (mt : Refmsgtable) : Prop where
  sorted : ∀ n, ChainSorted mt.msgid (mt.hashtable n)
  complete : ∀ m, m < mt.nmsgs → m ∈ mt.hashtable (hashmsgid (mt.msgid m))
  sound : ∀ n m, m ∈ mt.hashtable n → m < mt.nmsgs

namespace Hashed

variable {mt other : Refmsgtable}

theorem congr (hHashed : Hashed mt) (hCount : other.nmsgs = mt.nmsgs)
    (hTable : other.hashtable = mt.hashtable) (hSame : ∀ m, other.msgid m = mt.msgid m) :
    Hashed other := by
  constructor
  · intro n
    rw [hTable]
    exact (hHashed.sorted n).congr fun h _ => hSame h
  · intro m hNode
    rw [hTable, hSame]
    exact hHashed.complete m (hCount ▸ hNode)
  · intro n m hMem
    rw [hTable] at hMem
    rw [hCount]
    exact hHashed.sound n m hMem

theorem relinked (hHashed : Hashed mt) (hLinks : Relinked mt other) : Hashed other :=
  hHashed.congr hLinks.nmsgs hLinks.hashtable hLinks.msgid

theorem search_eq_some (hHashed : Hashed mt) {msgid : List Byte} {m : Nat}
    (hFound : rfc822Threadsearchmsg mt msgid = some m) : m < mt.nmsgs ∧ mt.msgid m = msgid := by
  rcases chainSearch_eq_some hFound with ⟨hMem, hKey⟩
  exact ⟨hHashed.sound _ m hMem, hKey⟩

theorem search_eq_none (hHashed : Hashed mt) {msgid : List Byte}
    (hNone : rfc822Threadsearchmsg mt msgid = none) {m : Nat} (hNode : m < mt.nmsgs) :
    mt.msgid m ≠ msgid := by
  intro hSame
  have hMem := hHashed.complete m hNode
  rw [hSame] at hMem
  exact chainSearch_eq_none (hHashed.sorted _) hNone hMem hSame

theorem threadalloc : Hashed rfc822Threadalloc := by
  constructor
  · intro n
    exact List.Pairwise.nil
  · intro m hNode
    exact absurd hNode (Nat.not_lt_zero m)
  · intro n m hMem
    cases hMem

end Hashed

/- An allocated message. -/
@[simp]
theorem nmsgs_threadallocmsg (mt : Refmsgtable) (msgid : List Byte) :
    (rfc822Threadallocmsg mt msgid).nmsgs = mt.nmsgs + 1 :=
  rfl

theorem msgs_threadallocmsg (mt : Refmsgtable) (msgid : List Byte) :
    (rfc822Threadallocmsg mt msgid).msgs = Function.update mt.msgs mt.nmsgs { msgid } :=
  rfl

theorem msgs_threadallocmsg_of_ne (mt : Refmsgtable) (msgid : List Byte) {m : Nat}
    (hOther : m ≠ mt.nmsgs) : (rfc822Threadallocmsg mt msgid).msgs m = mt.msgs m := by
  rw [msgs_threadallocmsg, Function.update_of_ne hOther]

theorem msgs_threadallocmsg_self (mt : Refmsgtable) (msgid : List Byte) :
    (rfc822Threadallocmsg mt msgid).msgs mt.nmsgs = { msgid } := by
  rw [msgs_threadallocmsg, Function.update_self]

theorem hashtable_threadallocmsg (mt : Refmsgtable) (msgid : List Byte) :
    (rfc822Threadallocmsg mt msgid).hashtable =
      Function.update mt.hashtable (hashmsgid msgid)
        (chainInsert (rfc822Threadallocmsg mt msgid).msgid
          mt.nmsgs (mt.hashtable (hashmsgid msgid))) :=
  rfl

theorem Hashed.threadallocmsg {mt : Refmsgtable} (hHashed : Hashed mt) (msgid : List Byte) :
    Hashed (rfc822Threadallocmsg mt msgid) := by
  have hOld : ∀ n m, m ∈ mt.hashtable n → (rfc822Threadallocmsg mt msgid).msgid m =
          mt.msgid m := by
    intro n m hMem
    have hNode := hHashed.sound n m hMem
    unfold Refmsgtable.msgid
    rw [msgs_threadallocmsg_of_ne _ _ (Nat.ne_of_lt hNode)]
  have hNew : (rfc822Threadallocmsg mt msgid).msgid mt.nmsgs = msgid := by
    unfold Refmsgtable.msgid
    rw [msgs_threadallocmsg_self]
  have hSorted : ∀ n, ChainSorted (rfc822Threadallocmsg mt msgid).msgid (mt.hashtable n) :=
    fun n => (hHashed.sorted n).congr (hOld n)
  constructor
  · intro n
    rw [hashtable_threadallocmsg]
    by_cases hChain : n = hashmsgid msgid
    · subst hChain
      rw [Function.update_self]
      exact (hSorted _).insert mt.nmsgs
    · rw [Function.update_of_ne hChain]
      exact hSorted n
  · intro m hNode
    rw [hashtable_threadallocmsg]
    rcases Nat.lt_succ_iff_lt_or_eq.mp hNode with hLess | hLast
    · have hMem := hHashed.complete m hLess
      rw [hOld _ m hMem]
      by_cases hChain : hashmsgid (mt.msgid m) = hashmsgid msgid
      · rw [hChain] at hMem ⊢
        rw [Function.update_self]
        exact mem_chainInsert.mpr (Or.inr hMem)
      · rw [Function.update_of_ne hChain]
        exact hMem
    · have hSelf : m = mt.nmsgs := hLast
      rw [hSelf, hNew, Function.update_self]
      exact mem_chainInsert.mpr (Or.inl rfl)
  · intro n m hMem
    rw [hashtable_threadallocmsg] at hMem
    rw [nmsgs_threadallocmsg]
    by_cases hChain : n = hashmsgid msgid
    · subst hChain
      rw [Function.update_self] at hMem
      rcases mem_chainInsert.mp hMem with rfl | hIn
      · exact Nat.lt_succ_self _
      · exact Nat.lt_succ_of_lt (hHashed.sound _ m hIn)
    · rw [Function.update_of_ne hChain] at hMem
      exact Nat.lt_succ_of_lt (hHashed.sound n m hMem)

/- A new message has no links. -/
theorem Threaded.threadallocmsg {mt : Refmsgtable} {forest : Forest Nat}
    (hThreaded : Threaded mt forest) (msgid : List Byte) :
    Threaded (rfc822Threadallocmsg mt msgid) forest := by
  have hOther : ∀ m, m ≠ mt.nmsgs → (rfc822Threadallocmsg mt msgid).msgs m = mt.msgs m :=
    fun m hNode => msgs_threadallocmsg_of_ne mt msgid hNode
  have hNoChild : forest.children mt.nmsgs = [] := hThreaded.children_of_nmsgs_le (Nat.le_refl _)
  have hChild : ∀ p front m back, forest.children p = front ++ m :: back → m ≠ mt.nmsgs := by
    intro p front m back hSplit
    have hParent := (forest.mem_children p m).mp (Represents.mem_of_split hSplit)
    exact Nat.ne_of_lt (hThreaded.used m p hParent).1
  refine ⟨⟨?_, ?_, ?_, ?_, ?_⟩, ?_⟩
  · intro m
    by_cases hNode : m = mt.nmsgs
    · subst hNode
      have hTop := hThreaded.parent_of_nmsgs_le (Nat.le_refl mt.nmsgs)
      show ((rfc822Threadallocmsg mt msgid).msgs _).parent = _
      rw [msgs_threadallocmsg_self, hTop]
    · show ((rfc822Threadallocmsg mt msgid).msgs m).parent = _
      rw [hOther m hNode]
      exact hThreaded.parent m
  · intro p
    by_cases hNode : p = mt.nmsgs
    · subst hNode
      show ((rfc822Threadallocmsg mt msgid).msgs _).firstchild = _
      rw [msgs_threadallocmsg_self, hNoChild]
      rfl
    · show ((rfc822Threadallocmsg mt msgid).msgs p).firstchild = _
      rw [hOther p hNode]
      exact hThreaded.firstchild p
  · intro p
    by_cases hNode : p = mt.nmsgs
    · subst hNode
      show ((rfc822Threadallocmsg mt msgid).msgs _).lastchild = _
      rw [msgs_threadallocmsg_self, hNoChild]
      rfl
    · show ((rfc822Threadallocmsg mt msgid).msgs p).lastchild = _
      rw [hOther p hNode]
      exact hThreaded.links.last p
  · intro p front m back hSplit
    show ((rfc822Threadallocmsg mt msgid).msgs m).nextsib = _
    rw [hOther m (hChild p front m back hSplit)]
    exact hThreaded.links.next p front m back hSplit
  · intro p front m back hSplit
    show ((rfc822Threadallocmsg mt msgid).msgs m).prevsib = _
    rw [hOther m (hChild p front m back hSplit)]
    exact hThreaded.links.prev p front m back hSplit
  · intro m p hParent
    rcases hThreaded.used m p hParent with ⟨hNode, hUnder⟩
    exact ⟨Nat.lt_succ_of_lt hNode, Nat.lt_succ_of_lt hUnder⟩

/- The messages that are allocated one after the other. -/
def threadallocmsgs (ids : List (List Byte)) : Refmsgtable :=
  ids.foldl rfc822Threadallocmsg rfc822Threadalloc

theorem threadallocmsgs_spec (ids : List (List Byte)) :
    Hashed (threadallocmsgs ids) ∧ (threadallocmsgs ids).nmsgs = ids.length ∧
      ∀ m, m < ids.length → ids[m]? = some ((threadallocmsgs ids).msgid m) := by
  unfold threadallocmsgs
  induction ids using List.reverseRecOn with
  | nil => exact ⟨.threadalloc, rfl, nofun⟩
  | append_singleton ids id ih =>
    rcases ih with ⟨hHashed, hCount, hIds⟩
    rw [List.foldl_append, List.foldl_cons, List.foldl_nil, List.length_append]
    refine ⟨hHashed.threadallocmsg id, congrArg (· + 1) hCount, ?_⟩
    intro m hNode
    rcases Nat.lt_succ_iff_lt_or_eq.mp hNode with hLess | hLast
    · have hOld := msgs_threadallocmsg_of_ne _ id (Nat.ne_of_lt (hCount ▸ hLess))
      rw [List.getElem?_append_left hLess, hIds m hLess]
      exact congrArg (fun msg => some msg.msgid) hOld.symm
    · have hNew := msgs_threadallocmsg_self (ids.foldl rfc822Threadallocmsg rfc822Threadalloc) id
      rw [hCount, ← hLast] at hNew
      rw [hLast, List.getElem?_concat_length, ← hLast]
      exact congrArg (fun msg => some msg.msgid) hNew.symm

/-
  A message that is allocated is found by its id, and nothing
  is found by another id.
-/
theorem threadsearchmsg_threadallocmsgs (ids : List (List Byte)) (id : List Byte) :
    (∀ n, ChainSorted (threadallocmsgs ids).msgid ((threadallocmsgs ids).hashtable n)) ∧
      (id ∈ ids → ∃ m, rfc822Threadsearchmsg (threadallocmsgs ids) id = some m ∧
        (threadallocmsgs ids).msgid m = id ∧ ids[m]? = some id) ∧
      (id ∉ ids → rfc822Threadsearchmsg (threadallocmsgs ids) id = none) := by
  rcases threadallocmsgs_spec ids with ⟨hHashed, hCount, hIds⟩
  refine ⟨hHashed.sorted, ?_, ?_⟩
  · intro hMem
    rcases List.mem_iff_getElem?.mp hMem with ⟨m, hHere⟩
    have hNode := (List.getElem?_eq_some_iff.mp hHere).1
    cases hFound : rfc822Threadsearchmsg (threadallocmsgs ids) id with
    | none =>
      rw [hIds m hNode] at hHere
      exact absurd (Option.some.inj hHere) (hHashed.search_eq_none hFound (hCount ▸ hNode))
    | some k =>
      rcases hHashed.search_eq_some hFound with ⟨hLess, hSame⟩
      exact ⟨k, rfl, hSame, hSame ▸ hIds k (hCount ▸ hLess)⟩
  · intro hOther
    cases hFound : rfc822Threadsearchmsg (threadallocmsgs ids) id with
    | none => rfl
    | some k =>
      rcases hHashed.search_eq_some hFound with ⟨hLess, hSame⟩
      have hThere := hIds k (hCount ▸ hLess)
      rw [hSame] at hThere
      exact absurd (List.mem_of_getElem? hThere) hOther

end Wmail.Rfc822
