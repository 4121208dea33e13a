import Wmail.Rfc822.ThreadRoot

/-
  Gathering subjects.

  Every entry of the subject table has a thread of its subject
  under the root, and every thread with a subject has an
  entry.

  Key theorems include:
    * `gatherMsg_gathering`
    * `threadgathersubj_gathered`
-/

namespace Wmail.Rfc822

/- The chains of the table are sorted, without repetition. -/
structure SubjectChains (table : Nat → List Subjlookup) : Prop where
  sorted : ∀ n, ChainSorted Subjlookup.subj (table n)
  distinct : ∀ n, ((table n).map Subjlookup.subj).Nodup
  hash : ∀ n e, e ∈ table n → hashmsgid e.subj = n

namespace SubjectChains

variable {table : Nat → List Subjlookup}

/- Entries of one subject are the same entry. -/
theorem unique (hChains : SubjectChains table) {n : Nat} {a b : Subjlookup}
    (hFirst : a ∈ table n) (hSecond : b ∈ table n) (hSame : a.subj = b.subj) : a = b :=
  List.inj_on_of_nodup_map (hChains.distinct n) hFirst hSecond hSame

/- A new entry of a new subject. -/
theorem insert (hChains : SubjectChains table) {new : Subjlookup}
    (hFresh : ∀ e, e ∈ table (hashmsgid new.subj) → e.subj ≠ new.subj) :
    SubjectChains (Function.update table (hashmsgid new.subj) (chainInsert Subjlookup.subj new
          (table (hashmsgid new.subj)))) := by
  constructor
  · intro n
    by_cases hChain : n = hashmsgid new.subj
    · subst hChain
      rw [Function.update_self]
      exact (hChains.sorted _).insert new
    · rw [Function.update_of_ne hChain]
      exact hChains.sorted n
  · intro n
    by_cases hChain : n = hashmsgid new.subj
    · subst hChain
      rw [Function.update_self]
      have hPerm := (chainInsert_perm Subjlookup.subj new
        (table (hashmsgid new.subj))).map Subjlookup.subj
      rw [hPerm.nodup_iff, List.map_cons, List.nodup_cons]
      refine ⟨?_, hChains.distinct _⟩
      intro hMem
      rcases List.mem_map.mp hMem with ⟨e, hIn, hSame⟩
      exact hFresh e hIn hSame
    · rw [Function.update_of_ne hChain]
      exact hChains.distinct n
  · intro n e hMem
    by_cases hChain : n = hashmsgid new.subj
    · subst hChain
      rw [Function.update_self] at hMem
      rcases mem_chainInsert.mp hMem with rfl | hOld
      · rfl
      · exact hChains.hash _ e hOld
    · rw [Function.update_of_ne hChain] at hMem
      exact hChains.hash n e hMem

/- An assignment to the entries of a subject. -/
theorem setSubj {mt : Refmsgtable} (hChains : SubjectChains mt.subjtable)
    (subjtop : Subjlookup) (toproot : Nat) (isrefwd : Bool) :
    SubjectChains (mt.setSubj subjtop toproot isrefwd).subjtable := by
  have hSubj : ∀ h : Subjlookup, (if h.subj = subjtop.subj then
          { h with msg := some toproot, msgisrefwd := isrefwd }
        else
          h).subj = h.subj := by
    intro h
    split <;> rfl
  have hChain : ∀ n, ((mt.setSubj subjtop toproot isrefwd).subjtable
        n).map Subjlookup.subj = (mt.subjtable n).map Subjlookup.subj := by
    intro n
    unfold Refmsgtable.setSubj
    by_cases hHash : n = hashmsgid subjtop.subj
    · subst hHash
      simp only [Function.update_self, List.map_map]
      exact List.map_congr_left fun h _ => hSubj h
    · simp only [Function.update_of_ne hHash]
  have hSortedMap : ∀ chain : List Subjlookup, ChainSorted Subjlookup.subj chain ↔
          (chain.map Subjlookup.subj).Pairwise
            fun a b => (strcmp a b).isLE := by
    intro chain
    rw [List.pairwise_map]
    rfl
  constructor
  · intro n
    rw [hSortedMap, hChain, ← hSortedMap]
    exact hChains.sorted n
  · intro n
    rw [hChain]
    exact hChains.distinct n
  · intro n e hMem
    have hIn : e.subj ∈ (mt.subjtable n).map Subjlookup.subj := by
      rw [← hChain]
      exact List.mem_map_of_mem hMem
    rcases List.mem_map.mp hIn with ⟨old, hOld, hSame⟩
    rw [← hSame]
    exact hChains.hash n old hOld

end SubjectChains

variable {mt : Refmsgtable} {e : Subjlookup}

/- The entries of a table after an assignment. -/
theorem mem_setSubj (hChains : SubjectChains mt.subjtable) {subjtop : Subjlookup}
    {toproot n : Nat} {isrefwd : Bool}
    (hMem : e ∈ (mt.setSubj subjtop toproot isrefwd).subjtable n) :
    (e.msg = some toproot ∧ e.subj = subjtop.subj) ∨
      (e ∈ mt.subjtable n ∧ e.subj ≠ subjtop.subj) := by
  unfold Refmsgtable.setSubj at hMem
  by_cases hHash : n = hashmsgid subjtop.subj
  · subst hHash
    simp only [Function.update_self] at hMem
    rcases List.mem_map.mp hMem with ⟨h, hIn, rfl⟩
    by_cases hSame : h.subj = subjtop.subj
    · rw [if_pos hSame]
      exact Or.inl ⟨rfl, hSame⟩
    · rw [if_neg hSame]
      exact Or.inr ⟨hIn, hSame⟩
  · simp only [Function.update_of_ne hHash] at hMem
    refine Or.inr ⟨hMem, ?_⟩
    intro hSame
    have hThere := hChains.hash n e hMem
    rw [hSame] at hThere
    exact hHash hThere.symm

/- An assignment takes no subject out of the table. -/
theorem subj_mem_setSubj {subjtop : Subjlookup} {toproot n : Nat} {isrefwd : Bool}
    (hMem : e ∈ mt.subjtable n) :
    ∃ h, h ∈ (mt.setSubj subjtop toproot isrefwd).subjtable n ∧ h.subj = e.subj := by
  unfold Refmsgtable.setSubj
  by_cases hHash : n = hashmsgid subjtop.subj
  · subst hHash
    simp only [Function.update_self]
    refine ⟨_, List.mem_map_of_mem hMem, ?_⟩
    split <;> rfl
  · simp only [Function.update_of_ne hHash]
    exact ⟨e, hMem, rfl⟩

/-
  Every entry has a thread under the root, of its subject
  unless its subject is empty.
-/
structure Subjects (mt : Refmsgtable) (forest : Forest Nat) (root : Nat) : Prop where
  chains : SubjectChains mt.subjtable
  entry : ∀ n e, e ∈ mt.subjtable n → ∃ t, e.msg = some t ∧ forest.parent t = some root ∧
        ∀ s, threadSubj mt t = some s → s = [] ∨ (rfc822Coresubj s).1 = e.subj

/- The subject of a thread has an entry, unless it is empty. -/
def Listed (mt : Refmsgtable) (t : Nat) : Prop :=
  ∀ s, threadSubj mt t = some s → s ≠ [] →
    ∃ e, e ∈ mt.subjtable (hashmsgid (rfc822Coresubj s).1) ∧ e.subj = (rfc822Coresubj s).1

/- The threads `ms` are left to be gathered. -/
structure Gathering (mt : Refmsgtable) (forest : Forest Nat) (root : Nat) (ms : List Nat)
    (now : Refmsgtable) :
    Prop where
  table : ∃ table, now = { mt with subjtable := table }
  subjects : Subjects now forest root
  split : ∃ front, forest.children root = front ++ ms ∧ ∀ t, t ∈ front → Listed now t

variable {s : List Byte}

theorem findsubj_eq_some (hFound : findsubj mt s = some e) :
    e ∈ mt.subjtable (hashmsgid (rfc822Coresubj s).1) ∧ e.subj = (rfc822Coresubj s).1 :=
  chainSearch_eq_some hFound

theorem findsubj_eq_none (hChains : SubjectChains mt.subjtable) (hNone : findsubj mt s = none)
    (hMem : e ∈ mt.subjtable (hashmsgid (rfc822Coresubj s).1)) : e.subj ≠ (rfc822Coresubj s).1 :=
  chainSearch_eq_none (hChains.sorted _) hNone hMem

variable {forest : Forest Nat}

/- A thread under the root has a subject, maybe empty. -/
theorem Rooted.threadSubj {root t : Nat} (hRooted : Rooted mt forest root)
    (hParent : forest.parent t = some root) : ∃ s, threadSubj mt t = some s := by
  unfold Rfc822.threadSubj
  by_cases hDummy : (mt.msgs t).isdummy = true
  · rw [if_pos hDummy, hRooted.threaded.firstchild]
    cases hChildren : forest.children t with
    | nil => exact absurd hChildren (hRooted.full t hParent hDummy)
    | cons c rest => exact ⟨_, rfl⟩
  · rw [if_neg hDummy]
    exact ⟨_, rfl⟩

/- What `findsubj` gives when it may create an entry. -/
structure Created (mt : Refmsgtable) (s : List Byte) (found : Refmsgtable × Subjlookup) : Prop where
  table : ∃ table, found.1 = { mt with subjtable := table }
  chains : SubjectChains found.1.subjtable
  subj : found.2.subj = (rfc822Coresubj s).1
  mem : found.2 ∈ found.1.subjtable (hashmsgid (rfc822Coresubj s).1)
  entry : ∀ n e, e ∈ found.1.subjtable n → e ∈ mt.subjtable n ∨
        (e.subj = found.2.subj ∧ found.2.msg = none)
  kept : ∀ n e, e ∈ mt.subjtable n → e ∈ found.1.subjtable n

theorem findsubjCreate_created (hChains : SubjectChains mt.subjtable) (s : List Byte) :
    Created mt s (findsubjCreate mt s) := by
  unfold findsubjCreate
  simp only []
  cases hFound : findsubj mt s with
  | some e =>
    rcases findsubj_eq_some hFound with ⟨hMem, hSubj⟩
    exact ⟨⟨mt.subjtable, rfl⟩, hChains, hSubj, hMem, fun _ _ hIn => Or.inl hIn, fun _ _ hIn => hIn⟩
  | none =>
    have hFresh : ∀ e, e ∈ mt.subjtable (hashmsgid (rfc822Coresubj s).1) →
          e.subj ≠ (rfc822Coresubj s).1 :=
      fun e hMem => findsubj_eq_none hChains hFound hMem
    have hInserted := @SubjectChains.insert mt.subjtable
      hChains ⟨(rfc822Coresubj s).1, none, (rfc822Coresubj s).2⟩ hFresh
    refine ⟨⟨_, rfl⟩, hInserted, rfl, ?_, ?_, ?_⟩
    · simp only [Function.update_self]
      exact mem_chainInsert.mpr (Or.inl rfl)
    · intro n e hMem
      by_cases hHash : n = hashmsgid (rfc822Coresubj s).1
      · subst hHash
        simp only [Function.update_self] at hMem
        rcases mem_chainInsert.mp hMem with rfl | hOld
        · exact Or.inr ⟨rfl, rfl⟩
        · exact Or.inl hOld
      · simp only [Function.update_of_ne hHash] at hMem
        exact Or.inl hMem
    · intro n e hMem
      by_cases hHash : n = hashmsgid (rfc822Coresubj s).1
      · subst hHash
        simp only [Function.update_self]
        exact mem_chainInsert.mpr (Or.inr hMem)
      · simp only [Function.update_of_ne hHash]
        exact hMem

/-
  A thread with a subject may take the entry over, but not
  from a dummy, and a dummy leaves it to a dummy only.
-/
theorem gatherMsg_cases {toproot : Nat} (hSubj : threadSubj mt toproot = some s)
    (hSome : s ≠ []) :
    (gatherMsg mt toproot = some (findsubjCreate mt s).1 ∧
        ∃ top, (findsubjCreate mt s).2.msg = some top ∧ ((mt.msgs toproot).isdummy = true →
            (mt.msgs top).isdummy = true)) ∨
      ∃ isrefwd, gatherMsg mt toproot = some ((findsubjCreate mt s).1.setSubj
          (findsubjCreate mt s).2 toproot isrefwd) ∧
        ∀ top, (findsubjCreate mt s).2.msg = some top → (mt.msgs top).isdummy = false := by
  have hMsgs : (findsubjCreate mt s).1.msgs = mt.msgs := by
    unfold findsubjCreate
    simp only []
    split <;> rfl
  unfold gatherMsg
  rw [hSubj]
  simp only [if_neg hSome]
  cases hMsg : (findsubjCreate mt s).2.msg with
  | none => exact Or.inr ⟨_, rfl, nofun⟩
  | some top =>
    simp only [hMsgs]
    by_cases hTop : (mt.msgs top).isdummy = true
    · rw [if_pos hTop]
      exact Or.inl ⟨rfl, top, rfl, fun _ => hTop⟩
    · rw [if_neg hTop]
      split
      · refine Or.inr ⟨_, rfl, ?_⟩
        intro other hSame
        cases hSame
        exact Bool.eq_false_iff.mpr hTop
      · rename_i hStays
        refine Or.inl ⟨rfl, top, rfl, ?_⟩
        intro hDummy
        exact absurd (Or.inl hDummy) hStays

/- A table with the entries of the thread `m` as well. -/
theorem Gathering.advance {mt now other : Refmsgtable} {root m : Nat} {rest : List Nat}
    (hRooted : Rooted mt forest root) (hNow : Gathering mt forest root (m :: rest) now)
    (hSubj : threadSubj mt m = some s) (hTable : ∃ table, other = { mt with subjtable := table })
    (hChains : SubjectChains other.subjtable)
    (hEntry :
      ∀ n e, e ∈ other.subjtable n → e ∈ now.subjtable n ∨
          (e.msg = some m ∧ e.subj = (rfc822Coresubj s).1))
    (hKept : ∀ n e, e ∈ now.subjtable n → ∃ h, h ∈ other.subjtable n ∧ h.subj = e.subj)
    (hOwn :
      s ≠ [] → ∃ e, e ∈ other.subjtable (hashmsgid (rfc822Coresubj s).1) ∧
          e.subj = (rfc822Coresubj s).1) :
    (other.msgs m).nextsib = rest.head? ∧ Gathering mt forest root rest other := by
  rcases hNow.table with ⟨before, hBefore⟩
  rcases hNow.split with ⟨front, hSplit, hListed⟩
  have hParent := (forest.mem_children root m).mp (Represents.mem_of_split hSplit)
  have hSame : ∀ t, threadSubj other t = threadSubj now t := by
    intro t
    rcases hTable with ⟨after, hAfter⟩
    rw [hBefore, hAfter]
    rfl
  have hSubjNow : threadSubj now m = some s := by
    rw [hBefore]
    exact hSubj
  refine ⟨?_, hTable, ⟨hChains, ?_⟩, front ++ [m], ?_, ?_⟩
  · rcases hTable with ⟨after, hAfter⟩
    rw [hAfter]
    exact hRooted.threaded.links.next root front m rest hSplit
  · intro n e hMem
    rcases hEntry n e hMem with hOld | ⟨hMsg, hCore⟩
    · rcases hNow.subjects.entry n e hOld with ⟨t, hMsg, hUnder, hOf⟩
      refine ⟨t, hMsg, hUnder, ?_⟩
      intro x hX
      exact hOf x ((hSame t).symm.trans hX)
    · refine ⟨m, hMsg, hParent, ?_⟩
      intro x hX
      rw [hSame, hSubjNow] at hX
      cases hX
      exact Or.inr hCore.symm
  · rw [hSplit, List.append_assoc, List.singleton_append]
  · intro t hMem
    rcases List.mem_append.mp hMem with hOld | hNew
    · intro x hX hSome
      rw [hSame] at hX
      rcases hListed t hOld x hX hSome with ⟨e, hIn, hCore⟩
      rcases hKept _ e hIn with ⟨h, hThere, hEq⟩
      exact ⟨h, hThere, hEq.trans hCore⟩
    · rw [List.mem_singleton.mp hNew]
      intro x hX hSome
      rw [hSame, hSubjNow] at hX
      cases hX
      exact hOwn hSome

theorem gatherMsg_gathering {mt now : Refmsgtable} {root m : Nat} {rest : List Nat}
    (hRooted : Rooted mt forest root) (hNow : Gathering mt forest root (m :: rest) now) :
    ∃ other, gatherMsg now m = some other ∧ (other.msgs m).nextsib = rest.head? ∧
        Gathering mt forest root rest other := by
  rcases hNow.table with ⟨table, hTable⟩
  rcases hNow.split with ⟨front, hSplit, _⟩
  have hParent := (forest.mem_children root m).mp (Represents.mem_of_split hSplit)
  rcases hRooted.threadSubj hParent with ⟨s, hSubj⟩
  have hSubjNow : threadSubj now m = some s := by
    rw [hTable]
    exact hSubj
  by_cases hEmpty : s = []
  · have hSkip : gatherMsg now m = some now := by
      unfold gatherMsg
      rw [hSubjNow]
      exact if_pos hEmpty
    exact ⟨now, hSkip, hNow.advance hRooted hSubj ⟨table, hTable⟩ hNow.subjects.chains
      (fun _ _ hMem => Or.inl hMem)
      (fun _ e hMem => ⟨e, hMem, rfl⟩)
      fun hSome => absurd hEmpty hSome⟩
  · have hCreated := findsubjCreate_created hNow.subjects.chains s
    have hCases := gatherMsg_cases hSubjNow hEmpty
    generalize findsubjCreate now s = found at hCreated hCases
    have hFound : ∃ created, found.1 = { mt with subjtable := created } := by
      rcases hCreated.table with ⟨created, hEq⟩
      refine ⟨created, ?_⟩
      rw [hEq, hTable]
    rcases hCases with ⟨hDone, top, hHas, _⟩ | ⟨isrefwd, hDone, _⟩
    · refine ⟨found.1, hDone, hNow.advance hRooted hSubj hFound hCreated.chains ?_ ?_ ?_⟩
      · intro n e hMem
        rcases hCreated.entry n e hMem with hOld | ⟨_, hNone⟩
        · exact Or.inl hOld
        · rw [hHas] at hNone
          cases hNone
      · intro n e hMem
        exact ⟨e, hCreated.kept n e hMem, rfl⟩
      · intro _
        exact ⟨found.2, hCreated.mem, hCreated.subj⟩
    · refine ⟨_, hDone, hNow.advance hRooted hSubj ?_
        (hCreated.chains.setSubj found.2 m isrefwd) ?_ ?_ ?_⟩
      · rcases hFound with ⟨created, hEq⟩
        refine ⟨(found.1.setSubj found.2 m isrefwd).subjtable, ?_⟩
        rw [hEq]
        rfl
      · intro n e hMem
        rcases mem_setSubj hCreated.chains hMem with ⟨hMsg, hCore⟩ | ⟨hIn, hOther⟩
        · exact Or.inr ⟨hMsg, hCore.trans hCreated.subj⟩
        · rcases hCreated.entry n e hIn with hOld | ⟨hSame, _⟩
          · exact Or.inl hOld
          · exact absurd hSame hOther
      · intro n e hMem
        exact subj_mem_setSubj (hCreated.kept n e hMem)
      · intro _
        rcases subj_mem_setSubj hCreated.mem with ⟨h, hThere, hEq⟩
        exact ⟨h, hThere, hEq.trans hCreated.subj⟩

/- The tree, with an entry for every subject. -/
structure Gathered (mt : Refmsgtable) (forest : Forest Nat) (root : Nat) : Prop where
  rooted : Rooted mt forest root
  subjects : Subjects mt forest root
  listed : ∀ t, forest.parent t = some root → Listed mt t

theorem Rooted.table {root : Nat} (hRooted : Rooted mt forest root)
    (table : Nat → List Subjlookup) : Rooted { mt with subjtable := table } forest root :=
  ⟨⟨hRooted.threaded.links, hRooted.threaded.used⟩,
    hRooted.rootptr, hRooted.top, hRooted.dummy, hRooted.full,
    hRooted.covered, hRooted.noFlags⟩

namespace Gathering

variable {mt now : Refmsgtable} {forest : Forest Nat} {root : Nat}

/- Nothing has been gathered, and the table is empty. -/
theorem start (hNoSubjects : ∀ n, mt.subjtable n = []) :
    Gathering mt forest root (forest.children root) mt := by
  have hNone : ∀ n (e : Subjlookup), e ∉ mt.subjtable n := by
    intro n e hMem
    rw [hNoSubjects] at hMem
    cases hMem
  have hChains : SubjectChains mt.subjtable := by
    constructor
    · intro n
      rw [hNoSubjects]
      exact List.Pairwise.nil
    · intro n
      rw [hNoSubjects]
      exact List.nodup_nil
    · intro n e hMem
      exact absurd hMem (hNone n e)
  refine ⟨⟨mt.subjtable, rfl⟩, ⟨hChains, ?_⟩, [], rfl, ?_⟩
  · intro n e hMem
    exact absurd hMem (hNone n e)
  · intro t hMem
    cases hMem

/- Everything has been gathered. -/
theorem gathered (hNow : Gathering mt forest root [] now)
    (hRooted : Rooted mt forest root) : Gathered now forest root := by
  rcases hNow.table with ⟨table, hTable⟩
  rcases hNow.split with ⟨front, hSplit, hListed⟩
  refine ⟨?_, hNow.subjects, ?_⟩
  · rw [hTable]
    exact hRooted.table table
  · intro t hParent
    apply hListed
    rw [← List.append_nil front, ← hSplit]
    exact (forest.mem_children root t).mpr hParent

end Gathering

theorem threadgathersubj_gathered {root : Nat} (hRooted : Rooted mt forest root)
    (hNoSubjects : ∀ n, mt.subjtable n = []) :
    ∃ other, rfc822Threadgathersubj mt root = some other ∧
      Gathered other forest root ∧ SameReal mt other := by
  have hRun := @forSiblings_run gatherMsg (Gathering mt forest root)
    (fun _ _ _ hNow => gatherMsg_gathering hRooted hNow)
    mt _ _ (hRooted.threaded.length_children_le root)
    (Gathering.start hNoSubjects)
  rcases hRun with ⟨other, hLoop, hEnd⟩
  rcases hEnd.table with ⟨table, hTable⟩
  refine ⟨other, ?_, hEnd.gathered hRooted, ?_⟩
  · unfold rfc822Threadgathersubj
    rw [hRooted.threaded.firstchild]
    exact hLoop
  · rw [hTable]
    exact ⟨fun _ => Iff.rfl, fun _ _ => rfl⟩

end Wmail.Rfc822
