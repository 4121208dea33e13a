import Wmail.Rfc822.ThreadPlaces
import Wmail.Rfc822.Threads

/-
  Base subjects of merged threads.

  Threads are merged when their base subjects are equal.  A
  subject is tested for emptiness before it is reduced, so
  threads with an empty base subject are merged as well.

  Key theorems include:
    * `Placing.inOneThread_iff`
    * `threadmergesubj_bases_iff`
-/

namespace Wmail.Rfc822

/- The base subject of a thread. -/
def baseSubj (mt : Refmsgtable) (t : Nat) : Option (List Byte) :=
  (threadSubj mt t).map fun s => (rfc822Coresubj s).1

/- Some thread under the root has both messages. -/
def InOneThread (mt : Refmsgtable) (root p q : Nat) : Prop :=
  ∃ c, ChildOf mt root c ∧ InTree mt c p ∧ InTree mt c q

/-
  Two threads of `mt` whose messages are in one thread of
  `merged` have the same base subject, and it is not empty.
-/
def MergesEqualBases (mt merged : Refmsgtable) (root : Nat) : Prop :=
  ∀ a b p q, ChildOf mt root a → ChildOf mt root b → a ≠ b →
    threadMsg mt a = some p → threadMsg mt b = some q →
      InOneThread merged root p q → ∃ base, base ≠ [] ∧ baseSubj mt a = some base ∧
          baseSubj mt b = some base

/- The thread has a subject of which nothing is left. -/
def EmptyBase (mt : Refmsgtable) (t : Nat) : Prop :=
  ∃ s, threadSubj mt t = some s ∧ s ≠ [] ∧ (rfc822Coresubj s).1 = []

section Places

variable {mt gathered merged : Refmsgtable} {forest last start : Forest Nat} {root : Nat}

theorem Threaded.childOf_iff_parent (hThreaded : Threaded mt forest) (root t : Nat) :
    ChildOf mt root t ↔ (mt.msgs t).parent = some root := by
  rw [hThreaded.childOf_iff, forest.mem_children, hThreaded.parent]

/- A message is in one thread only. -/
theorem Refmsgtable.Over.thread_unique {c d x : Nat} (hOver : mt.Over c x)
    (hOther : mt.Over d x) (hRoot : (mt.msgs root).parent = none)
    (hThread : (mt.msgs c).parent = some root) (hThreadD : (mt.msgs d).parent = some root) :
    c = d := by
  have hUnique : Relator.RightUnique (fun x y => (mt.msgs x).parent = some y) := by
    intro y a b hA hB
    exact Option.some.inj (hA.symm.trans hB)
  rcases Relation.ReflTransGen.total_of_right_unique hUnique hOver hOther with hDown | hUp
  · exact (Refmsgtable.Over.eq_of_threads hDown hRoot hThreadD hThread).symm
  · exact Refmsgtable.Over.eq_of_threads hUp hRoot hThread hThreadD

/- The messages of two threads meet when their places are one. -/
theorem Rooted.inOneThread_iff {c d p q : Nat} (hRooted : Rooted merged last root)
    (hThread : (merged.msgs c).parent = some root)
    (hThreadD : (merged.msgs d).parent = some root) (hOver : merged.Over c p)
    (hOverD : merged.Over d q) : InOneThread merged root p q ↔ c = d := by
  have hThreaded := hRooted.threaded
  have hRoot : (merged.msgs root).parent = none := (hThreaded.parent root).trans hRooted.top
  have hIn : ∀ t x, InTree merged t x ↔ merged.Over t x := by
    intro t x
    rw [hThreaded.inTree_iff, hThreaded.over_iff]
  unfold InOneThread
  simp only [hThreaded.childOf_iff_parent, hIn]
  constructor
  · rintro ⟨e, hThreadE, hOverE, hOverEq⟩
    have hFirst := hOver.thread_unique hOverE hRoot hThread hThreadE
    have hSecond := hOverD.thread_unique hOverEq hRoot hThreadD hThreadE
    exact hFirst.trans hSecond.symm
  · rintro rfl
    exact ⟨c, hThread, hOver, hOverD⟩

/- The place of a thread's message when all is merged. -/
theorem Placing.final (hPlacing : Placing gathered root [] merged) {t p : Nat}
    (hParent : (gathered.msgs t).parent = some root) (hMsg : threadMsg gathered t = some p) :
    ∃ c s, (merged.msgs c).parent = some root ∧
      merged.Over c p ∧ threadSubj gathered t = some s ∧ ((s = [] ∧ c = t) ∨
          (s ≠ [] ∧ threadTop gathered s = some c)) := by
  rcases hPlacing.place t p hParent hMsg with ⟨c, hThread, hOver, hPlace⟩
  rcases hPlace with ⟨hMem, _⟩ | ⟨_, s, hSubj, hCases⟩
  · cases hMem
  · exact ⟨c, s, hThread, hOver, hSubj, hCases⟩

theorem Rooted.threadMsg (hRooted : Rooted mt forest root) {t : Nat}
    (hParent : (mt.msgs t).parent = some root) : ∃ p, threadMsg mt t = some p := by
  rw [hRooted.threaded.parent] at hParent
  unfold Rfc822.threadMsg
  by_cases hDummy : (mt.msgs t).isdummy = true
  · rw [if_pos hDummy, hRooted.threaded.firstchild]
    cases hChildren : forest.children t with
    | nil => exact absurd hChildren (hRooted.full t hParent hDummy)
    | cons c rest => exact ⟨c, rfl⟩
  · rw [if_neg hDummy]
    exact ⟨t, rfl⟩

/- Threads that meet have one subject, but maybe an empty one. -/
theorem Placing.same_base (hPlacing : Placing gathered root [] merged)
    (hRooted : Rooted merged last root)
    (hIndexed : Indexed gathered fun t => start.parent t = some root) {a b p q : Nat}
    (hA : (gathered.msgs a).parent = some root) (hB : (gathered.msgs b).parent = some root)
    (hOther : a ≠ b) (hMsgA : threadMsg gathered a = some p)
    (hMsgB : threadMsg gathered b = some q) (hOne : InOneThread merged root p q) :
    ∃ s x, threadSubj gathered a = some s ∧ s ≠ [] ∧ threadSubj gathered b = some x ∧ x ≠ [] ∧
        (rfc822Coresubj s).1 = (rfc822Coresubj x).1 := by
  rcases hPlacing.final hA hMsgA with ⟨c, s, hThread, hOver, hS, hCases⟩
  rcases hPlacing.final hB hMsgB with ⟨d, x, hThreadD, hOverD, hX, hCasesD⟩
  have hSame := (hRooted.inOneThread_iff hThread hThreadD hOver hOverD).mp hOne
  subst hSame
  rcases hCases with ⟨hEmpty, hSelf⟩ | ⟨hSome, hTop⟩
  · rcases hCasesD with ⟨_, hSelfD⟩ | ⟨_, hTopD⟩
    · exact absurd (hSelf.symm.trans hSelfD) hOther
    · rcases hIndexed.threadTop hTopD with ⟨y, hY, hNot, _⟩
      rw [hSelf, hS] at hY
      exact absurd ((Option.some.inj hY).symm.trans hEmpty) hNot
  · rcases hIndexed.threadTop hTop with ⟨y, hY, hNot, hCore, _⟩
    rcases hCasesD with ⟨hEmpty, hSelfD⟩ | ⟨hSomeD, hTopD⟩
    · rw [hSelfD, hX] at hY
      exact absurd ((Option.some.inj hY).symm.trans hEmpty) hNot
    · rcases hIndexed.threadTop hTopD with ⟨z, hZ, _, hCoreD, _⟩
      rw [hY] at hZ
      cases hZ
      exact ⟨s, x, hS, hSome, hX, hSomeD, hCore.symm.trans hCoreD⟩

/- Threads with subjects of one base meet. -/
theorem Placing.meet (hPlacing : Placing gathered root [] merged)
    (hRooted : Rooted merged last root) {a b p q : Nat}
    (hA : (gathered.msgs a).parent = some root) (hB : (gathered.msgs b).parent = some root)
    (hMsgA : threadMsg gathered a = some p) (hMsgB : threadMsg gathered b = some q)
    {s x : List Byte} (hS : threadSubj gathered a = some s)
    (hX : threadSubj gathered b = some x) (hSome : s ≠ []) (hSomeX : x ≠ [])
    (hCore : (rfc822Coresubj s).1 = (rfc822Coresubj x).1) : InOneThread merged root p q := by
  rcases hPlacing.final hA hMsgA with ⟨c, y, hThread, hOver, hY, hCases⟩
  rcases hPlacing.final hB hMsgB with ⟨d, z, hThreadD, hOverD, hZ, hCasesD⟩
  rw [hS] at hY
  cases hY
  rw [hX] at hZ
  cases hZ
  have hTop := (hCases.resolve_left fun hBoth => hSome hBoth.1).2
  have hTopD := (hCasesD.resolve_left fun hBoth => hSomeX hBoth.1).2
  rw [threadTop_core hCore, hTopD] at hTop
  exact (hRooted.inOneThread_iff hThread hThreadD hOver hOverD).mpr (Option.some.inj hTop).symm

end Places

------------
-- The Merge
------------

/- Equal bases only, unless two threads have an empty one. -/
theorem Placing.mergesEqualBases_iff {mt merged : Refmsgtable} {forest last : Forest Nat}
    {root : Nat} {table : Nat → List Subjlookup}
    (hPlacing : Placing { mt with subjtable := table } root [] merged)
    (hStart : Rooted mt forest root) (hRooted : Rooted merged last root)
    (hIndexed :
      Indexed { mt with subjtable := table } fun t => forest.parent t = some root) :
    MergesEqualBases mt merged root ↔ ∀ a b, ChildOf mt root a → ChildOf mt root b →
        EmptyBase mt a → EmptyBase mt b → a = b := by
  have hChild := hStart.threaded.childOf_iff_parent root
  constructor
  · rintro hMerges a b hA hB ⟨s, hS, hSome, hCore⟩ ⟨x, hX, hSomeX, hCoreX⟩
    by_contra hOther
    have hUpA := (hChild a).mp hA
    have hUpB := (hChild b).mp hB
    rcases hStart.threadMsg hUpA with ⟨p, hMsgA⟩
    rcases hStart.threadMsg hUpB with ⟨q, hMsgB⟩
    have hOne := hPlacing.meet hRooted hUpA hUpB hMsgA hMsgB
      hS hX hSome hSomeX (hCore.trans hCoreX.symm)
    rcases hMerges a b p q hA hB hOther hMsgA hMsgB hOne with ⟨base, hNot, hBase, _⟩
    unfold baseSubj at hBase
    rw [hS, Option.map_some, hCore] at hBase
    exact hNot (Option.some.inj hBase).symm
  · intro hSingle a b p q hA hB hOther hMsgA hMsgB hOne
    rcases hPlacing.same_base hRooted hIndexed
      ((hChild a).mp hA) ((hChild b).mp hB) hOther hMsgA hMsgB
      hOne with ⟨s, x, hS, hSome, hX, hSomeX, hCore⟩
    have hSubjA : threadSubj mt a = some s := hS
    have hSubjB : threadSubj mt b = some x := hX
    refine ⟨(rfc822Coresubj s).1, ?_, ?_, ?_⟩
    · intro hNone
      exact hOther (hSingle a b hA hB ⟨s, hSubjA, hSome, hNone⟩
        ⟨x, hSubjB, hSomeX, hCore.symm.trans hNone⟩)
    · unfold baseSubj
      rw [hSubjA, Option.map_some]
    · unfold baseSubj
      rw [hSubjB, Option.map_some, hCore]

/- Gathering and merging the threads after any calls. -/
theorem merge_after_calls (qsort : Qsort) (calls : List Headers) :
    ∃ mt gathered merged, runStages (threadmsgs calls) ((threadStages qsort).take 3) = some mt ∧
      mt.rootptr = some (threadmsgs calls).nmsgs ∧
      rfc822Threadgathersubj mt (threadmsgs calls).nmsgs = some gathered ∧
      rfc822Threadmergesubj gathered (threadmsgs calls).nmsgs = some merged ∧
      (MergesEqualBases mt merged (threadmsgs calls).nmsgs ↔
        ∀ a b, ChildOf mt (threadmsgs calls).nmsgs a → ChildOf mt (threadmsgs calls).nmsgs b →
            EmptyBase mt a → EmptyBase mt b → a = b) := by
  rcases threadsortsubj_run qsort calls with
    ⟨mt, forest, nodes, hSorted, hRooted, hHolds, hEmpty, _⟩
  rcases threadgathersubj_indexed hRooted hEmpty with
    ⟨gathered, hGather, hGathered, hIndexed, table, hTable⟩
  subst hTable
  have hReal : SameReal mt { mt with subjtable := table } := ⟨fun _ => Iff.rfl, fun _ _ => rfl⟩
  rcases threadmergesubj_placed hGathered hIndexed (hHolds.sameReal hReal) (fun _ => True)
    (fun _ _ _ _ _ _ _ _ => True.intro) True.intro with
    ⟨merged, last, _, hMerged, hLast, _, hPlacing, _⟩
  exact ⟨mt, _, merged, hSorted, hRooted.rootptr, hGather,
    hMerged, hPlacing.mergesEqualBases_iff hRooted hLast hIndexed⟩

/-
  Merging puts only threads of one base subject, which is not
  empty, under one thread, if and only if at most one thread
  has a subject with an empty base.
-/
theorem threadmergesubj_bases_iff (qsort : Qsort) (calls : List Headers) :
    ∃ mt root gathered merged, runStages (threadmsgs calls)
        ((threadStages qsort).take 3) = some mt ∧
      mt.rootptr = some root ∧
      rfc822Threadgathersubj mt root = some gathered ∧
      rfc822Threadmergesubj gathered root = some merged ∧
      (MergesEqualBases mt merged root ↔
        ∀ a b, ChildOf mt root a → ChildOf mt root b →
          EmptyBase mt a → EmptyBase mt b → a = b) := by
  rcases merge_after_calls qsort calls with ⟨mt, gathered, merged, hMerge⟩
  exact ⟨mt, _, gathered, merged, hMerge⟩

/- Two messages that have nothing to do with each other. -/
def bareReplyCalls : List Headers :=
  [⟨some (bytes "<a>"), none, some (bytes "Re:"), none, 1⟩,
    ⟨some (bytes "<b>"), none, some (bytes "Fwd:"), none, 2⟩]

/- Both come under the root, with empty base subjects. -/
theorem bareReply_emptyBase (qsort : Qsort) {mt : Refmsgtable} (hSorted :
      runStages (threadmsgs bareReplyCalls) ((threadStages qsort).take 3) = some mt) :
    ∀ t, t < 2 → ChildOf mt (threadmsgs bareReplyCalls).nmsgs t ∧ EmptyBase mt t := by
  rcases threadsortsubj_run qsort bareReplyCalls with
    ⟨other, forest, _, hSame, hRooted, _, _, hLinks, hParents⟩
  rw [hSorted] at hSame
  cases hSame
  have hTable : ∀ t, t < 2 → ((rfc822Threadgetroot (rfc822Threadprune
            (threadmsgs bareReplyCalls))).msgs t).parent =
          some (threadmsgs bareReplyCalls).nmsgs ∧
        ((rfc822Threadgetroot (rfc822Threadprune (threadmsgs bareReplyCalls))).msgs t).isdummy =
          false ∧
        ((rfc822Threadgetroot (rfc822Threadprune (threadmsgs bareReplyCalls))).msgs t).subj =
          some (if t = 0 then bytes "Re:" else bytes "Fwd:") := by
    decide
  have hBases : ∀ t, t < 2 → (if t = 0 then bytes "Re:" else bytes "Fwd:") ≠ [] ∧ (rfc822Coresubj
          (if t = 0 then bytes "Re:" else bytes "Fwd:")).1 = [] := by
    decide
  intro t hLess
  rcases hTable t hLess with ⟨hParent, hReal, hSubj⟩
  constructor
  · rw [hRooted.threaded.childOf_iff_parent, hParents]
    exact hParent
  · refine ⟨_, ?_, hBases t hLess⟩
    unfold threadSubj
    rw [hLinks.isdummy, hLinks.subj, hReal, hSubj]
    rfl

/- They are put under one thread, for their empty subjects. -/
theorem threadmergesubj_merges_bareReplies : ∃ mt root gathered merged,
      runStages (threadmsgs bareReplyCalls) ((threadStages Qsort.mergeSort).take 3) = some mt ∧
      mt.rootptr = some root ∧
      rfc822Threadgathersubj mt root = some gathered ∧
      rfc822Threadmergesubj gathered root = some merged ∧
      ¬ MergesEqualBases mt merged root := by
  rcases merge_after_calls Qsort.mergeSort bareReplyCalls with
    ⟨mt, gathered, merged, hSorted, hRoot, hGathered, hMerged, hIff⟩
  refine ⟨mt, _, gathered, merged, hSorted, hRoot, hGathered, hMerged, fun hMerges => ?_⟩
  have hEmpty := bareReply_emptyBase Qsort.mergeSort hSorted
  have hOne := hIff.mp hMerges 0 1 (hEmpty 0 Nat.zero_lt_two).1 (hEmpty 1 Nat.one_lt_two).1
    (hEmpty 0 Nat.zero_lt_two).2 (hEmpty 1 Nat.one_lt_two).2
  exact Nat.zero_ne_one hOne

end Wmail.Rfc822
