import Wmail.Rfc822.ThreadPlaces
import Wmail.Rfc822.Threads

/-
  Dummies in the tree.

  The stages after the pruning do not move dummies below other
  messages, and do not bring them up.  So the dummies of the
  tree are right under the root, with children, unless the
  pruning meets a dummy that is stuck.

  Key theorems include:
    * `thread_later`
    * `thread_dummiesOnTop_iff`
-/

namespace Wmail.Rfc822

/-
  Every dummy of the tree besides the root is a child of the
  root, and has a child.
-/
def DummiesOnTop (mt : Refmsgtable) (root : Nat) : Prop :=
  ∀ m, InTree mt root m → m ≠ root → (mt.msgs m).isdummy = true →
      ChildOf mt root m ∧ ∃ c, ChildOf mt m c

/- What is kept by the stages that follow, holds at the end. -/
theorem thread_later (qsort : Qsort) (calls : List Headers) (invariant : Refmsgtable → Prop)
    (hSame :
      ∀ mt other, (∀ x, (other.msgs x).parent = (mt.msgs x).parent) →
        (∀ x, (other.msgs x).isdummy = (mt.msgs x).isdummy) → invariant mt → invariant other)
    (hMerge :
      ∀ mt other m top, Apart mt (threadmsgs calls).nmsgs m top → ((mt.msgs m).isdummy = true →
          (mt.msgs top).isdummy = true) →
        MergeEffect mt other m top → invariant mt → invariant other)
    (hFirst : invariant (rfc822Threadgetroot (rfc822Threadprune (threadmsgs calls)))) :
    ∃ mt forest, rfc822Thread qsort (threadmsgs calls) = some mt ∧
      Rooted mt forest (threadmsgs calls).nmsgs ∧
      invariant mt := by
  rcases threadsortsubj_run qsort calls with
    ⟨mt, forest, nodes, hSorted, hRooted, hHolds, hEmpty, hLinks, hParents⟩
  have hInv := hSame _ mt hParents hLinks.isdummy hFirst
  rcases threadgathersubj_indexed hRooted hEmpty with
    ⟨gathered, hGather, hGathered, hIndexed, table, hTable⟩
  subst hTable
  have hReal : SameReal mt { mt with subjtable := table } := ⟨fun _ => Iff.rfl, fun _ _ => rfl⟩
  rcases threadmergesubj_placed hGathered hIndexed (hHolds.sameReal hReal) invariant hMerge
    (hSame mt _ (fun _ => rfl) (fun _ => rfl) hInv) with
    ⟨merged, last, _, hMerged, hMergedRoot, _, _, hMergedInv⟩
  rcases hMergedRoot.sortLevels qsort (fun _ => true) with
    ⟨other, sorted, hDone, hOther, hMore, hOtherParents⟩
  refine ⟨other, sorted, ?_, hOther, hSame merged other hOtherParents hMore.isdummy hMergedInv⟩
  rw [thread_eq qsort calls hSorted hRooted.rootptr hGather
    hRooted.rootptr hMerged, threadsortbydate_eq,
    onRoot_eq hMergedRoot.rootptr]
  exact hDone

/- A dummy with a parent is under the root. -/
def Topped (root : Nat) (mt : Refmsgtable) : Prop :=
  ∀ x p, (mt.msgs x).isdummy = true → (mt.msgs x).parent = some p → p = root

/- The message is a dummy below another one. -/
def Deep (root d : Nat) (mt : Refmsgtable) : Prop :=
  (mt.msgs d).isdummy = true ∧ mt.Over root d ∧ ∃ p, (mt.msgs d).parent = some p ∧ p ≠ root

section Merge

variable {mt other : Refmsgtable} {root m top d : Nat}

theorem Topped.congr (hTopped : Topped root mt)
    (hParents : ∀ x, (other.msgs x).parent = (mt.msgs x).parent)
    (hDummies : ∀ x, (other.msgs x).isdummy = (mt.msgs x).isdummy) :
    Topped root other := by
  intro x p hDummy hUp
  rw [hDummies] at hDummy
  rw [hParents] at hUp
  exact hTopped x p hDummy hUp

theorem Deep.congr (hDeep : Deep root d mt)
    (hParents : ∀ x, (other.msgs x).parent = (mt.msgs x).parent)
    (hDummies : ∀ x, (other.msgs x).isdummy = (mt.msgs x).isdummy) :
    Deep root d other := by
  unfold Deep Refmsgtable.Over at hDeep ⊢
  simp only [hParents, hDummies]
  exact hDeep

theorem Topped.merge (hTopped : Topped root mt) (hApart : Apart mt root m top) (hDummies :
      (mt.msgs m).isdummy = true →
        (mt.msgs top).isdummy = true) (hEffect : MergeEffect mt other m top) :
    Topped root other := by
  intro x p hDummy hUp
  cases hEffect with
  | children _ _ hParent hSame =>
    rw [hSame] at hDummy
    rw [hParent] at hUp
    by_cases hSelf : x = m
    · rw [if_pos hSelf] at hUp
      cases hUp
    · rw [if_neg hSelf] at hUp
      by_cases hUnder : (mt.msgs x).parent = some m
      · have hRoot := hTopped x m hDummy hUnder
        have hNot := hApart.source
        rw [hRoot, hApart.free] at hNot
        cases hNot
      · rw [if_neg hUnder] at hUp
        exact hTopped x p hDummy hUp
  | under hNot hParent hSame =>
    rw [hSame] at hDummy
    rw [hParent] at hUp
    by_cases hSelf : x = m
    · subst hSelf
      exact absurd ⟨hDummies hDummy, hDummy⟩ hNot
    · rw [if_neg hSelf] at hUp
      exact hTopped x p hDummy hUp
  | beside hReal hParent hNew =>
    rw [hNew] at hDummy
    have hRealM : (mt.msgs m).isdummy = false := by
      rw [Bool.eq_false_iff]
      intro hIs
      rw [hDummies hIs] at hReal
      cases hReal
    by_cases hTop : x = top
    · have hBound : top ≠ mt.nmsgs := by
        rintro rfl
        cases hApart.fresh.symm.trans hApart.target
      rw [hTop, hParent, if_neg (not_or_intro hApart.other hBound), hApart.target, if_neg] at hUp
      · exact (Option.some.inj hUp).symm
      · intro hSame
        cases hSame
        cases hApart.free.symm.trans hApart.target
    · rw [if_neg hTop] at hDummy
      split at hDummy
      · cases hDummy
      · rename_i hOld
        have hStays : x ≠ m := by
          rintro rfl
          rw [hRealM] at hDummy
          cases hDummy
        rw [hParent, if_neg (not_or_intro hStays hOld)] at hUp
        split at hUp
        · rename_i hUnder
          have hRoot := hTopped x top hDummy hUnder
          have hNot := hApart.target
          rw [hRoot, hApart.free] at hNot
          cases hNot
        · exact hTopped x p hDummy hUp

/- The thread that a message under the root is in. -/
theorem Refmsgtable.Over.thread (hOver : mt.Over root d) (hOther : d ≠ root) :
    ∃ c, (mt.msgs c).parent = some root ∧ mt.Over c d := by
  rcases Relation.ReflTransGen.cases_tail hOver with hSame | ⟨c, hRest, hStep⟩
  · exact absurd hSame.symm hOther
  · exact ⟨c, hStep, hRest⟩

theorem MergeEffect.over_root (hEffect : MergeEffect mt other m top)
    (hApart : Apart mt root m top) (hOver : mt.Over root d) (hOther : d ≠ root)
    (hStays : d ≠ m) : other.Over root d := by
  rcases hOver.thread hOther with ⟨c, hThread, hBelow⟩
  by_cases hIs : c = m
  · subst hIs
    have hTop := (hEffect.keeps hApart hApart.target hApart.other Relation.ReflTransGen.refl).2
    exact (hEffect.moves hApart hBelow (Or.inl hStays)).tail hTop
  · rcases hEffect.keeps hApart hThread hIs hBelow with ⟨hStill, hUp⟩
    exact Relation.ReflTransGen.tail hStill hUp

theorem Deep.merge (hDeep : Deep root d mt) (hApart : Apart mt root m top)
    (hEffect : MergeEffect mt other m top) : Deep root d other := by
  rcases hDeep with ⟨hDummy, hOver, p, hUp, hNotRoot⟩
  have hNotThread : ∀ t, (mt.msgs t).parent = some root → d ≠ t := by
    rintro t hThread rfl
    rw [hUp] at hThread
    exact hNotRoot (Option.some.inj hThread)
  have hStays := hNotThread m hApart.source
  have hNotTop := hNotThread top hApart.target
  have hOld : d ≠ mt.nmsgs := by
    rintro rfl
    cases hApart.fresh.symm.trans hUp
  have hOther : d ≠ root := by
    rintro rfl
    cases hApart.free.symm.trans hUp
  have hTopNode : top ≠ root := by
    rintro rfl
    cases hApart.free.symm.trans hApart.target
  refine ⟨?_, hEffect.over_root hApart hOver hOther hStays, ?_⟩
  · cases hEffect with
    | children _ _ _ hSame =>
      rw [hSame]
      exact hDummy
    | under _ _ hSame =>
      rw [hSame]
      exact hDummy
    | beside _ _ hNew =>
      rw [hNew, if_neg hNotTop, if_neg hOld]
      exact hDummy
  · cases hEffect with
    | children _ _ hParent _ =>
      rw [hParent, if_neg hStays]
      split
      · exact ⟨top, rfl, hTopNode⟩
      · exact ⟨p, hUp, hNotRoot⟩
    | under _ hParent _ =>
      rw [hParent, if_neg hStays]
      exact ⟨p, hUp, hNotRoot⟩
    | beside _ hParent _ =>
      rw [hParent, if_neg (not_or_intro hStays hOld)]
      split
      · exact ⟨mt.nmsgs, rfl, Ne.symm (Nat.ne_of_lt hApart.old)⟩
      · exact ⟨p, hUp, hNotRoot⟩

end Merge

------------
-- The Tree That Is Returned
------------

section Tree

variable {mt : Refmsgtable} {forest : Forest Nat} {root : Nat}

theorem Rooted.dummiesOnTop (hRooted : Rooted mt forest root) (hTopped : Topped root mt) :
    DummiesOnTop mt root := by
  intro m hIn hOther hDummy
  have hThreaded := hRooted.threaded
  have hOver := (hThreaded.inTree_iff root m).mp hIn
  have hParent : forest.parent m = some root := by
    rcases hOver.cases with hSame | ⟨p, hUp, _⟩
    · exact absurd hSame.symm hOther
    · rw [hUp, hTopped m p hDummy ((hThreaded.parent m).trans hUp)]
  constructor
  · rw [hThreaded.childOf_iff, forest.mem_children]
    exact hParent
  · rcases List.exists_mem_of_ne_nil _ (hRooted.full m hParent hDummy) with ⟨c, hMem⟩
    exact ⟨c, (hThreaded.childOf_iff m c).mpr hMem⟩

theorem Rooted.not_dummiesOnTop {d : Nat} (hRooted : Rooted mt forest root)
    (hDeep : Deep root d mt) : ¬ DummiesOnTop mt root := by
  rcases hDeep with ⟨hDummy, hOver, p, hUp, hNotRoot⟩
  have hThreaded := hRooted.threaded
  have hUpForest : forest.parent d = some p := (hThreaded.parent d).symm.trans hUp
  intro hOnTop
  have hOther : d ≠ root := by
    rintro rfl
    cases hRooted.top.symm.trans hUpForest
  have hIn : InTree mt root d :=
    (hThreaded.inTree_iff root d).mpr ((hThreaded.over_iff root d).mp hOver)
  have hChild := (hOnTop d hIn hOther hDummy).1
  rw [hThreaded.childOf_iff, forest.mem_children, hUpForest] at hChild
  exact hNotRoot (Option.some.inj hChild)

end Tree

/- The root is the next message, and keeps what there is. -/
theorem threadgetroot_added (calls : List Headers) : ∃ pruned rooted,
      Threaded (rfc822Threadprune (threadmsgs calls)) pruned ∧
      Rooted (rfc822Threadgetroot (rfc822Threadprune
          (threadmsgs calls))) rooted (threadmsgs calls).nmsgs ∧
      RootAdded (rfc822Threadprune (threadmsgs calls)) (rfc822Threadgetroot (rfc822Threadprune
          (threadmsgs calls))) pruned rooted := by
  rcases threadprune_unrooted (threadmsgs_unrooted calls) with
    ⟨pruned, _, hPruned, _, hNone, _, hFlags⟩
  rcases threadgetroot_rooted hPruned hNone hFlags with ⟨rooted, hRooted, _, hAdded⟩
  have hCount : (rfc822Threadprune (threadmsgs calls)).nmsgs = (threadmsgs calls).nmsgs :=
    (threadprune_relinked (threadmsgs calls)).nmsgs
  rw [hCount] at hRooted
  exact ⟨pruned, rooted, hPruned, hRooted, hAdded⟩

section Root

variable {calls : List Headers}

theorem threadgetroot_topped (hFree : ∀ m, ¬ (threadmsgs calls).Stuck m) :
    Topped (threadmsgs calls).nmsgs (rfc822Threadgetroot
        (rfc822Threadprune (threadmsgs calls))) := by
  rcases threadgetroot_added calls with ⟨pruned, rooted, hPruned, hRooted, hAdded⟩
  rcases threadmsgs_unrooted calls with ⟨forest, _, hThreaded, _⟩
  have hLinks := threadprune_relinked (threadmsgs calls)
  intro x p hDummy hUp
  rw [hRooted.threaded.parent] at hUp
  have hOther : x ≠ (threadmsgs calls).nmsgs := by
    rintro rfl
    cases hRooted.top.symm.trans hUp
  rcases hAdded.only x p hUp with hOld | ⟨_, hRoot⟩
  · have hIs : ((threadmsgs calls).msgs x).isdummy = true := by
      rw [← hLinks.isdummy, ← hDummy]
      rw [← hLinks.nmsgs] at hOther
      exact (hAdded.isdummy hOther).symm
    have hNone := threadprune_dummies hThreaded hFree hIs
    rw [hPruned.parent, hOld] at hNone
    cases hNone
  · exact hRoot.trans hLinks.nmsgs

theorem threadgetroot_deep (hStuck : ∃ m, (threadmsgs calls).Stuck m) :
    ∃ d, Deep (threadmsgs calls).nmsgs d (rfc822Threadgetroot
        (rfc822Threadprune (threadmsgs calls))) := by
  rcases threadgetroot_added calls with ⟨pruned, rooted, hPruned, hRooted, hAdded⟩
  rcases threadmsgs_unrooted calls with ⟨forest, _, hThreaded, _⟩
  have hLinks := threadprune_relinked (threadmsgs calls)
  rcases threadprune_stuck hThreaded hStuck with ⟨d, hDummy, hParent⟩
  rw [hPruned.parent] at hParent
  rcases Option.ne_none_iff_exists'.mp hParent with ⟨p, hUp⟩
  have hUsed := hPruned.used d p hUp
  have hBelow := hAdded.covered d hParent
  rw [hLinks.nmsgs] at hUsed hBelow
  refine ⟨d, ?_, ?_, p, ?_, Nat.ne_of_lt hUsed.2⟩
  · rw [← hDummy, ← hLinks.isdummy]
    apply hAdded.isdummy
    rw [hLinks.nmsgs]
    exact Nat.ne_of_lt hUsed.1
  · exact (hRooted.threaded.over_iff _ d).mpr hBelow
  · rw [hRooted.threaded.parent]
    exact hAdded.kept d p hUp

/- Without stuck dummies, the tree has dummies on top only. -/
theorem thread_dummiesOnTop (qsort : Qsort) (hFree : ∀ m, ¬ (threadmsgs calls).Stuck m) :
    ∃ mt root, rfc822Thread qsort (threadmsgs calls) = some mt ∧
      mt.rootptr = some root ∧ DummiesOnTop mt root := by
  rcases thread_later qsort calls (Topped (threadmsgs calls).nmsgs)
    (fun _ _ hParents hDummies hOld => hOld.congr hParents hDummies)
    (fun _ _ _ _ hApart hDummies hEffect hOld => hOld.merge hApart hDummies hEffect)
    (threadgetroot_topped hFree) with
    ⟨mt, forest, hDone, hRooted, hLast⟩
  exact ⟨mt, _, hDone, hRooted.rootptr, hRooted.dummiesOnTop hLast⟩

/- A stuck dummy stays below other messages. -/
theorem thread_not_dummiesOnTop (qsort : Qsort) (hStuck : ∃ m, (threadmsgs calls).Stuck m) :
    ∃ mt root, rfc822Thread qsort (threadmsgs calls) = some mt ∧
      mt.rootptr = some root ∧ ¬ DummiesOnTop mt root := by
  rcases threadgetroot_deep hStuck with ⟨d, hDeep⟩
  rcases thread_later qsort calls (Deep (threadmsgs calls).nmsgs d)
    (fun _ _ hParents hDummies hOld => hOld.congr hParents hDummies)
    (fun _ _ _ _ hApart _ hEffect hOld => hOld.merge hApart hEffect) hDeep with
    ⟨mt, forest, hDone, hRooted, hLast⟩
  exact ⟨mt, _, hDone, hRooted.rootptr, hRooted.not_dummiesOnTop hLast⟩

end Root

/-
  The tree that is returned has its dummies right under the
  root, with children, unless a dummy is stuck when the calls
  are over.
-/
theorem thread_dummiesOnTop_iff (qsort : Qsort) (calls : List Headers) :
    ∃ mt root, rfc822Thread qsort (threadmsgs calls) = some mt ∧ mt.rootptr = some root ∧
      (DummiesOnTop mt root ↔ ∀ m, ¬ (threadmsgs calls).Stuck m) := by
  by_cases hStuck : ∃ m, (threadmsgs calls).Stuck m
  · rcases thread_not_dummiesOnTop qsort hStuck with ⟨mt, root, hDone, hRoot, hNot⟩
    rcases hStuck with ⟨m, hIs⟩
    exact ⟨mt, root, hDone, hRoot, iff_of_false hNot fun hFree => hFree m hIs⟩
  · have hFree := not_exists.mp hStuck
    rcases thread_dummiesOnTop qsort hFree with ⟨mt, root, hDone, hRoot, hOnTop⟩
    exact ⟨mt, root, hDone, hRoot, iff_of_true hOnTop hFree⟩

/- Two answers to a message that is missing, below two others. -/
def missingAnswerCalls : List Headers :=
  [⟨some (bytes "<a>"), none, none, none, 1⟩,
    ⟨some (bytes "<b>"), some (bytes "<a>"), none, none, 2⟩,
    ⟨some (bytes "<x>"), some (bytes "<a> <b> <d>"), none, none, 3⟩,
    ⟨some (bytes "<y>"), some (bytes "<a> <b> <d>"), none, none, 4⟩]

theorem missingAnswer_stuck : (threadmsgs missingAnswerCalls).Stuck 2 := by
  have hTable : ((threadmsgs missingAnswerCalls).msgs 2).isdummy = true ∧
        ((threadmsgs missingAnswerCalls).msgs 0).isdummy = false ∧
        ((threadmsgs missingAnswerCalls).msgs 1).isdummy = false ∧
        ((threadmsgs missingAnswerCalls).msgs 1).parent = some 0 ∧
        ((threadmsgs missingAnswerCalls).msgs 2).parent = some 1 ∧
        ((threadmsgs missingAnswerCalls).msgs 3).parent = some 2 ∧
        ((threadmsgs missingAnswerCalls).msgs 4).parent = some 2 := by
    decide +kernel
  generalize threadmsgs missingAnswerCalls = mt at hTable ⊢
  rcases hTable with ⟨hDummy, hRealA, hRealB, hB, hD, hX, hY⟩
  have hLate : ∀ x, 2 ≤ x → ¬ mt.Early 2 x := fun x hLess hEarly => Nat.not_lt.mpr hLess hEarly.2.2
  have hReal : ∀ x, (mt.msgs x).isdummy = false → ¬ mt.Early 2 x := by
    intro x hIs hEarly
    rw [hEarly.1] at hIs
    cases hIs
  refine ⟨hDummy, ⟨3, 4, Nat.succ_ne_self 3 |>.symm,
    hLate 3 (Nat.le_succ 2), hLate 4 (Nat.le_add_right 2 2),
    ?_, ?_⟩, 1, 0, ?_, ?_⟩
  · exact Links.Climbs.stop hX (hLate 2 (Nat.le_refl 2))
  · exact Links.Climbs.stop hY (hLate 2 (Nat.le_refl 2))
  · exact Links.Climbs.stop hD (hReal 1 hRealB)
  · exact Links.Climbs.stop hB (hReal 0 hRealA)

/- The missing message stays in the tree, third from the root. -/
theorem thread_keeps_missingAnswer : ∃ mt root, rfc822Thread Qsort.mergeSort
        (threadmsgs missingAnswerCalls) = some mt ∧
      mt.rootptr = some root ∧
      ¬ DummiesOnTop mt root :=
  thread_not_dummiesOnTop Qsort.mergeSort ⟨2, missingAnswer_stuck⟩

end Wmail.Rfc822
