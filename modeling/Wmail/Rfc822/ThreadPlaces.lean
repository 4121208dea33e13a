import Wmail.Rfc822.ThreadMerge

/-
  Where messages are while threads are merged.

  After the subjects are gathered, every entry has a thread
  of its subject, which is a dummy if one of them is.  A
  message of a thread stays below that thread, or comes below
  the one in the table for its subject.

  Key theorems include:
    * `Placing.step`
    * `threadmergesubj_placed`
-/

------------
-- The Table Of Subjects
------------

namespace Wmail.Rfc822

/-
  Every entry has a thread of its subject among those that
  have been gathered, a dummy if there is one.
-/
structure Indexed (mt : Refmsgtable) (gathered : Nat → Prop) : Prop where
  entry : ∀ n e, e ∈ mt.subjtable n → ∃ t s, e.msg = some t ∧ gathered t ∧
        threadSubj mt t = some s ∧ s ≠ [] ∧ (rfc822Coresubj s).1 = e.subj
  dummy : ∀ t s, gathered t → (mt.msgs t).isdummy = true →
      threadSubj mt t = some s → s ≠ [] → ∀ n e, e ∈ mt.subjtable n →
          e.subj = (rfc822Coresubj s).1 → ∀ top, e.msg = some top → (mt.msgs top).isdummy = true

section Gathering

variable {mt now other : Refmsgtable} {forest : Forest Nat}
variable {root m : Nat} {rest : List Nat} {s : List Byte}

/- An entry after a thread is old, or has the new thread. -/
theorem gatherMsg_entries (hChains : SubjectChains now.subjtable)
    (hSubj : threadSubj now m = some s) (hSome : s ≠ [])
    (hDone : gatherMsg now m = some other) {n : Nat} {e : Subjlookup}
    (hMem : e ∈ other.subjtable n) :
    (e ∈ now.subjtable n ∧
        (e.subj = (rfc822Coresubj s).1 →
          (now.msgs m).isdummy = true → ∀ top, e.msg = some top → (now.msgs top).isdummy = true)) ∨
      (e.msg = some m ∧ e.subj = (rfc822Coresubj s).1 ∧
        ∀ k h, h ∈ now.subjtable k → h.subj = (rfc822Coresubj s).1 →
            ∀ top, h.msg = some top → (now.msgs top).isdummy = false) := by
  have hCreated := findsubjCreate_created hChains s
  have hCases := gatherMsg_cases hSubj hSome
  generalize findsubjCreate now s = found at hCreated hCases
  -- an entry of the subject is the one that was found
  have hSame : ∀ h k, h ∈ found.1.subjtable k → h.subj = (rfc822Coresubj s).1 → h = found.2 := by
    intro h k hThere hIs
    have hHash := hCreated.chains.hash k h hThere
    rw [hIs] at hHash
    rw [← hHash] at hThere
    exact hCreated.chains.unique hThere hCreated.mem (hIs.trans hCreated.subj.symm)
  rcases hCases with ⟨hStays, top, hTop, hDummy⟩ | ⟨isrefwd, hTakes, hReal⟩
  · rw [hDone] at hStays
    cases hStays
    left
    constructor
    · rcases hCreated.entry n e hMem with hOld | ⟨_, hNone⟩
      · exact hOld
      · rw [hTop] at hNone
        cases hNone
    · intro hIs hNow x hX
      rw [hSame e n hMem hIs, hTop] at hX
      cases hX
      exact hDummy hNow
  · rw [hDone] at hTakes
    cases hTakes
    rcases mem_setSubj hCreated.chains hMem with ⟨hMsg, hIs⟩ | ⟨hIn, hOther⟩
    · right
      refine ⟨hMsg, hIs.trans hCreated.subj, ?_⟩
      intro k h hThere hOf x hX
      rw [hSame h k (hCreated.kept k h hThere) hOf] at hX
      exact hReal x hX
    · rw [hCreated.subj] at hOther
      left
      constructor
      · rcases hCreated.entry n e hIn with hOld | ⟨hIs, _⟩
        · exact hOld
        · rw [hCreated.subj] at hIs
          exact absurd hIs hOther
      · intro hIs
        exact absurd hIs hOther

/- A thread without a subject leaves the table as it is. -/
theorem gatherMsg_skip (hSubj : threadSubj now m = some [])
    (hDone : gatherMsg now m = some other) : other = now := by
  unfold gatherMsg at hDone
  rw [hSubj] at hDone
  exact (Option.some.inj hDone).symm

/- One thread more has been gathered. -/
theorem Indexed.advance {gathered : Nat → Prop} (hIndexed : Indexed now gathered)
    (hChains : SubjectChains now.subjtable) (hListed : ∀ t, gathered t → Listed now t)
    (hTable : other.msgs = now.msgs) (hSubj : threadSubj now m = some s)
    (hDone : gatherMsg now m = some other) : Indexed other fun t => gathered t ∨ t = m := by
  have hSubjs : ∀ t, threadSubj other t = threadSubj now t := by
    intro t
    unfold threadSubj
    rw [hTable]
  by_cases hSome : s = []
  · subst hSome
    have hSkip := gatherMsg_skip hSubj hDone
    subst hSkip
    constructor
    · intro n e hMem
      rcases hIndexed.entry n e hMem with ⟨t, x, hMsg, hGathered, hOf⟩
      exact ⟨t, x, hMsg, Or.inl hGathered, hOf⟩
    · rintro t x (hGathered | rfl) hDummy hX hNot
      · exact hIndexed.dummy t x hGathered hDummy hX hNot
      · rw [hSubj] at hX
        cases hX
        exact absurd rfl hNot
  · constructor
    · intro n e hMem
      rcases gatherMsg_entries hChains hSubj hSome hDone hMem with ⟨hOld, _⟩ | ⟨hMsg, hIs, _⟩
      · rcases hIndexed.entry n e hOld with ⟨t, x, hMsg, hGathered, hX, hOf⟩
        exact ⟨t, x, hMsg, Or.inl hGathered, (hSubjs t).trans hX, hOf⟩
      · exact ⟨m, s, hMsg, Or.inr rfl, (hSubjs m).trans hSubj, hSome, hIs.symm⟩
    · intro t x hGathered hDummy hX hNot n e hMem hIs top hTop
      rw [hTable] at hDummy ⊢
      rw [hSubjs] at hX
      rcases gatherMsg_entries hChains hSubj hSome hDone hMem
        with ⟨hOld, hKeeps⟩ | ⟨hMsg, hOf, hReal⟩
      · rcases hGathered with hBefore | rfl
        · exact hIndexed.dummy t x hBefore hDummy hX hNot n e hOld hIs top hTop
        · rw [hSubj] at hX
          cases hX
          exact hKeeps hIs hDummy top hTop
      · rw [hMsg] at hTop
        cases hTop
        rcases hGathered with hBefore | rfl
        · -- the entry had a dummy, and so the old thread stays
          rcases hListed t hBefore x hX hNot with ⟨h, hThere, hSame⟩
          rcases hIndexed.entry _ h hThere with ⟨y, _, hY, _⟩
          have hOld := hIndexed.dummy t x hBefore hDummy hX hNot
            _ h hThere hSame y hY
          have hEq : h.subj = (rfc822Coresubj s).1 := hSame.trans (hIs.symm.trans hOf)
          rw [hReal _ h hThere hEq y hY] at hOld
          cases hOld
        · exact hDummy

/- The stage that gathers subjects. -/
theorem threadgathersubj_indexed (hRooted : Rooted mt forest root)
    (hNoSubjects : ∀ n, mt.subjtable n = []) :
    ∃ other, rfc822Threadgathersubj mt root = some other ∧ Gathered other forest root ∧
      Indexed other (fun t => forest.parent t = some root) ∧
      ∃ table, other = { mt with subjtable := table } := by
  have hStart : Gathering mt forest root (forest.children root) mt := Gathering.start hNoSubjects
  have hNone : Indexed mt fun t => t ∈ forest.children root ∧ t ∉ forest.children root := by
    constructor
    · intro n e hMem
      rw [hNoSubjects] at hMem
      cases hMem
    · intro t _ hGathered
      exact absurd hGathered.1 hGathered.2
  have hRun := @forSiblings_run gatherMsg (fun ms now => Gathering mt forest root ms now ∧
      Indexed now fun t => t ∈ forest.children root ∧ t ∉ ms)
    ?_ mt _ _ (hRooted.threaded.length_children_le root)
    ⟨hStart, hNone⟩
  · rcases hRun with ⟨other, hLoop, hEnd, hIndexed⟩
    refine ⟨other, ?_, hEnd.gathered hRooted, ?_, hEnd.table⟩
    · unfold rfc822Threadgathersubj
      rw [hRooted.threaded.firstchild]
      exact hLoop
    · simpa [forest.mem_children] using hIndexed
  · intro now m rest hBoth
    rcases hBoth with ⟨hNow, hIndexed⟩
    rcases gatherMsg_gathering hRooted hNow with ⟨other, hDone, hNext, hOther⟩
    rcases hNow.table with ⟨before, hBefore⟩
    rcases hOther.table with ⟨after, hAfter⟩
    rcases hNow.split with ⟨front, hSplit, hListed⟩
    have hMsgs : other.msgs = now.msgs := by rw [hBefore, hAfter]
    have hParent := (forest.mem_children root m).mp (Represents.mem_of_split hSplit)
    rcases hRooted.threadSubj hParent with ⟨s, hSubj⟩
    have hSubjNow : threadSubj now m = some s := by
      rw [hBefore]
      exact hSubj
    have hGathered : ∀ t, t ∈ forest.children root ∧ t ∉ m :: rest → Listed now t := by
      rintro t ⟨hMem, hLeft⟩
      rw [hSplit] at hMem
      exact hListed t ((List.mem_append.mp hMem).resolve_right hLeft)
    have hFresh : m ∉ rest := by
      have hNodup := forest.nodup root
      rw [hSplit] at hNodup
      exact (List.nodup_cons.mp (List.nodup_append.mp hNodup).2.1).1
    refine ⟨other, hDone, hNext, hOther, ?_⟩
    have hMore := hIndexed.advance hNow.subjects.chains hGathered hMsgs hSubjNow hDone
    have hSame : (fun t => (t ∈ forest.children root ∧ t ∉ m :: rest) ∨ t = m) =
        fun t => t ∈ forest.children root ∧ t ∉ rest := by
      funext t
      by_cases hIs : t = m
      · subst hIs
        simp [hSplit, hFresh]
      · simp [hIs]
    rw [← hSame]
    exact hMore

end Gathering

------------
-- What Merging Changes
------------

/- The message `c` is `x`, or above it. -/
def Refmsgtable.Over (mt : Refmsgtable) (c x : Nat) : Prop :=
  Relation.ReflTransGen (fun x y => (mt.msgs x).parent = some y) x c

/- The parents and the dummies after `m` is merged into `top`. -/
inductive MergeEffect (mt other : Refmsgtable) (m top : Nat) : Prop where
  | children
      (hDummy : (mt.msgs m).isdummy = true)
      (hTopDummy : (mt.msgs top).isdummy = true)
      (hParent :
        ∀ x, (other.msgs x).parent =
          if x = m then
            none
          else if (mt.msgs x).parent = some m then
            some top
          else
            (mt.msgs x).parent)
      (hSame :
        ∀ x, (other.msgs x).isdummy = (mt.msgs x).isdummy)
  | under (hNot : ¬ ((mt.msgs top).isdummy = true ∧ (mt.msgs m).isdummy = true)) (hParent :
        ∀ x, (other.msgs x).parent = if x = m then some top else (mt.msgs x).parent)
      (hSame :
        ∀ x, (other.msgs x).isdummy = (mt.msgs x).isdummy)
  | beside
      (hReal : (mt.msgs top).isdummy = false)
      (hParent :
        ∀ x, (other.msgs x).parent =
          if x = m ∨ x = mt.nmsgs then
            some top
          else if (mt.msgs x).parent = some top then
            some mt.nmsgs
          else
            (mt.msgs x).parent)
      (hDummies :
        ∀ x, (other.msgs x).isdummy =
          if x = top then
            true
          else if x = mt.nmsgs then
            false
          else
            (mt.msgs x).isdummy)

section Effect

variable {mt other : Refmsgtable} {forest : Forest Nat} {root m top c x : Nat}

theorem Threaded.over_iff (hThreaded : Threaded mt forest) (c x : Nat) :
    mt.Over c x ↔ forest.Above c x := by
  unfold Refmsgtable.Over Forest.Above
  simp only [hThreaded.parent]

theorem mergeUnder_effect (hRooted : Rooted mt forest root)
    (hParent : forest.parent m = some root) (hTop : forest.parent top = some root)
    (hOther : top ≠ m) (hNot : ¬ ((mt.msgs top).isdummy = true ∧ (mt.msgs m).isdummy = true)) :
    MergeEffect mt (mergeUnder mt m top) m top := by
  rcases mergeUnder_threaded hRooted.threaded hRooted.top
    hParent hTop hOther with ⟨merged, hThreaded, hWent⟩
  refine MergeEffect.under hNot ?_ (mergeUnder_relinked mt m top).isdummy
  intro x
  rw [hThreaded.parent, hRooted.threaded.parent, hWent.parent]

theorem mergeDummy_effect (hRooted : Rooted mt forest root)
    (hParent : forest.parent m = some root) (hTop : forest.parent top = some root)
    (hOther : top ≠ m) (hReal : (mt.msgs top).isdummy = false) :
    MergeEffect mt (mergeDummy mt m top) m top := by
  rcases mergeDummy_threaded hRooted hParent hTop hOther with ⟨merged, hThreaded, hWent⟩
  have hLinks := mergeDummy_relinked mt m top
  have hBound := (hRooted.threaded.used top root hTop).1
  refine MergeEffect.beside hReal ?_ ?_
  · intro x
    rw [hThreaded.parent, hRooted.threaded.parent, hWent.parent]
  · intro x
    rw [hLinks.isdummy]
    by_cases hIs : x = top
    · rw [if_pos hIs, hIs]
      exact (dummied_top hBound).1
    · rw [if_neg hIs]
      by_cases hNew : x = mt.nmsgs
      · rw [if_pos hNew, hNew, (dummied_new hBound).1]
        exact hReal
      · rw [if_neg hNew, dummied_other hIs hNew]

theorem mergeInto_effect (hRooted : Rooted mt forest root)
    (hParent : forest.parent m = some root) (hTop : forest.parent top = some root)
    (hOther : top ≠ m) (isrefwd : Bool) : MergeEffect mt (mergeInto mt m top isrefwd) m top := by
  unfold mergeInto
  split
  · rename_i hBoth
    rcases mergeChildren_threaded hRooted.threaded hRooted.top
      hParent hTop hOther with ⟨merged, hThreaded, hWent⟩
    refine MergeEffect.children hBoth.2 hBoth.1 ?_ (mergeChildren_relinked mt m top).isdummy
    intro x
    rw [hThreaded.parent, hRooted.threaded.parent, hWent.parent]
  · rename_i hNot
    have hUnder := mergeUnder_effect hRooted hParent hTop hOther hNot
    split
    · exact hUnder
    · rename_i hDummy
      split
      · exact hUnder
      · exact mergeDummy_effect hRooted hParent hTop hOther (Bool.eq_false_iff.mpr hDummy)

/- Another thread keeps its subject, or is the new dummy. -/
theorem mergeInto_subj (hRooted : Rooted mt forest root)
    (hParent : forest.parent m = some root) (hTop : forest.parent top = some root)
    (hOther : top ≠ m) (isrefwd : Bool) {t : Nat} (hStays : t ≠ m)
    (hUp : forest.parent t = some root) :
    (((mergeInto mt m top isrefwd).msgs t).isdummy = (mt.msgs t).isdummy ∧
      threadSubj (mergeInto mt m top isrefwd) t = threadSubj mt t) ∨
      (t = top ∧ threadSubj (mergeInto mt m top isrefwd) t = some []) := by
  unfold mergeInto
  split
  · exact Or.inl ⟨(mergeChildren_relinked mt m top).isdummy t,
      mergeChildren_subj hRooted hParent hTop hOther hStays hUp⟩
  · have hUnder := And.intro ((mergeUnder_relinked mt m top).isdummy t)
      (mergeUnder_subj hRooted hParent hTop hOther hUp)
    split
    · exact Or.inl hUnder
    · split
      · exact Or.inl hUnder
      · by_cases hIs : t = top
        · subst hIs
          exact Or.inr ⟨rfl, mergeDummy_subj_top hRooted hParent hTop hOther⟩
        · have hLinks := mergeDummy_relinked mt m top
          have hNew := Nat.ne_of_lt (hRooted.threaded.used t root hUp).1
          left
          rw [hLinks.isdummy, dummied_other hIs hNew]
          exact ⟨rfl, mergeDummy_subj hRooted hParent hTop hOther hIs hUp⟩

/- The threads that a merge is about. -/
structure Apart (mt : Refmsgtable) (root m top : Nat) : Prop where
  free : (mt.msgs root).parent = none
  source : (mt.msgs m).parent = some root
  target : (mt.msgs top).parent = some root
  other : top ≠ m
  fresh : (mt.msgs mt.nmsgs).parent = none
  old : root < mt.nmsgs

theorem Refmsgtable.Over.eq_of_top (hOver : mt.Over c x)
    (hTop : (mt.msgs x).parent = none) : c = x := by
  rcases hOver.cases_head with hSame | ⟨y, hStep, _⟩
  · exact hSame.symm
  · rw [hTop] at hStep
    cases hStep

/- A thread is above another only if it is the same. -/
theorem Refmsgtable.Over.eq_of_threads (hOver : mt.Over c x)
    (hRoot : (mt.msgs root).parent = none) (hThread : (mt.msgs c).parent = some root)
    (hOther : (mt.msgs x).parent = some root) : c = x := by
  rcases hOver.cases_head with hSame | ⟨y, hStep, hRest⟩
  · exact hSame.symm
  · rw [hOther] at hStep
    cases hStep
    have hTop : c = root := Refmsgtable.Over.eq_of_top hRest hRoot
    rw [hTop, hRoot] at hThread
    cases hThread

namespace MergeEffect

/- Another thread stays, with what is below it. -/
theorem keeps (hEffect : MergeEffect mt other m top) (hApart : Apart mt root m top)
    (hThread : (mt.msgs c).parent = some root) (hStays : c ≠ m) (hOver : mt.Over c x) :
    other.Over c x ∧ (other.msgs c).parent = some root := by
  have hRootTop : some root ≠ some top := by
    intro hSame
    cases hSame
    cases hApart.free.symm.trans hApart.target
  have hRootNode : some root ≠ some m := by
    intro hSame
    cases hSame
    cases hApart.free.symm.trans hApart.source
  have hOld : c ≠ mt.nmsgs := by
    rintro rfl
    cases hApart.fresh.symm.trans hThread
  have hUp : (other.msgs c).parent = some root := by
    cases hEffect with
    | children _ _ hParent _ => rw [hParent, if_neg hStays, hThread, if_neg hRootNode]
    | under _ hParent _ => rw [hParent, if_neg hStays, hThread]
    | beside _ hParent _ =>
      rw [hParent, if_neg (not_or_intro hStays hOld), hThread, if_neg hRootTop]
  refine ⟨?_, hUp⟩
  unfold Refmsgtable.Over at hOver ⊢
  induction hOver using Relation.ReflTransGen.head_induction_on with
  | refl => exact Relation.ReflTransGen.refl
  | @head y z hStep hRest ih =>
    have hNode : y ≠ m := by
      rintro rfl
      exact hStays (Refmsgtable.Over.eq_of_threads
        (Relation.ReflTransGen.head hStep hRest) hApart.free
        hThread hApart.source)
    have hNotUnder : z ≠ m := by
      rintro rfl
      exact hStays (Refmsgtable.Over.eq_of_threads hRest hApart.free hThread hApart.source)
    have hNotNew : y ≠ mt.nmsgs := by
      rintro rfl
      cases hApart.fresh.symm.trans hStep
    cases hEffect with
    | children _ _ hParent _ =>
      refine Relation.ReflTransGen.head ?_ ih
      rw [hParent, if_neg hNode, hStep, if_neg]
      intro hSame
      exact hNotUnder (Option.some.inj hSame)
    | under _ hParent _ =>
      refine Relation.ReflTransGen.head ?_ ih
      rw [hParent, if_neg hNode, hStep]
    | beside _ hParent _ =>
      have hYUp := hParent y
      rw [if_neg (not_or_intro hNode hNotNew), hStep] at hYUp
      by_cases hUnder : z = top
      · -- the child of `top` is below the new message
        subst hUnder
        rw [if_pos rfl] at hYUp
        have hNewUp := hParent mt.nmsgs
        rw [if_pos (Or.inr rfl)] at hNewUp
        exact Relation.ReflTransGen.head hYUp (Relation.ReflTransGen.head hNewUp ih)
      · rw [if_neg fun hSame => hUnder (Option.some.inj hSame)] at hYUp
        exact Relation.ReflTransGen.head hYUp ih

/- What was below the merged thread comes below the other. -/
theorem moves (hEffect : MergeEffect mt other m top) (hApart : Apart mt root m top)
    (hOver : mt.Over m x) (hStays : x ≠ m ∨ (mt.msgs m).isdummy = false) : other.Over top x := by
  have hSelf : (mt.msgs m).isdummy = false → other.Over top m := by
    intro hReal
    refine Relation.ReflTransGen.single ?_
    cases hEffect with
    | children hDummy _ _ _ =>
      rw [hReal] at hDummy
      cases hDummy
    | under _ hParent _ => rw [hParent, if_pos rfl]
    | beside _ hParent _ => rw [hParent, if_pos (Or.inl rfl)]
  by_cases hIs : x = m
  · subst hIs
    exact hSelf (hStays.resolve_left fun hNot => hNot rfl)
  · clear hStays
    unfold Refmsgtable.Over at hOver hSelf ⊢
    induction hOver using Relation.ReflTransGen.head_induction_on with
    | refl => exact absurd rfl hIs
    | @head y z hStep hRest ih =>
      have hNotNew : y ≠ mt.nmsgs := by
        rintro rfl
        cases hApart.fresh.symm.trans hStep
      by_cases hUnder : z = m
      · subst hUnder
        cases hEffect with
        | children _ _ hParent _ =>
          refine Relation.ReflTransGen.single ?_
          rw [hParent, if_neg hIs, if_pos hStep]
        | under hNot hParent _ =>
          have hZUp := hParent z
          rw [if_pos rfl] at hZUp
          refine Relation.ReflTransGen.head ?_ (Relation.ReflTransGen.single hZUp)
          rw [hParent, if_neg hIs, hStep]
        | beside _ hParent _ =>
          have hZUp := hParent z
          rw [if_pos (Or.inl rfl)] at hZUp
          refine Relation.ReflTransGen.head ?_ (Relation.ReflTransGen.single hZUp)
          rw [hParent, if_neg (not_or_intro hIs hNotNew), hStep, if_neg]
          intro hSame
          exact hApart.other (Option.some.inj hSame).symm
      · have hNotTop : z ≠ top := by
          rintro rfl
          exact hUnder (Refmsgtable.Over.eq_of_threads hRest
            hApart.free hApart.source hApart.target).symm
        refine Relation.ReflTransGen.head ?_ (ih hUnder)
        cases hEffect with
        | children _ _ hParent _ =>
          rw [hParent, if_neg hIs, hStep, if_neg]
          intro hSame
          exact hUnder (Option.some.inj hSame)
        | under _ hParent _ => rw [hParent, if_neg hIs, hStep]
        | beside _ hParent _ =>
          rw [hParent, if_neg (not_or_intro hIs hNotNew), hStep, if_neg]
          intro hSame
          exact hNotTop (Option.some.inj hSame)

end MergeEffect

end Effect

------------
-- Places
------------

/- The message whose subject is the thread's. -/
def threadMsg (mt : Refmsgtable) (t : Nat) : Option Nat :=
  if (mt.msgs t).isdummy then (mt.msgs t).firstchild else some t

/-
  Where the message of the thread `t` of the gathered table
  is: in its thread, or in that of the table for its subject.
-/
def PlaceOf (gathered : Refmsgtable) (ms : List Nat) (t c : Nat) : Prop :=
  (t ∈ ms ∧ c = t) ∨
    (t ∉ ms ∧ ∃ s, threadSubj gathered t = some s ∧
      ((s = [] ∧ c = t) ∨ (s ≠ [] ∧ threadTop gathered s = some c)))

/- The thread is as it was, or it became a common dummy. -/
def Waiting (gathered mt : Refmsgtable) (t : Nat) : Prop :=
  ((mt.msgs t).isdummy = (gathered.msgs t).isdummy ∧ threadSubj mt t = threadSubj gathered t) ∨
    (threadSubj mt t = some [] ∧
      ∃ s, threadSubj gathered t = some s ∧ s ≠ [] ∧ threadTop gathered s = some t)

/- The threads `ms` of the gathered table are left. -/
structure Placing (gathered : Refmsgtable) (root : Nat) (ms : List Nat) (mt : Refmsgtable) :
    Prop where
  table : mt.subjtable = gathered.subjtable
  size : gathered.nmsgs ≤ mt.nmsgs
  dummy : ∀ x, x < gathered.nmsgs → (gathered.msgs x).isdummy = true → (mt.msgs x).isdummy = true
  waiting : ∀ t, t ∈ ms → Waiting gathered mt t
  place : ∀ t p, (gathered.msgs t).parent = some root → threadMsg gathered t = some p →
        ∃ c, (mt.msgs c).parent = some root ∧ mt.Over c p ∧ PlaceOf gathered ms t c

section Places

variable {gathered mt other : Refmsgtable} {forest merged start : Forest Nat}
variable {root m top : Nat} {nodes rest : List Nat} {sent : List (List Byte × Nat × Int)}

theorem threadTop_congr (hTable : mt.subjtable = gathered.subjtable) (s : List Byte) :
    threadTop mt s = threadTop gathered s := by
  unfold threadTop findsubj
  rw [hTable]

/- The thread in the table depends on the base subject. -/
theorem threadTop_core {s x : List Byte} (hSame : (rfc822Coresubj s).1 = (rfc822Coresubj x).1) :
    threadTop mt s = threadTop mt x := by
  unfold threadTop findsubj
  simp only [hSame]

/- The thread of an entry has the subject of the entry. -/
theorem Indexed.threadTop {known : Nat → Prop} (hIndexed : Indexed mt known) {s : List Byte}
    (hTop : threadTop mt s = some top) :
    ∃ x, threadSubj mt top = some x ∧ x ≠ [] ∧ (rfc822Coresubj x).1 = (rfc822Coresubj s).1 ∧
        known top := by
  unfold Rfc822.threadTop at hTop
  rcases Option.bind_eq_some_iff.mp hTop with ⟨e, hFound, hMsg⟩
  rcases findsubj_eq_some hFound with ⟨hMem, hIs⟩
  rcases hIndexed.entry _ e hMem with ⟨t, x, hT, hKnown, hSubj, hSome, hCore⟩
  cases hT.symm.trans hMsg
  exact ⟨x, hSubj, hSome, hCore.trans hIs, hKnown⟩

/- The message of a thread is the thread, or a child of it. -/
theorem Rooted.threadMsg_over (hRooted : Rooted mt forest root) {t p : Nat}
    (hMsg : threadMsg mt t = some p) : mt.Over t p ∧ (p ≠ t ∨ (mt.msgs t).isdummy = false) := by
  unfold threadMsg at hMsg
  split at hMsg
  · rw [hRooted.threaded.firstchild] at hMsg
    have hParent := (forest.mem_children t p).mp (List.mem_of_head? hMsg)
    constructor
    · refine Relation.ReflTransGen.single ?_
      rw [hRooted.threaded.parent]
      exact hParent
    · left
      exact forest.ne_of_parent hParent
  · rename_i hDummy
    cases hMsg
    exact ⟨Relation.ReflTransGen.refl, Or.inr (Bool.eq_false_iff.mpr hDummy)⟩

theorem Merging.apart (hMerging : Merging mt forest root nodes sent (m :: rest))
    (hTop : (mt.msgs top).parent = some root) (hOther : top ≠ m) : Apart mt root m top := by
  have hThreaded := hMerging.rooted.threaded
  refine ⟨?_, ?_, hTop, hOther, ?_, (hThreaded.used m root hMerging.parent).2⟩
  · rw [hThreaded.parent]
    exact hMerging.rooted.top
  · rw [hThreaded.parent]
    exact hMerging.parent
  · rw [hThreaded.parent]
    exact hThreaded.parent_of_nmsgs_le (Nat.le_refl _)

theorem mergeInto_kept (mt : Refmsgtable) (m top : Nat) (isrefwd : Bool) :
    (mergeInto mt m top isrefwd).subjtable = mt.subjtable ∧
      mt.nmsgs ≤ (mergeInto mt m top isrefwd).nmsgs := by
  have hUnder := mergeUnder_relinked mt m top
  unfold mergeInto
  split
  · have hInto := mergeChildren_relinked mt m top
    exact ⟨hInto.subjtable, Nat.le_of_eq hInto.nmsgs.symm⟩
  · split
    · exact ⟨hUnder.subjtable, Nat.le_of_eq hUnder.nmsgs.symm⟩
    · split
      · exact ⟨hUnder.subjtable, Nat.le_of_eq hUnder.nmsgs.symm⟩
      · have hBeside := mergeDummy_relinked mt m top
        refine ⟨hBeside.subjtable, ?_⟩
        rw [hBeside.nmsgs]
        exact Nat.le_succ mt.nmsgs

namespace Placing

/- Before the loop every thread is in its own place. -/
theorem init (hRooted : Rooted mt forest root) : Placing mt root (forest.children root) mt := by
  refine ⟨rfl, Nat.le_refl _, fun _ _ hDummy => hDummy, fun _ _ => Or.inl ⟨rfl, rfl⟩, ?_⟩
  intro t p hParent hMsg
  refine ⟨t, hParent, (hRooted.threadMsg_over hMsg).1, Or.inl ⟨?_, rfl⟩⟩
  rw [forest.mem_children, ← hRooted.threaded.parent]
  exact hParent

/- A thread that waits is as it was when it has a subject. -/
theorem eq_of_subj (hPlacing : Placing gathered root (m :: rest) mt) {s : List Byte}
    (hSubj : threadSubj mt m = some s) (hSome : s ≠ []) :
    (mt.msgs m).isdummy = (gathered.msgs m).isdummy ∧ threadSubj gathered m = some s := by
  rcases hPlacing.waiting m List.mem_cons_self with ⟨hDummy, hSame⟩ | ⟨hEmpty, _⟩
  · exact ⟨hDummy, hSame ▸ hSubj⟩
  · rw [hSubj] at hEmpty
    exact absurd (Option.some.inj hEmpty) hSome

/- The thread stays, and its message with it. -/
theorem stay (hPlacing : Placing gathered root (m :: rest) mt) (hFresh : m ∉ rest)
    (hOwn : PlaceOf gathered rest m m) : Placing gathered root rest mt := by
  refine ⟨hPlacing.table, hPlacing.size, hPlacing.dummy, ?_, ?_⟩
  · intro t hMem
    exact hPlacing.waiting t (List.mem_cons_of_mem m hMem)
  · intro t p hParent hMsg
    rcases hPlacing.place t p hParent hMsg with ⟨c, hUp, hOver, hPlace⟩
    refine ⟨c, hUp, hOver, ?_⟩
    by_cases hIs : t = m
    · subst hIs
      rcases hPlace with ⟨_, rfl⟩ | ⟨hNot, _⟩
      · exact hOwn
      · exact absurd List.mem_cons_self hNot
    · rcases hPlace with ⟨hMem, hSame⟩ | ⟨hNot, hRest⟩
      · exact Or.inl ⟨(List.mem_cons.mp hMem).resolve_left hIs, hSame⟩
      · exact Or.inr ⟨fun hMem => hNot (List.mem_cons_of_mem m hMem), hRest⟩

/- A dummy is merged into a dummy only. -/
theorem top_dummy (hPlacing : Placing gathered root (m :: rest) mt)
    (hStart : Threaded gathered start)
    (hIndexed : Indexed gathered fun t => start.parent t = some root)
    (hParent : start.parent m = some root) {s : List Byte}
    (hSubj : threadSubj mt m = some s) (hSome : s ≠ [])
    (hThread : threadTop gathered s = some top) (hDummy : (mt.msgs m).isdummy = true) :
    (mt.msgs top).isdummy = true := by
  rcases hPlacing.eq_of_subj hSubj hSome with ⟨hSame, hOld⟩
  rcases hIndexed.threadTop hThread with ⟨_, _, _, _, hTop⟩
  unfold threadTop at hThread
  rcases Option.bind_eq_some_iff.mp hThread with ⟨e, hFound, hMsg⟩
  rcases findsubj_eq_some hFound with ⟨hMem, hIs⟩
  rw [hSame] at hDummy
  exact hPlacing.dummy top (hStart.used top root hTop).1
    (hIndexed.dummy m s hParent hDummy hOld hSome _ e hMem hIs top hMsg)

/- The thread goes, and its message comes below the other. -/
theorem move (hPlacing : Placing gathered root (m :: rest) mt)
    (hMerging : Merging mt forest root nodes sent (m :: rest))
    (hStart : Rooted gathered start root)
    (hIndexed : Indexed gathered fun t => start.parent t = some root) {s : List Byte}
    (hSubj : threadSubj mt m = some s) (hSome : s ≠ [])
    (hThread : threadTop gathered s = some top) (hTop : (mt.msgs top).parent = some root)
    (hOther : top ≠ m) :
    Placing gathered root rest (mergeInto mt m top (rfc822Coresubj s).2) := by
  have hUp : forest.parent top = some root := (hMerging.rooted.threaded.parent top).symm.trans hTop
  have hEffect := mergeInto_effect hMerging.rooted hMerging.parent hUp hOther (rfc822Coresubj s).2
  have hApart := hMerging.apart hTop hOther
  have hKept := mergeInto_kept mt m top (rfc822Coresubj s).2
  rcases hPlacing.eq_of_subj hSubj hSome with ⟨hSame, hOld⟩
  have hFresh := hMerging.fresh
  -- the subject of the thread in the table leads to itself
  have hOwn : ∀ x t, threadTop gathered x = some t →
      ∃ y, threadSubj gathered t = some y ∧ y ≠ [] ∧ threadTop gathered y = some t := by
    intro x t hX
    rcases hIndexed.threadTop hX with ⟨y, hY, hNot, hCore, _⟩
    exact ⟨y, hY, hNot, (threadTop_core hCore).trans hX⟩
  refine ⟨hKept.1.trans hPlacing.table, hPlacing.size.trans hKept.2, ?_, ?_, ?_⟩
  · intro x hBound hDummy
    have hNow := hPlacing.dummy x hBound hDummy
    cases hEffect with
    | children _ _ _ hSame =>
      rw [hSame]
      exact hNow
    | under _ _ hSame =>
      rw [hSame]
      exact hNow
    | beside _ _ hDummies =>
      have hNew : x ≠ mt.nmsgs := Nat.ne_of_lt (Nat.lt_of_lt_of_le hBound hPlacing.size)
      rw [hDummies, if_neg hNew]
      split
      · rfl
      · exact hNow
  · intro t hMem
    have hStays : t ≠ m := by
      rintro rfl
      exact hFresh hMem
    have hWaiting := hPlacing.waiting t (List.mem_cons_of_mem m hMem)
    rcases mergeInto_subj hMerging.rooted hMerging.parent hUp hOther (rfc822Coresubj s).2 hStays
      (hMerging.parent_of_mem (List.mem_cons_of_mem m hMem)) with
      ⟨hDummy, hStill⟩ | ⟨rfl, hEmpty⟩
    · unfold Waiting
      rw [hDummy, hStill]
      exact hWaiting
    · exact Or.inr ⟨hEmpty, hOwn s t hThread⟩
  · intro t p hParent hMsg
    rcases hPlacing.place t p hParent hMsg with ⟨c, hThreadC, hOver, hPlace⟩
    by_cases hIs : c = m
    · subst hIs
      -- the message is that of the thread which goes
      have hSelf : t = c := by
        rcases hPlace with ⟨_, hEq⟩ | ⟨hNot, x, hX, hCases⟩
        · exact hEq.symm
        · rcases hCases with ⟨_, hEq⟩ | ⟨_, hLeads⟩
          · exact hEq.symm
          · rcases hOwn x c hLeads with ⟨y, hY, _, hBack⟩
            rw [hOld] at hY
            cases hY
            rw [hThread] at hBack
            exact absurd (Option.some.inj hBack) hOther
      subst hSelf
      have hFrom := (hStart.threadMsg_over hMsg).2
      rw [← hSame] at hFrom
      refine ⟨top, ?_, hEffect.moves hApart hOver hFrom,
        Or.inr ⟨hFresh, s, hOld, Or.inr ⟨hSome, hThread⟩⟩⟩
      exact (hEffect.keeps hApart hTop hOther Relation.ReflTransGen.refl).2
    · rcases hEffect.keeps hApart hThreadC hIs hOver with ⟨hStill, hThreadStill⟩
      refine ⟨c, hThreadStill, hStill, ?_⟩
      rcases hPlace with ⟨hMem, hEq⟩ | ⟨hNot, hRest⟩
      · subst hEq
        exact Or.inl ⟨(List.mem_cons.mp hMem).resolve_left hIs, rfl⟩
      · exact Or.inr ⟨fun hMem => hNot (List.mem_cons_of_mem m hMem), hRest⟩

/- One thread. -/
theorem step (hPlacing : Placing gathered root (m :: rest) mt)
    (hMerging : Merging mt forest root nodes sent (m :: rest))
    (hStart : Rooted gathered start root)
    (hIndexed : Indexed gathered fun t => start.parent t = some root)
    (hStep : MergeStep mt root m other) : Placing gathered root rest other := by
  have hFresh := hMerging.fresh
  cases hStep with
  | skip hEmpty =>
    refine hPlacing.stay hFresh (Or.inr ⟨hFresh, ?_⟩)
    rcases hPlacing.waiting m List.mem_cons_self with ⟨_, hSame⟩ | ⟨_, s, hSubj, hSome, hThread⟩
    · exact ⟨[], hSame ▸ hEmpty, Or.inl ⟨rfl, rfl⟩⟩
    · exact ⟨s, hSubj, Or.inr ⟨hSome, hThread⟩⟩
  | own hSubj hSome hThread =>
    rw [threadTop_congr hPlacing.table] at hThread
    exact hPlacing.stay hFresh (Or.inr ⟨hFresh, _, (hPlacing.eq_of_subj hSubj hSome).2,
      Or.inr ⟨hSome, hThread⟩⟩)
  | into hSubj hSome hThread hTop hOther =>
    rw [threadTop_congr hPlacing.table] at hThread
    exact hPlacing.move hMerging hStart hIndexed hSubj hSome hThread hTop hOther

end Placing

/-
  Merging succeeds.  What every merge keeps, is kept, where a
  dummy is merged into a dummy only.
-/
theorem threadmergesubj_placed (hGathered : Gathered gathered start root)
    (hIndexed : Indexed gathered fun t => start.parent t = some root)
    (hHolds : Holds gathered nodes sent) (invariant : Refmsgtable → Prop)
    (hInvariant :
      ∀ mt other m top, Apart mt root m top → ((mt.msgs m).isdummy = true →
          (mt.msgs top).isdummy = true) →
        MergeEffect mt other m top → invariant mt → invariant other)
    (hFirst : invariant gathered) :
    ∃ other merged more, rfc822Threadmergesubj gathered root = some other ∧
        Rooted other merged root ∧ Holds other more sent ∧
        Placing gathered root [] other ∧ invariant other := by
  have hStart := hGathered.rooted
  have hMerging : Merging gathered start root nodes sent (start.children root) := by
    refine ⟨hStart, hGathered.subjects, ?_, ⟨[], rfl⟩, hHolds⟩
    intro t hMem
    exact hGathered.listed t ((start.mem_children root t).mp hMem)
  have hBoth : ∀ mt forest nodes m rest other,
      Merging mt forest root nodes sent (m :: rest) → MergeStep mt root m other →
          ((∀ t, t ∈ m :: rest → start.parent t = some root) ∧
            Placing gathered root (m :: rest) mt ∧ invariant mt) →
            (∀ t, t ∈ rest → start.parent t = some root) ∧
              Placing gathered root rest other ∧ invariant other := by
    rintro mt forest nodes m rest other hMerging hStep ⟨hOld, hPlacing, hHeld⟩
    refine ⟨fun t hMem => hOld t (List.mem_cons_of_mem m hMem),
      hPlacing.step hMerging hStart hIndexed hStep, ?_⟩
    cases hStep with
    | skip _ => exact hHeld
    | own _ _ _ => exact hHeld
    | into hSubj hSome hThread hTop hOther =>
      have hUp := (hMerging.rooted.threaded.parent _).symm.trans hTop
      rw [threadTop_congr hPlacing.table] at hThread
      exact hInvariant mt _ m _ (hMerging.apart hTop hOther)
        (hPlacing.top_dummy hStart.threaded hIndexed
          (hOld m List.mem_cons_self) hSubj hSome hThread)
        (mergeInto_effect hMerging.rooted hMerging.parent hUp hOther _) hHeld
  rcases hMerging.run (fun ms mt => (∀ t, t ∈ ms → start.parent t = some root) ∧
      Placing gathered root ms mt ∧ invariant mt) hBoth
    ⟨fun t => (start.mem_children root t).mp, Placing.init hStart, hFirst⟩
    (hStart.threaded.length_children_le root) with
    ⟨other, merged, more, hDone, hEnd, _, hPlaced, hLast⟩
  refine ⟨other, merged, more, ?_, hEnd.rooted, hEnd.holds, hPlaced, hLast⟩
  unfold rfc822Threadmergesubj
  rw [hStart.threaded.firstchild]
  exact hDone

end Places

end Wmail.Rfc822
