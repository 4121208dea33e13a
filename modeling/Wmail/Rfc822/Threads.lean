import Wmail.Rfc822.ThreadMerge

/-
  Threads from calls.

  Messages are loaded into a fresh table, and the stages of
  `rfc822_thread` are run on it.

  Key theorems include:
    * `threading_wellLinked`
    * `thread_keeps_messages`
-/

namespace Wmail.Rfc822

/- The list of the children of `p`, linked both ways. -/
structure ChildList (mt : Refmsgtable) (p : Nat) (ms : List Nat) : Prop where
  nodup : ms.Nodup
  first : (mt.msgs p).firstchild = ms.head?
  last : (mt.msgs p).lastchild = ms.getLast?
  next : ∀ front m back, ms = front ++ m :: back → (mt.msgs m).nextsib = back.head?
  prev : ∀ front m back, ms = front ++ m :: back → (mt.msgs m).prevsib = front.getLast?

/-
  The links of all messages are consistent, and no message is
  its own ancestor.
-/
structure WellLinked (mt : Refmsgtable) : Prop where
  children : ∀ p, ∃ ms, ChildList mt p ms ∧ ∀ m, m ∈ ms ↔ (mt.msgs m).parent = some p
  acyclic : ∀ m, ¬ Relation.TransGen (fun x y => (mt.msgs x).parent = some y) m m

theorem Threaded.wellLinked {mt : Refmsgtable} {forest : Forest Nat}
    (hThreaded : Threaded mt forest) : WellLinked mt := by
  have hParent : (fun x => (mt.msgs x).parent) = forest.parent := funext hThreaded.parent
  constructor
  · intro p
    refine ⟨forest.children p, ⟨forest.nodup p, hThreaded.links.first p, hThreaded.links.last p,
      hThreaded.links.next p, hThreaded.links.prev p⟩, ?_⟩
    intro m
    rw [hThreaded.parent]
    exact forest.mem_children p m
  · intro m hCycle
    apply forest.not_transGen m
    rw [← hParent]
    exact hCycle

/- The children of `p`, as a walk over siblings finds them. -/
inductive ChildOf (mt : Refmsgtable) (p : Nat) : Nat → Prop where
  | first
      {m : Nat}
      (hFirst : (mt.msgs p).firstchild = some m) :
      ChildOf mt p m
  | next
      {x m : Nat}
      (hBefore : ChildOf mt p x)
      (hNext : (mt.msgs x).nextsib = some m) :
      ChildOf mt p m

/- The messages of the tree under `root`. -/
inductive InTree (mt : Refmsgtable) (root : Nat) : Nat → Prop where
  | root : InTree mt root root
  | child
      {p m : Nat}
      (hAbove : InTree mt root p)
      (hChild : ChildOf mt p m) :
      InTree mt root m

/- A list of all messages of the tree that are no dummies. -/
structure TreeNodes (mt : Refmsgtable) (root : Nat) (nodes : List Nat) : Prop where
  nodup : nodes.Nodup
  mem_nodes : ∀ m, m ∈ nodes ↔ InTree mt root m ∧ (mt.msgs m).isdummy = false

section Tree

variable {mt : Refmsgtable} {forest : Forest Nat}

theorem Threaded.childOf_iff (hThreaded : Threaded mt forest) (p m : Nat) :
    ChildOf mt p m ↔ m ∈ forest.children p := by
  constructor
  · intro hChild
    induction hChild with
    | first hFirst =>
      rw [hThreaded.firstchild] at hFirst
      exact List.mem_of_head? hFirst
    | @next x m _hBefore hNext ih =>
      rcases List.append_of_mem ih with ⟨front, back, hSplit⟩
      have hBack := hThreaded.links.next p front x back hSplit
      have hHead : back.head? = some m := hBack.symm.trans hNext
      rw [hSplit]
      exact List.mem_append_right _ (List.mem_cons_of_mem x (List.mem_of_head? hHead))
  · intro hMem
    rcases List.append_of_mem hMem with ⟨front, back, hSplit⟩
    clear hMem
    induction front using List.reverseRecOn generalizing m back with
    | nil =>
      apply ChildOf.first
      rw [hThreaded.firstchild, hSplit]
      rfl
    | append_singleton front x ih =>
      rw [List.append_assoc, List.singleton_append] at hSplit
      exact ChildOf.next (ih x (m :: back) hSplit)
        (hThreaded.links.next p front x (m :: back) hSplit)

/- The tree under the root is what the root is above. -/
theorem Threaded.inTree_iff (hThreaded : Threaded mt forest) (root m : Nat) :
    InTree mt root m ↔ forest.Above root m := by
  constructor
  · intro hTree
    induction hTree with
    | root => exact Forest.Above.refl forest root
    | @child p m _hAbove hChild ih =>
      rw [hThreaded.childOf_iff, forest.mem_children] at hChild
      exact ih.parent hChild
  · intro hAbove
    induction hAbove using Relation.ReflTransGen.head_induction_on with
    | refl => exact InTree.root
    | @head x p hParent _hRest ih =>
      refine InTree.child ih ?_
      rw [hThreaded.childOf_iff, forest.mem_children]
      exact hParent

/- The tree under the root has what the table holds. -/
theorem Rooted.treeNodes {root : Nat} {nodes : List Nat}
    {sent : List (List Byte × Nat × Int)} (hRooted : Rooted mt forest root)
    (hHolds : Holds mt nodes sent) : TreeNodes mt root nodes := by
  refine ⟨hHolds.nodup, ?_⟩
  intro m
  rw [hHolds.mem_nodes, hRooted.threaded.inTree_iff]
  constructor
  · intro hReal
    exact ⟨hRooted.covered m hReal, hReal.2⟩
  · rintro ⟨hAbove, hReal⟩
    rcases hAbove.cases with hRoot | ⟨p, hParent, _⟩
    · rw [← hRoot, hRooted.dummy] at hReal
      cases hReal
    · exact ⟨(hRooted.threaded.used m p hParent).1, hReal⟩

end Tree

------------
-- Stages
------------

/-
  Stages that lead from tables with `pre` to tables with
  `post`.  All of them succeed, and leave tables with `good`.
-/
inductive Established (good : Refmsgtable → Prop) : (Refmsgtable → Prop) →
      List (Refmsgtable → Option Refmsgtable) → (Refmsgtable → Prop) → Prop where
  | nil
      {post : Refmsgtable → Prop}
      (hGood : ∀ mt, post mt → good mt) :
      Established good post [] post
  | cons
      {pre mid post : Refmsgtable → Prop}
      {stage : Refmsgtable → Option Refmsgtable}
      {stages : List (Refmsgtable → Option Refmsgtable)}
      (hGood : ∀ mt, pre mt → good mt)
      (hStage :
        ∀ mt, pre mt → ∃ other, stage mt = some other ∧ mid other)
      (hStages : Established good mid stages post) :
      Established good pre (stage :: stages) post

namespace Established

variable {good pre post : Refmsgtable → Prop} {stages : List (Refmsgtable → Option Refmsgtable)}

theorem run (hStages : Established good pre stages post) {mt : Refmsgtable}
    (hPre : pre mt) : ∃ other, runStages mt stages = some other ∧ post other := by
  induction hStages generalizing mt with
  | nil _ => exact ⟨mt, rfl, hPre⟩
  | @cons pre mid post stage stages hGood hStage hStages ih =>
    rcases hStage mt hPre with ⟨next, hDone, hMid⟩
    rcases ih hMid with ⟨other, hRest, hPost⟩
    refine ⟨other, ?_, hPost⟩
    unfold runStages
    rw [List.foldlM_cons, hDone]
    exact hRest

/- The tables between the stages. -/
theorem take (hStages : Established good pre stages post) {mt : Refmsgtable} (hPre : pre mt)
    (k : Nat) : ∃ other, runStages mt (stages.take k) = some other ∧ good other := by
  induction hStages generalizing mt k with
  | nil hGood =>
    rw [List.take_nil]
    exact ⟨mt, rfl, hGood mt hPre⟩
  | @cons pre mid post stage stages hGood hStage hStages ih =>
    cases k with
    | zero => exact ⟨mt, rfl, hGood mt hPre⟩
    | succ k =>
      rcases hStage mt hPre with ⟨next, hDone, hMid⟩
      rcases ih hMid k with ⟨other, hRest, hEnd⟩
      refine ⟨other, ?_, hEnd⟩
      unfold runStages
      rw [List.take_succ_cons, List.foldlM_cons, hDone]
      exact hRest

end Established

section Stages

variable (sent : List (List Byte × Nat × Int))

/- The table before it has a root. -/
def Unrooted (mt : Refmsgtable) : Prop :=
  ∃ forest nodes, Threaded mt forest ∧ Holds mt nodes sent ∧
    mt.rootptr = none ∧ (∀ n, mt.subjtable n = []) ∧ ∀ m, (mt.msgs m).flag2 = false

/- The table with a root, and without subjects. -/
def Planted (mt : Refmsgtable) : Prop :=
  ∃ forest root nodes, Rooted mt forest root ∧ Holds mt nodes sent ∧ ∀ n, mt.subjtable n = []

/- The table with the subjects of all threads. -/
def Grouped (mt : Refmsgtable) : Prop :=
  ∃ forest root nodes, Gathered mt forest root ∧ Holds mt nodes sent

/- The table with a root. -/
def Grown (mt : Refmsgtable) : Prop :=
  ∃ forest root nodes, Rooted mt forest root ∧ Holds mt nodes sent

variable {sent}

variable {mt : Refmsgtable}

theorem threadgetroot_planted (hUnrooted : Unrooted sent mt) :
    Planted sent (rfc822Threadgetroot mt) := by
  rcases hUnrooted with ⟨forest, nodes, hThreaded, hHolds, hNone, hEmpty, hFlags⟩
  rcases threadgetroot_rooted hThreaded hNone hFlags with ⟨rooted, hRooted, hSame, _⟩
  refine ⟨rooted, mt.nmsgs, nodes, hRooted, hHolds.sameReal hSame, ?_⟩
  intro n
  rw [threadgetroot_subjtable]
  exact hEmpty n

theorem threadprune_unrooted (hUnrooted : Unrooted sent mt) :
    Unrooted sent (rfc822Threadprune mt) := by
  rcases hUnrooted with ⟨forest, nodes, hThreaded, hHolds, hNone, hEmpty, hFlags⟩
  rcases threadprune_threaded hThreaded with ⟨pruned, hPruned⟩
  have hLinks := threadprune_relinked mt
  refine ⟨pruned, nodes, hPruned, hHolds.sameReal hLinks.sameReal, ?_, ?_, ?_⟩
  · exact hLinks.rootptr.trans hNone
  · intro n
    rw [hLinks.subjtable]
    exact hEmpty n
  · intro m
    rw [hLinks.flag2]
    exact hFlags m

/- A stage that is run on the root. -/
theorem onRoot_eq {root : Nat} (hRoot : mt.rootptr = some root)
    (stage : Refmsgtable → Nat → Option Refmsgtable) : onRoot stage mt = stage mt root := by
  unfold onRoot
  rw [hRoot]

theorem threadsortbydate_eq (qsort : Qsort) (mt : Refmsgtable) :
    rfc822Threadsortbydate qsort mt = onRoot (dothreadsort qsort) mt :=
  rfl

theorem threadsortsubj_planted (qsort : Qsort) (hPlanted : Planted sent mt) :
    ∃ other, onRoot (rfc822Threadsortsubj qsort) mt = some other ∧ Planted sent other := by
  rcases hPlanted with ⟨forest, root, nodes, hRooted, hHolds, hEmpty⟩
  rcases hRooted.sortLevels qsort Refmsg.isdummy with ⟨other, sorted, hDone, hSorted, hLinks, _⟩
  rw [onRoot_eq hRooted.rootptr]
  refine ⟨other, hDone, sorted, root, nodes, hSorted, hHolds.sameReal hLinks.sameReal, ?_⟩
  intro n
  rw [hLinks.subjtable]
  exact hEmpty n

theorem threadgathersubj_grouped (hPlanted : Planted sent mt) :
    ∃ other, onRoot rfc822Threadgathersubj mt = some other ∧ Grouped sent other := by
  rcases hPlanted with ⟨forest, root, nodes, hRooted, hHolds, hEmpty⟩
  rcases threadgathersubj_gathered hRooted hEmpty with ⟨other, hDone, hGathered, hSame⟩
  rw [onRoot_eq hRooted.rootptr]
  exact ⟨other, hDone, forest, root, nodes, hGathered, hHolds.sameReal hSame⟩

theorem threadmergesubj_grown (hGrouped : Grouped sent mt) :
    ∃ other, onRoot rfc822Threadmergesubj mt = some other ∧ Grown sent other := by
  rcases hGrouped with ⟨forest, root, nodes, hGathered, hHolds⟩
  rcases threadmergesubj_rooted hGathered hHolds with ⟨other, merged, more, hDone, hMerged, hMore⟩
  rw [onRoot_eq hGathered.rooted.rootptr]
  exact ⟨other, hDone, merged, root, more, hMerged, hMore⟩

theorem threadsortbydate_grown (qsort : Qsort) (hGrown : Grown sent mt) :
    ∃ other, rfc822Threadsortbydate qsort mt = some other ∧ Grown sent other := by
  rcases hGrown with ⟨forest, root, nodes, hRooted, hHolds⟩
  rcases hRooted.sortLevels qsort (fun _ => true) with ⟨other, sorted, hDone, hSorted, hLinks, _⟩
  rw [threadsortbydate_eq, onRoot_eq hRooted.rootptr]
  exact ⟨other, hDone, sorted, root, nodes, hSorted, hHolds.sameReal hLinks.sameReal⟩

theorem Unrooted.wellLinked (hUnrooted : Unrooted sent mt) : WellLinked mt := by
  rcases hUnrooted with ⟨_, _, hThreaded, _⟩
  exact hThreaded.wellLinked

theorem Planted.wellLinked (hPlanted : Planted sent mt) : WellLinked mt := by
  rcases hPlanted with ⟨_, _, _, hRooted, _⟩
  exact hRooted.threaded.wellLinked

theorem Grouped.wellLinked (hGrouped : Grouped sent mt) : WellLinked mt := by
  rcases hGrouped with ⟨_, _, _, hGathered, _⟩
  exact hGathered.rooted.threaded.wellLinked

theorem Grown.wellLinked (hGrown : Grown sent mt) : WellLinked mt := by
  rcases hGrown with ⟨_, _, _, hRooted, _⟩
  exact hRooted.threaded.wellLinked

/- The stages, one after the other. -/
theorem threadStages_established (qsort : Qsort) :
    Established WellLinked (Unrooted sent) (threadStages qsort) (Grown sent) := by
  have hLast : Established WellLinked (Grown sent) [rfc822Threadsortbydate qsort] (Grown sent) :=
    Established.cons (fun _ => Grown.wellLinked) (fun _ => threadsortbydate_grown qsort)
      (Established.nil fun _ => Grown.wellLinked)
  have hSubjects : Established WellLinked (Planted sent)
      [onRoot rfc822Threadgathersubj,
        onRoot rfc822Threadmergesubj,
        rfc822Threadsortbydate qsort] (Grown sent) :=
    Established.cons (fun _ => Planted.wellLinked) (fun _ => threadgathersubj_grouped)
      (Established.cons (fun _ => Grouped.wellLinked) (fun _ => threadmergesubj_grown) hLast)
  refine Established.cons (fun _ => Unrooted.wellLinked) (fun _ hUnrooted =>
      ⟨_, rfl, threadprune_unrooted hUnrooted⟩) ?_
  refine Established.cons (fun _ => Unrooted.wellLinked) (fun _ hUnrooted =>
      ⟨_, rfl, threadgetroot_planted hUnrooted⟩) ?_
  exact Established.cons (fun _ => Planted.wellLinked)
    (fun _ => threadsortsubj_planted qsort) hSubjects

end Stages

/- A fresh table after some calls. -/
def threadmsgs (calls : List Headers) : Refmsgtable :=
  calls.foldl rfc822Threadmsg rfc822Threadalloc

theorem threadmsgs_unrooted (calls : List Headers) :
    Unrooted (sentBy [] calls) (threadmsgs calls) := by
  rcases loaded calls with ⟨forest, nodes, hLoaded⟩
  exact ⟨forest, nodes, hLoaded.filed.threaded, hLoaded.toHolds, hLoaded.filed.noRoot,
    hLoaded.filed.noSubjects, hLoaded.filed.noFlags⟩

/-
  After any calls, and after each stage that is run then, the
  links are consistent.
-/
theorem threading_wellLinked (qsort : Qsort) (calls : List Headers) (k : Nat) :
    ∃ mt, runStages (threadmsgs calls) ((threadStages qsort).take k) = some mt ∧ WellLinked mt :=
  (threadStages_established qsort).take
    (threadmsgs_unrooted calls) k

/- The table when its threads are to be gathered. -/
theorem threadsortsubj_run (qsort : Qsort) (calls : List Headers) :
    ∃ mt forest nodes, runStages (threadmsgs calls) ((threadStages qsort).take 3) = some mt ∧
      Rooted mt forest (threadmsgs calls).nmsgs ∧
      Holds mt nodes (sentBy [] calls) ∧
      (∀ n, mt.subjtable n = []) ∧
      Relinked (rfc822Threadgetroot (rfc822Threadprune (threadmsgs calls))) mt ∧
      ∀ x, (mt.msgs x).parent = ((rfc822Threadgetroot (rfc822Threadprune
          (threadmsgs calls))).msgs x).parent := by
  rcases threadprune_unrooted (threadmsgs_unrooted calls) with
    ⟨pruned, nodes, hPruned, hHolds, hNone, hEmpty, hFlags⟩
  rcases threadgetroot_rooted hPruned hNone hFlags with ⟨rooted, hRooted, hSame, _⟩
  rcases hRooted.sortLevels qsort Refmsg.isdummy with
    ⟨mt, sorted, hDone, hSorted, hLinks, hParents⟩
  have hCount : (rfc822Threadprune (threadmsgs calls)).nmsgs = (threadmsgs calls).nmsgs :=
    (threadprune_relinked (threadmsgs calls)).nmsgs
  rw [← hCount]
  refine ⟨mt, sorted, nodes, ?_, hSorted,
    (hHolds.sameReal hSame).sameReal hLinks.sameReal, ?_, hLinks,
    hParents⟩
  · calc
      runStages (threadmsgs calls) ((threadStages qsort).take 3) =
        onRoot (rfc822Threadsortsubj qsort) (rfc822Threadgetroot
            (rfc822Threadprune (threadmsgs calls))) := by
          simp [runStages, threadStages]
      _ = some mt :=
          (onRoot_eq hRooted.rootptr _).trans hDone
  · intro n
    rw [hLinks.subjtable, threadgetroot_subjtable]
    exact hEmpty n

/- The stages from the gathering on. -/
theorem thread_eq (qsort : Qsort) (calls : List Headers) {mt gathered merged : Refmsgtable}
    {root : Nat} (hSorted : runStages (threadmsgs calls) ((threadStages qsort).take 3) = some mt)
    (hRoot : mt.rootptr = some root)
    (hGathered : rfc822Threadgathersubj mt root = some gathered)
    (hGatheredRoot : gathered.rootptr = some root)
    (hMerged : rfc822Threadmergesubj gathered root = some merged) :
    rfc822Thread qsort (threadmsgs calls) = rfc822Threadsortbydate qsort merged := by
  rcases threadmsgs_unrooted calls with ⟨_, _, _, _, hNone, _⟩
  have hSplit : threadStages qsort = (threadStages qsort).take 3 ++
        [onRoot rfc822Threadgathersubj,
          onRoot rfc822Threadmergesubj,
          rfc822Threadsortbydate qsort] := rfl
  unfold runStages at hSorted
  unfold rfc822Thread
  rw [hNone]
  unfold runStages
  rw [hSplit, List.foldlM_append, hSorted]
  simp [onRoot_eq hRoot, hGathered, onRoot_eq hGatheredRoot, hMerged]

theorem length_sentBy (earlier calls : List Headers) :
    (sentBy earlier calls).length = calls.length := by
  induction calls generalizing earlier with
  | nil => rfl
  | cons h rest ih => exact congrArg Nat.succ (ih _)

/- The tree that `rfc822_thread` makes. -/
theorem thread_grown (qsort : Qsort) (calls : List Headers) :
    ∃ mt, rfc822Thread qsort (threadmsgs calls) = some mt ∧ Grown (sentBy [] calls) mt := by
  have hUnrooted := threadmsgs_unrooted calls
  rcases (threadStages_established qsort).run hUnrooted with ⟨mt, hRun, hGrown⟩
  refine ⟨mt, ?_, hGrown⟩
  rcases hUnrooted with ⟨_, _, _, _, hNone, _⟩
  unfold rfc822Thread
  rw [hNone]
  exact hRun

/-
  Threading succeeds, and besides dummies the tree has one
  message for every call, in the order of `sentBy`.
-/
theorem thread_keeps_messages (qsort : Qsort) (calls : List Headers) :
    ∃ mt root nodes, rfc822Thread qsort (threadmsgs calls) = some mt ∧ mt.rootptr = some root ∧
      TreeNodes mt root nodes ∧
      nodes.length = calls.length ∧
      nodes.map (fun m => (mt.msgs m).sent) = sentBy [] calls := by
  rcases thread_grown qsort calls with ⟨mt, hDone, forest, root, nodes, hRooted, hHolds⟩
  refine ⟨mt, root, nodes, hDone, hRooted.rootptr, hRooted.treeNodes hHolds, ?_, hHolds.sent⟩
  rw [← length_sentBy [] calls, ← hHolds.sent, List.length_map]

/- What a call gives. -/
def Headers.sent (h : Headers) : List Byte × Nat × Int :=
  (h.msgid, h.seqnum, h.timestamp)

/- Two messages with the same id. -/
def sameIdCalls : List Headers :=
  [⟨some (bytes "<a>"), none, none, none, 1⟩, ⟨some (bytes "<a>"), none, none, none, 2⟩]

/- The second message of an id does not keep it. -/
theorem thread_loses_msgid : (sameIdCalls.map Headers.seqnum).Nodup ∧
      ∀ qsort mt root nodes, rfc822Thread qsort (threadmsgs sameIdCalls) = some mt →
        mt.rootptr = some root →
        TreeNodes mt root nodes →
        ¬ (nodes.map (fun m => (mt.msgs m).sent)).Perm (sameIdCalls.map Headers.sent) := by
  refine ⟨by decide, ?_⟩
  intro qsort mt root nodes hDone hRoot hNodes hPerm
  rcases thread_grown qsort sameIdCalls with ⟨other, hSame, forest, top, more, hRooted, hHolds⟩
  rw [hDone] at hSame
  cases hSame
  cases hRoot.symm.trans hRooted.rootptr
  have hAll : nodes.Perm more := by
    refine (List.perm_ext_iff_of_nodup hNodes.nodup hHolds.nodup).mpr ?_
    intro m
    rw [hNodes.mem_nodes, (hRooted.treeNodes hHolds).mem_nodes]
  have hSent := (hAll.map fun m => (mt.msgs m).sent).symm.trans hPerm
  rw [hHolds.sent] at hSent
  revert hSent
  decide

end Wmail.Rfc822
