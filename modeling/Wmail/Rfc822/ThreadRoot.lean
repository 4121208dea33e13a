import Wmail.Rfc822.ThreadPrune

/-
  The root, and sorting.

  Key theorems include:
    * `forSiblings_run`
    * `sortLevels_sorted`
-/

------------
-- The Root
------------

namespace Wmail.Rfc822

/-
  The tree under the root: its dummies on the first level have
  children, and no real message is outside.
-/
structure Rooted (mt : Refmsgtable) (forest : Forest Nat) (root : Nat) : Prop where
  threaded : Threaded mt forest
  rootptr : mt.rootptr = some root
  top : forest.parent root = none
  dummy : (mt.msgs root).isdummy = true
  full : ∀ t, forest.parent t = some root → (mt.msgs t).isdummy = true → forest.children t ≠ []
  covered : ∀ m, mt.Real m → forest.Above root m
  noFlags : ∀ m, (mt.msgs m).flag2 = false

/- The links while the root is its own parent. -/
def Refmsgtable.loose (mt : Refmsgtable) (root : Nat) : Pointers Nat :=
  { mt.pointers with
    parent := Function.update mt.pointers.parent root none }

/- What the loop of `rfc822_threadgetroot` keeps. -/
structure Rooting (mt : Refmsgtable) (forest : Forest Nat) (root : Nat) : Prop where
  links : Represents (mt.loose root) forest
  used : ∀ m p, forest.parent m = some p → m < mt.nmsgs ∧ p < mt.nmsgs
  loop : (mt.msgs root).parent = some root
  bound : root < mt.nmsgs

namespace Rooting

variable {mt : Refmsgtable} {forest : Forest Nat} {root : Nat}

theorem top (hRooting : Rooting mt forest root) : forest.parent root = none := by
  rw [← hRooting.links.parent]
  exact Function.update_self _ _ _

theorem parent (hRooting : Rooting mt forest root) {m : Nat} (hOther : m ≠ root) :
    (mt.msgs m).parent = forest.parent m := by
  rw [← hRooting.links.parent]
  show mt.pointers.parent m = Function.update mt.pointers.parent root none m
  rw [Function.update_of_ne hOther]

theorem linkparent (hRooting : Rooting mt forest root) {m : Nat} (hOther : m ≠ root)
    (hFree : forest.parent m = none) (hNode : m < mt.nmsgs) :
    ∃ linked, Rooting (linkparent mt m root) linked root ∧ linked.parent =
        Function.update forest.parent m (some root) ∧
      ∀ x, x ≠ root → linked.children x = forest.children x := by
  have hApart : ¬ forest.Above m root := by
    intro hAbove
    exact hOther (hAbove.eq_of_parent hRooting.top)
  have hLoose : (Rfc822.linkparent mt m root).loose root = (mt.loose root).link m root := by
    unfold Refmsgtable.loose
    rw [pointers_linkparent]
    unfold Pointers.link
    simp only []
    rw [Function.update_comm hOther]
  have hCount := (Relinked.linkparent mt m root).nmsgs
  refine ⟨forest.link m root hFree hApart, ⟨?_, ?_, ?_, ?_⟩, rfl, ?_⟩
  · rw [hLoose]
    exact hRooting.links.link hFree hApart
  · intro x y hParent
    rw [hCount]
    rw [Forest.parent_link] at hParent
    by_cases hSelf : x = m
    · subst hSelf
      rw [Function.update_self] at hParent
      cases hParent
      exact ⟨hNode, hRooting.bound⟩
    · rw [Function.update_of_ne hSelf] at hParent
      exact hRooting.used x y hParent
  · have hParent := congrFun (congrArg Pointers.parent (pointers_linkparent mt m root)) root
    refine Eq.trans hParent ?_
    show Function.update mt.pointers.parent m (some root) root = some root
    rw [Function.update_of_ne (Ne.symm hOther)]
    exact hRooting.loop
  · rw [hCount]
    exact hRooting.bound
  · intro x hX
    rw [Forest.children_link, Function.update_of_ne hX]

end Rooting

/- The messages that go under the root. -/
def GoesUnder (mt : Refmsgtable) (forest : Forest Nat) (root m : Nat) : Prop :=
  m ≠ root ∧ forest.parent m = none ∧ ¬ ((mt.msgs m).isdummy = true ∧ forest.children m = [])

theorem rootMsg_relinked (root : Nat) (mt : Refmsgtable) (m : Nat) :
    Relinked mt (rootMsg root mt m) := by
  unfold rootMsg
  split
  · split
    · exact Relinked.refl mt
    · exact Relinked.linkparent mt m root
  · exact Relinked.refl mt

variable {mt : Refmsgtable} {forest : Forest Nat}

open Classical in
theorem rootMsg_rooting {root m : Nat} (hRooting : Rooting mt forest root)
    (hNode : m < mt.nmsgs) :
    ∃ linked, Rooting (rootMsg root mt m) linked root ∧ (∀ x, linked.parent x =
        if x = m ∧ GoesUnder mt forest root m then some root else forest.parent x) ∧
      ∀ x, x ≠ root → linked.children x = forest.children x := by
  unfold rootMsg
  by_cases hRoot : m = root
  · subst hRoot
    have hLoop := hRooting.loop
    rw [hLoop, if_neg (by simp)]
    refine ⟨forest, hRooting, ?_, fun _ _ => rfl⟩
    intro x
    rw [if_neg]
    rintro ⟨_, hOther, _⟩
    exact hOther rfl
  · have hParent := hRooting.parent hRoot
    have hFirst : (mt.msgs m).firstchild = (forest.children m).head? := hRooting.links.first m
    by_cases hFree : forest.parent m = none
    · rw [if_pos (hParent.trans hFree)]
      by_cases hDrop : (mt.msgs m).isdummy = true ∧ forest.children m = []
      · have hCode : (mt.msgs m).isdummy = true ∧ (mt.msgs m).firstchild = none := by
          refine ⟨hDrop.1, ?_⟩
          rw [hFirst, hDrop.2]
          rfl
        rw [if_pos hCode]
        refine ⟨forest, hRooting, ?_, fun _ _ => rfl⟩
        intro x
        rw [if_neg]
        rintro ⟨_, hUnder⟩
        exact hUnder.2.2 hDrop
      · have hCode : ¬ ((mt.msgs m).isdummy = true ∧ (mt.msgs m).firstchild = none) := by
          rintro ⟨hDummy, hNone⟩
          rw [hFirst, List.head?_eq_none_iff] at hNone
          exact hDrop ⟨hDummy, hNone⟩
        rw [if_neg hCode]
        rcases hRooting.linkparent hRoot hFree hNode with ⟨linked, hLinked, hUp, hOthers⟩
        refine ⟨linked, hLinked, ?_, hOthers⟩
        intro x
        rw [hUp]
        by_cases hSelf : x = m
        · subst hSelf
          rw [Function.update_self, if_pos ⟨rfl, hRoot, hFree, hDrop⟩]
        · rw [Function.update_of_ne hSelf, if_neg fun hBoth => hSelf hBoth.1]
    · rw [if_neg fun hNone => hFree (hParent.symm.trans hNone)]
      refine ⟨forest, hRooting, ?_, fun _ _ => rfl⟩
      intro x
      rw [if_neg]
      rintro ⟨_, hUnder⟩
      exact hFree hUnder.2.1

variable {root : Nat}

open Classical in
/- All messages of a list. -/
theorem rootMsgs_rooting (hRooting : Rooting mt forest root) {ms : List Nat}
    (hNodes : ∀ m, m ∈ ms → m < mt.nmsgs) :
    ∃ linked, Rooting (ms.foldl (rootMsg root) mt) linked root ∧
      Relinked mt (ms.foldl (rootMsg root) mt) ∧
      (∀ x, linked.parent x =
        if x ∈ ms ∧ GoesUnder mt forest root x then some root else forest.parent x) ∧
      ∀ x, x ≠ root → linked.children x = forest.children x := by
  induction ms generalizing mt forest with
  | nil =>
    refine ⟨forest, hRooting, Relinked.refl mt, ?_, fun _ _ => rfl⟩
    intro x
    rw [if_neg]
    rintro ⟨hMem, _⟩
    cases hMem
  | cons m rest ih =>
    rcases rootMsg_rooting hRooting (hNodes m List.mem_cons_self) with
      ⟨linked, hLinked, hUp, hOthers⟩
    have hLinks := rootMsg_relinked root mt m
    have hRest : ∀ x, x ∈ rest → x < (rootMsg root mt m).nmsgs := by
      intro x hMem
      rw [hLinks.nmsgs]
      exact hNodes x (List.mem_cons_of_mem m hMem)
    rcases ih hLinked hRest with ⟨final, hFinal, hMore, hFinalUp, hFinalOthers⟩
    refine ⟨final, hFinal, hLinks.trans hMore, ?_, ?_⟩
    · intro x
      rw [hFinalUp]
      have hSame : ¬ (x = m ∧ GoesUnder mt forest root m) →
            (GoesUnder (rootMsg root mt m) linked root x ↔ GoesUnder mt forest root x) := by
        intro hStill
        unfold GoesUnder
        refine and_congr_right fun hRoot => ?_
        rw [hUp, if_neg hStill, hLinks.isdummy, hOthers x hRoot]
      by_cases hSelf : x = m ∧ GoesUnder mt forest root m
      · rcases hSelf with ⟨rfl, hUnder⟩
        have hNot : ¬ GoesUnder (rootMsg root mt x) linked root x := by
          rintro ⟨_, hFree, _⟩
          rw [hUp, if_pos ⟨rfl, hUnder⟩] at hFree
          cases hFree
        rw [if_neg fun hBoth => hNot hBoth.2, hUp, if_pos ⟨rfl, hUnder⟩,
          if_pos ⟨List.mem_cons_self, hUnder⟩]
      · have hEqual := hSame hSelf
        rw [hUp, if_neg hSelf]
        by_cases hUnder : GoesUnder mt forest root x
        · have hOther : x ≠ m := by
            rintro rfl
            exact hSelf ⟨rfl, hUnder⟩
          by_cases hMem : x ∈ rest
          · rw [if_pos ⟨hMem, hEqual.mpr hUnder⟩, if_pos ⟨List.mem_cons_of_mem m hMem, hUnder⟩]
          · rw [if_neg fun hBoth => hMem hBoth.1, if_neg]
            rintro ⟨hIn, _⟩
            rcases List.mem_cons.mp hIn with hEq | hLater
            · exact hOther hEq
            · exact hMem hLater
        · rw [if_neg fun hBoth => hUnder (hEqual.mp hBoth.2), if_neg fun hBoth => hUnder hBoth.2]
    · intro x hX
      rw [hFinalOthers x hX, hOthers x hX]

/- The table with a new root that is its own parent. -/
def Refmsgtable.withRoot (mt : Refmsgtable) : Refmsgtable :=
  ((rfc822Threadallocmsg mt (bytes "(root)")).setMsg mt.nmsgs
    fun m => { m with parent := some mt.nmsgs }).setMsg mt.nmsgs fun m => { m with isdummy := true }

theorem withRoot_rooting (hThreaded : Threaded mt forest) :
    Rooting mt.withRoot forest mt.nmsgs := by
  have hAlloc := hThreaded.threadallocmsg (bytes "(root)")
  have hTop : forest.parent mt.nmsgs = none := hThreaded.parent_of_nmsgs_le (Nat.le_refl _)
  have hPointers : mt.withRoot.pointers =
      { (rfc822Threadallocmsg mt (bytes "(root)")).pointers with
        parent := Function.update (rfc822Threadallocmsg mt (bytes "(root)")).pointers.parent
          mt.nmsgs (some mt.nmsgs) } := by
    unfold Refmsgtable.withRoot
    rw [pointers_setMsg, pointers_set_parent]
    exact fun _ => ⟨rfl, rfl, rfl, rfl, rfl⟩
  have hLoose : mt.withRoot.loose mt.nmsgs =
      (rfc822Threadallocmsg mt (bytes "(root)")).pointers := by
    have hOld : (rfc822Threadallocmsg mt (bytes "(root)")).pointers.parent mt.nmsgs = none :=
      (hAlloc.parent mt.nmsgs).trans hTop
    unfold Refmsgtable.loose
    rw [hPointers]
    simp only [Function.update_idem]
    rw [← hOld, Function.update_eq_self]
  refine ⟨?_, hAlloc.used, ?_, Nat.lt_succ_self _⟩
  · rw [hLoose]
    exact hAlloc.links
  · have hParent := congrFun (congrArg Pointers.parent hPointers) mt.nmsgs
    refine Eq.trans hParent ?_
    exact Function.update_self _ _ _

/- The forest after the loop is that of the table. -/
theorem Rooting.threaded (hRooting : Rooting mt forest root) : Threaded
      { mt.setMsg root fun m => { m with parent := none } with
        rootptr := some root } forest := by
  refine ⟨?_, hRooting.used⟩
  show Represents (mt.setMsg root fun m => { m with parent := none }).pointers forest
  rw [pointers_set_parent]
  exact hRooting.links

theorem withRoot_sameReal (mt : Refmsgtable) : SameReal mt mt.withRoot := by
  unfold Refmsgtable.withRoot
  rw [setMsg_twice]
  exact sameReal_dummy mt _ fun _ => rfl

theorem withRoot_noFlags (hFlags : ∀ m, (mt.msgs m).flag2 = false) (m : Nat) :
    (mt.withRoot.msgs m).flag2 = false := by
  unfold Refmsgtable.withRoot
  by_cases hNode : m = mt.nmsgs
  · subst hNode
    rw [setMsg_msgs_self, setMsg_msgs_self, msgs_threadallocmsg_self]
  · rw [setMsg_msgs_of_ne _ _ hNode, setMsg_msgs_of_ne _ _ hNode,
      msgs_threadallocmsg_of_ne _ _ hNode]
    exact hFlags m

/- What goes under the root covers all but single dummies. -/
theorem above_root {forest rooted : Forest Nat} (hThreaded : Threaded mt forest) (hUnder :
      ∀ x, GoesUnder mt.withRoot forest mt.nmsgs x → x < mt.nmsgs → rooted.parent x = some mt.nmsgs)
    (hKept : ∀ x y, forest.parent x = some y → rooted.parent x = some y) {m : Nat}
    (hStays : mt.Real m ∨ forest.parent m ≠ none) :
    rooted.Above mt.nmsgs m := by
  rcases forest.exists_top m with ⟨top, hTop, hAbove⟩
  have hUsed : top < mt.nmsgs ∧ ¬ ((mt.withRoot.msgs top).isdummy = true ∧
          forest.children top = []) := by
    have hSame := (withRoot_sameReal mt).real m
    rcases Relation.ReflTransGen.cases_tail hAbove with hSelf | ⟨child, _, hParent⟩
    · subst hSelf
      have hReal : mt.Real top := hStays.resolve_right fun hParent => hParent hTop
      refine ⟨hReal.1, ?_⟩
      rintro ⟨hDummy, _⟩
      rw [(hSame.mpr hReal).2] at hDummy
      cases hDummy
    · refine ⟨(hThreaded.used child top hParent).2, ?_⟩
      rintro ⟨_, hEmpty⟩
      have hMem := (forest.mem_children top child).mpr hParent
      rw [hEmpty] at hMem
      cases hMem
  have hOther : top ≠ mt.nmsgs := Nat.ne_of_lt hUsed.1
  have hRoot := hUnder top ⟨hOther, hTop, hUsed.2⟩ hUsed.1
  have hStep : rooted.Above mt.nmsgs top := (Forest.Above.refl rooted mt.nmsgs).parent hRoot
  exact hStep.trans (hAbove.mono hKept)

/- A message of the table, but for its links. -/
theorem withRoot_other {x : Nat} (hOther : x ≠ mt.nmsgs) : mt.withRoot.msgs x = mt.msgs x := by
  unfold Refmsgtable.withRoot
  rw [setMsg_msgs_of_ne _ _ hOther, setMsg_msgs_of_ne _ _ hOther,
    msgs_threadallocmsg_of_ne _ _ hOther]

/- What getting the root changes. -/
structure RootAdded (mt other : Refmsgtable) (forest rooted : Forest Nat) : Prop where
  same : ∀ x, x ≠ mt.nmsgs → (other.msgs x).unlinked = (mt.msgs x).unlinked
  kept : ∀ x p, forest.parent x = some p → rooted.parent x = some p
  only : ∀ x p, rooted.parent x = some p → forest.parent x = some p ∨
        (forest.parent x = none ∧ p = mt.nmsgs)
  covered : ∀ x, forest.parent x ≠ none → rooted.Above mt.nmsgs x

theorem RootAdded.isdummy {mt other : Refmsgtable} {forest rooted : Forest Nat}
    (hAdded : RootAdded mt other forest rooted) {x : Nat} (hOther : x ≠ mt.nmsgs) :
    (other.msgs x).isdummy = (mt.msgs x).isdummy :=
  congrArg (fun msg => msg.isdummy) (hAdded.same x hOther)

theorem threadgetroot_subjtable (mt : Refmsgtable) :
    (rfc822Threadgetroot mt).subjtable = mt.subjtable := by
  unfold rfc822Threadgetroot
  cases mt.rootptr with
  | some root => rfl
  | none => exact (Relinked.foldl (rootMsg_relinked mt.nmsgs) mt.withRoot _).subjtable

theorem threadgetroot_rooted (hThreaded : Threaded mt forest) (hNone : mt.rootptr = none)
    (hFlags : ∀ m, (mt.msgs m).flag2 = false) :
    ∃ rooted, Rooted (rfc822Threadgetroot mt) rooted mt.nmsgs ∧
        SameReal mt (rfc822Threadgetroot mt) ∧ RootAdded mt (rfc822Threadgetroot mt) forest
            rooted := by
  have hNodes : ∀ m, m ∈ List.range mt.withRoot.nmsgs → m < mt.withRoot.nmsgs :=
    fun m hMem => List.mem_range.mp hMem
  rcases rootMsgs_rooting (withRoot_rooting hThreaded) hNodes
    with ⟨rooted, hRooting, hLinks, hParents, hChildren⟩
  have hCode : rfc822Threadgetroot mt =
      { ((List.range mt.withRoot.nmsgs).foldl
          (rootMsg mt.nmsgs) mt.withRoot).setMsg mt.nmsgs
            fun m => { m with parent := none } with
        rootptr := some mt.nmsgs } := by
    unfold rfc822Threadgetroot
    rw [hNone]
    rfl
  rw [hCode]
  generalize (List.range mt.withRoot.nmsgs).foldl (rootMsg mt.nmsgs) mt.withRoot = done
    at hRooting hLinks ⊢
  have hFinal : Relinked mt.withRoot (done.setMsg mt.nmsgs fun m => { m with parent := none }) :=
    hLinks.setMsg mt.nmsgs fun _ => rfl
  have hThreadedRoot := hRooting.threaded
  have hTop := hRooting.top
  generalize (done.setMsg mt.nmsgs fun m =>
    { m with parent := none }) = last at hFinal hThreadedRoot ⊢
  have hReal : SameReal mt last := (withRoot_sameReal mt).trans hFinal.sameReal
  have hNoParent : ∀ x, forest.parent x = some mt.nmsgs → False := by
    intro x hParent
    exact Nat.lt_irrefl _ (hThreaded.used x _ hParent).2
  have hUnder : ∀ x, GoesUnder mt.withRoot forest mt.nmsgs x →
        x < mt.nmsgs → rooted.parent x = some mt.nmsgs := by
    intro x hGoes hLess
    rw [hParents, if_pos]
    exact ⟨List.mem_range.mpr (Nat.lt_succ_of_lt hLess), hGoes⟩
  have hKept : ∀ x y, forest.parent x = some y → rooted.parent x = some y := by
    intro x y hParent
    rw [hParents, if_neg, hParent]
    rintro ⟨_, _, hFree, _⟩
    cases hFree.symm.trans hParent
  have hOnly : ∀ x p, rooted.parent x = some p → forest.parent x = some p ∨
          (forest.parent x = none ∧ p = mt.nmsgs) := by
    intro x p hParent
    rw [hParents] at hParent
    by_cases hGoes : x ∈ List.range mt.withRoot.nmsgs ∧ GoesUnder mt.withRoot forest mt.nmsgs x
    · rw [if_pos hGoes] at hParent
      cases hParent
      exact Or.inr ⟨hGoes.2.2.1, rfl⟩
    · rw [if_neg hGoes] at hParent
      exact Or.inl hParent
  have hSame : ∀ x, x ≠ mt.nmsgs → (last.msgs x).unlinked = (mt.msgs x).unlinked := by
    intro x hOther
    rw [hFinal.unlinked, withRoot_other hOther]
  refine ⟨rooted, ⟨hThreadedRoot, rfl, hTop, ?_, ?_, ?_, ?_⟩,
    ⟨hReal.real, hReal.sent⟩, ⟨hSame, hKept, hOnly, fun x hUp =>
      above_root hThreaded hUnder hKept (Or.inr hUp)⟩⟩
  · show (last.msgs mt.nmsgs).isdummy = true
    rw [hFinal.isdummy]
    unfold Refmsgtable.withRoot
    rw [setMsg_msgs_self]
  · intro t hParent hDummy
    have hDummyStart : (mt.withRoot.msgs t).isdummy = true := by
      rw [← hFinal.isdummy]
      exact hDummy
    rw [hParents] at hParent
    by_cases hGoes : t ∈ List.range mt.withRoot.nmsgs ∧ GoesUnder mt.withRoot forest mt.nmsgs t
    · rw [hChildren t hGoes.2.1]
      intro hEmpty
      exact hGoes.2.2.2 ⟨hDummyStart, hEmpty⟩
    · rw [if_neg hGoes] at hParent
      exact absurd hParent (hNoParent t)
  · intro m hOver
    exact above_root hThreaded hUnder hKept (Or.inl ((hReal.real m).mp hOver))
  · intro m
    show (last.msgs m).flag2 = false
    rw [hFinal.flag2]
    exact withRoot_noFlags hFlags m

------------
-- Sorting
------------

/-
  A loop over siblings, whose body keeps an invariant about
  the siblings that are left.
-/
theorem forSiblings_run {body : Refmsgtable → Nat → Option Refmsgtable}
    {invariant : List Nat → Refmsgtable → Prop}
    (hBody :
      ∀ mt m rest, invariant (m :: rest) mt → ∃ other, body mt m = some other ∧
          (other.msgs m).nextsib = rest.head? ∧
            invariant rest other) {mt : Refmsgtable} {fuel : Nat} {ms : List Nat}
    (hFuel : ms.length ≤ fuel) (hHolds : invariant ms mt) :
    ∃ other, forSiblings body fuel mt ms.head? = some other ∧ invariant [] other := by
  induction ms generalizing fuel mt with
  | nil =>
    refine ⟨mt, ?_, hHolds⟩
    cases fuel <;> rfl
  | cons m rest ih =>
    rcases hBody mt m rest hHolds with ⟨next, hDone, hNext, hStill⟩
    rw [List.length_cons] at hFuel
    rcases Nat.exists_eq_add_one_of_ne_zero (Nat.ne_of_gt (Nat.lt_of_lt_of_le
        (Nat.succ_pos _) hFuel)) with ⟨fuel, rfl⟩
    rcases ih (Nat.le_of_succ_le_succ hFuel) hStill with ⟨other, hRest, hEnd⟩
    refine ⟨other, ?_, hEnd⟩
    show forSiblings body (fuel + 1) mt (some m) = some other
    unfold forSiblings
    rw [hDone]
    simp only []
    rw [hNext]
    exact hRest

/- What sorting below `p` keeps. -/
structure Sorted (mt other : Refmsgtable) (forest sorted : Forest Nat) : Prop where
  links : Relinked mt other
  threaded : Threaded other sorted
  parent : ∀ x, sorted.parent x = forest.parent x

theorem Sorted.above_iff {mt other : Refmsgtable} {forest sorted : Forest Nat}
    (hSorted : Sorted mt other forest sorted) (a m : Nat) :
    sorted.Above a m ↔ forest.Above a m := by
  unfold Forest.Above
  rw [funext hSorted.parent]

/-
  The children `ms` of `p` are left, and children have been
  sorted below children of `p` only.
-/
structure SortedBelow (mt : Refmsgtable) (forest : Forest Nat) (p : Nat) (ms : List Nat)
    (now : Refmsgtable) (sorted : Forest Nat) :
    Prop extends Sorted mt now forest sorted where
  kept : ∀ x, (∀ q, forest.parent q = some p → ¬ forest.Above q x) →
        sorted.children x = forest.children x
  split : ∃ front, forest.children p = front ++ ms

/- Sorting succeeds, and keeps the children of the others. -/
theorem sortLevels_sorted (qsort : Qsort) (deeper : Refmsg → Bool)
    (hThreaded : Threaded mt forest) {fuel p : Nat} {path : List Nat}
    (hPath : Links.IsChain forest.parent (p :: path)) (hFuel : mt.nmsgs < fuel + path.length) :
    ∃ other sorted, sortLevels qsort deeper fuel mt p = some other ∧ Sorted mt other forest sorted ∧
        ∀ x, ¬ forest.Above p x → sorted.children x = forest.children x := by
  induction fuel generalizing mt forest p path with
  | zero =>
    have hShort := hThreaded.length_path_le hPath
    rw [Nat.zero_add] at hFuel
    exact absurd hFuel (Nat.not_lt.mpr hShort)
  | succ fuel ih =>
    have hOwn : ∀ q, forest.parent q = some p → ¬ forest.Above q p :=
      fun q hParent => forest.not_above_of_parent hParent
    have hBody : ∀ now q rest, (∃ sorted, SortedBelow mt forest p (q :: rest) now sorted) →
          ∃ other, (if deeper (now.msgs q) then
              sortLevels qsort deeper fuel now q
            else
              some now) = some other ∧
            (other.msgs q).nextsib = rest.head? ∧
            ∃ sorted, SortedBelow mt forest p rest other
              sorted := by
      rintro now q rest ⟨sorted, hNow⟩
      rcases hNow.split with ⟨front, hSplit⟩
      have hParent := (forest.mem_children p q).mp (Represents.mem_of_split hSplit)
      have hMore : ∃ before, forest.children p = before ++ rest := by
        refine ⟨front ++ [q], ?_⟩
        rw [hSplit, List.append_assoc, List.singleton_append]
      -- the siblings stay what they are
      have hNext : ∀ other deepest, SortedBelow mt forest p rest other deepest →
              (other.msgs q).nextsib = rest.head? := by
        intro other deepest hOther
        have hSame := hOther.kept p hOwn
        rw [hSplit] at hSame
        exact hOther.threaded.links.next p front q rest hSame
      by_cases hDeeper : deeper (now.msgs q) = true
      · rw [if_pos hDeeper]
        have hLonger : Links.IsChain sorted.parent (q :: p :: path) := by
          rw [funext hNow.parent]
          exact ⟨hParent, hPath⟩
        have hEnough : now.nmsgs < fuel + (p :: path).length := by
          rw [hNow.links.nmsgs, List.length_cons]
          omega
        rcases ih hNow.threaded hLonger hEnough with ⟨other, deepest, hDone, hDeep, hKept⟩
        have hOther :
            SortedBelow mt forest p rest other deepest := by
          refine ⟨⟨hNow.links.trans hDeep.links, hDeep.threaded, ?_⟩, ?_, hMore⟩
          · intro x
            rw [hDeep.parent, hNow.parent]
          · intro x hOutside
            rw [hKept x, hNow.kept x hOutside]
            rw [hNow.toSorted.above_iff]
            exact hOutside q hParent
        exact ⟨other, hDone, hNext other deepest hOther, deepest, hOther⟩
      · rw [if_neg hDeeper]
        have hOther :
            SortedBelow mt forest p rest now sorted :=
          ⟨hNow.toSorted, hNow.kept, hMore⟩
        exact ⟨now, rfl, hNext now sorted hOther, sorted, hOther⟩
    have hStart : ∃ sorted, SortedBelow mt forest p (forest.children p)
          mt sorted :=
      ⟨forest, ⟨Relinked.refl mt, hThreaded, fun _ => rfl⟩, fun _ _ => rfl, [], rfl⟩
    have hRun := @forSiblings_run _ (fun ms now => ∃ sorted, SortedBelow mt forest p ms now sorted)
      hBody _ _ _ (hThreaded.length_children_le p) hStart
    rcases hRun with ⟨now, hLoop, sorted, hNow⟩
    rcases hNow.threaded.sortChildren qsort p with ⟨final, hFinal, hParents, hOthers⟩
    refine ⟨sortChildren qsort now p, final, ?_,
      ⟨hNow.links.trans (Relinked.sortChildren qsort now p), hFinal, ?_⟩, ?_⟩
    · unfold sortLevels
      rw [hThreaded.firstchild, hLoop]
      rfl
    · intro x
      rw [hParents, hNow.parent]
    · intro x hOutside
      have hOther : x ≠ p := by
        rintro rfl
        exact hOutside (Forest.Above.refl forest x)
      rw [hOthers x hOther, hNow.kept]
      intro q hParent hAbove
      have hOver : forest.Above p q := (Forest.Above.refl forest p).parent hParent
      exact hOutside (hOver.trans hAbove)

/- Sorting keeps what is known of the tree. -/
theorem Rooted.sorted {mt other : Refmsgtable} {forest sorted : Forest Nat}
    (hRooted : Rooted mt forest root) (hSorted : Sorted mt other forest sorted) :
    Rooted other sorted root := by
  constructor
  · exact hSorted.threaded
  · exact hSorted.links.rootptr.trans hRooted.rootptr
  · exact (hSorted.parent root).trans hRooted.top
  · exact (hSorted.links.isdummy root).trans hRooted.dummy
  · intro t hParent hDummy hEmpty
    rw [hSorted.parent] at hParent
    rw [hSorted.links.isdummy] at hDummy
    have hPerm := Forest.children_perm hSorted.parent t
    rw [hEmpty, List.nil_perm] at hPerm
    exact hRooted.full t hParent hDummy hPerm
  · intro m hReal
    rw [hSorted.above_iff]
    exact hRooted.covered m ((hSorted.links.real m).mp hReal)
  · intro m
    rw [hSorted.links.flag2]
    exact hRooted.noFlags m

/- Both sorting stages, from the root. -/
theorem Rooted.sortLevels (hRooted : Rooted mt forest root) (qsort : Qsort)
    (deeper : Refmsg → Bool) :
    ∃ other sorted, sortLevels qsort deeper (mt.nmsgs + 1) mt root = some other ∧
      Rooted other sorted root ∧ Relinked mt other ∧
        ∀ x, (other.msgs x).parent = (mt.msgs x).parent := by
  have hPath : Links.IsChain forest.parent [root] := hRooted.top
  rcases sortLevels_sorted qsort deeper hRooted.threaded hPath
    (Nat.lt_succ_self _) with ⟨other, sorted, hDone, hSorted, _⟩
  refine ⟨other, sorted, hDone, hRooted.sorted hSorted, hSorted.links, ?_⟩
  intro x
  rw [hSorted.threaded.parent, hSorted.parent, hRooted.threaded.parent]

end Wmail.Rfc822
