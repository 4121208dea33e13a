import Wmail.Rfc822.ThreadSubjects

/-
  Merging threads of one subject.

  A thread goes below the thread in the table, its children go
  there, or a new message takes the place of the one in the
  table, which becomes their common dummy.

  Key theorems include:
    * `mergeDummy_merged`
    * `threadmergesubj_rooted`
-/

namespace Wmail.Rfc822

/- The threads `ms` are left to be merged. -/
structure Merging (mt : Refmsgtable) (forest : Forest Nat) (root : Nat) (nodes : List Nat)
    (sent : List (List Byte × Nat × Int)) (ms : List Nat) :
    Prop where
  rooted : Rooted mt forest root
  subjects : Subjects mt forest root
  listed : ∀ t, t ∈ ms → Listed mt t
  split : ∃ front, forest.children root = front ++ ms
  holds : Holds mt nodes sent

/-
  The thread `m` went away from the root.  The other threads
  have their subjects still, unless they lost them.
-/
structure Merged (mt other : Refmsgtable) (forest merged : Forest Nat) (root m : Nat) : Prop where
  rooted : Rooted other merged root
  table : other.subjtable = mt.subjtable
  children : merged.children root = (forest.children root).erase m
  subj : ∀ t s, t ≠ m → forest.parent t = some root →
      threadSubj other t = some s → s = [] ∨ threadSubj mt t = some s

variable {mt other : Refmsgtable}

theorem Merged.merging {forest merged : Forest Nat} {root m : Nat} {nodes more : List Nat}
    {sent : List (List Byte × Nat × Int)} {rest : List Nat}
    (hMerged : Merged mt other forest merged root m)
    (hMerging : Merging mt forest root nodes sent (m :: rest))
    (hFree : ∀ n e, e ∈ mt.subjtable n → e.msg ≠ some m) (hHolds : Holds other more sent) :
    Merging other merged root more sent rest := by
  rcases hMerging.split with ⟨front, hSplit⟩
  have hNodup := forest.nodup root
  have hFresh : m ∉ front := by
    rw [hSplit] at hNodup
    intro hIn
    exact (List.nodup_append.mp hNodup).2.2 m hIn m List.mem_cons_self rfl
  have hStays : ∀ t, t ≠ m → forest.parent t = some root → merged.parent t = some root := by
    intro t hOther hParent
    rw [← merged.mem_children, hMerged.children, hNodup.mem_erase_iff]
    exact ⟨hOther, (forest.mem_children root t).mpr hParent⟩
  refine ⟨hMerged.rooted, ⟨?_, ?_⟩, ?_, ⟨front, ?_⟩, hHolds⟩
  · rw [hMerged.table]
    exact hMerging.subjects.chains
  · intro n e hMem
    rw [hMerged.table] at hMem
    rcases hMerging.subjects.entry n e hMem with ⟨t, hMsg, hParent, hOf⟩
    have hOther : t ≠ m := by
      rintro rfl
      exact hFree n e hMem hMsg
    refine ⟨t, hMsg, hStays t hOther hParent, ?_⟩
    intro s hSubj
    rcases hMerged.subj t s hOther hParent hSubj with hEmpty | hOld
    · exact Or.inl hEmpty
    · exact hOf s hOld
  · intro t hMem s hSubj hSome
    have hOther : t ≠ m := by
      rintro rfl
      rw [hSplit] at hNodup
      have hTail := (List.nodup_append.mp hNodup).2.1
      exact (List.nodup_cons.mp hTail).1 hMem
    have hParent : forest.parent t = some root := by
      rw [← forest.mem_children, hSplit]
      exact List.mem_append_right _ (List.mem_cons_of_mem m hMem)
    rw [hMerged.table]
    rcases hMerged.subj t s hOther hParent hSubj with hEmpty | hOld
    · exact absurd hEmpty hSome
    · exact hMerging.listed t (List.mem_cons_of_mem m hMem) s hOld hSome
  · rw [hMerged.children, hSplit, List.erase_append_right _ hFresh, List.erase_cons_head]

/- What the subject of a thread depends on. -/
theorem threadSubj_congr {t : Nat} (hDummy : (other.msgs t).isdummy = (mt.msgs t).isdummy)
    (hOwn : (other.msgs t).subj = (mt.msgs t).subj)
    (hFirst : (mt.msgs t).isdummy = true → (other.msgs t).firstchild = (mt.msgs t).firstchild)
    (hChild : ∀ c, (mt.msgs t).firstchild = some c → (other.msgs c).subj = (mt.msgs c).subj) :
    threadSubj other t = threadSubj mt t := by
  unfold threadSubj
  rw [hDummy, hOwn]
  by_cases hIs : (mt.msgs t).isdummy = true
  · rw [if_pos hIs, if_pos hIs, hFirst hIs]
    cases hC : (mt.msgs t).firstchild with
    | none => rfl
    | some c =>
      show some ((other.msgs c).subj.getD []) = _
      rw [hChild c hC]
      rfl
  · rw [if_neg hIs, if_neg hIs]

/- Links matter for the first child of a dummy only. -/
theorem Relinked.threadSubj (hLinks : Relinked mt other) {t : Nat} (hFirst :
      (mt.msgs t).isdummy = true → (other.msgs t).firstchild = (mt.msgs t).firstchild) :
    threadSubj other t = threadSubj mt t :=
  threadSubj_congr (hLinks.isdummy t) (hLinks.subj t) hFirst fun c _ => hLinks.subj c

section Threads

variable {mt : Refmsgtable} {forest : Forest Nat} {root m top : Nat}

/- The links when `m` goes from the root under `top`. -/
structure WentUnder (forest merged : Forest Nat) (root m top : Nat) : Prop where
  parent : ∀ x, merged.parent x = if x = m then some top else forest.parent x
  source : merged.children root = (forest.children root).erase m
  target : merged.children top = forest.children top ++ [m]
  others : ∀ x, x ≠ root → x ≠ top → merged.children x = forest.children x

theorem mergeUnder_relinked (mt : Refmsgtable) (m top : Nat) : Relinked mt (mergeUnder mt m top) :=
  (Relinked.breakparent mt m).trans (Relinked.linkparent _ m top)

/- A thread is not above another one. -/
theorem not_above_thread (hRoot : forest.parent root = none)
    (hTop : forest.parent top = some root) (hNode : m ≠ root) (hOther : top ≠ m) :
    ¬ forest.Above m top := by
  intro hAbove
  rcases hAbove.cases with hSame | ⟨p, hParent, hOver⟩
  · exact hOther hSame.symm
  · rw [hTop] at hParent
    cases hParent
    exact hNode (hOver.eq_of_parent hRoot)

theorem mergeUnder_threaded (hThreaded : Threaded mt forest)
    (hRoot : forest.parent root = none) (hParent : forest.parent m = some root)
    (hTop : forest.parent top = some root) (hOther : top ≠ m) :
    ∃ merged, Threaded (mergeUnder mt m top) merged ∧ WentUnder forest merged root m top := by
  have hNode : m ≠ root := by
    rintro rfl
    cases hRoot.symm.trans hParent
  have hTopNode : top ≠ root := by
    rintro rfl
    cases hRoot.symm.trans hTop
  have hBroken := hThreaded.breakparent hParent
  have hCount := (Relinked.breakparent mt m).nmsgs
  have hFree : (forest.unlink m root hParent).parent m = none := by
    rw [Forest.parent_unlink, Function.update_self]
  have hApart : ¬ (forest.unlink m root hParent).Above m top :=
    fun hAbove => not_above_thread hRoot hTop hNode hOther (Forest.above_of_unlink hAbove)
  have hBoundM : m < (breakparent mt m).nmsgs := by
    rw [hCount]
    exact (hThreaded.used m root hParent).1
  have hBoundTop : top < (breakparent mt m).nmsgs := by
    rw [hCount]
    exact (hThreaded.used top root hTop).1
  refine ⟨_, hBroken.linkparent hFree hApart hBoundM hBoundTop, ?_, ?_, ?_, ?_⟩
  · intro x
    rw [Forest.parent_link, Forest.parent_unlink]
    by_cases hSelf : x = m
    · subst hSelf
      rw [Function.update_self, if_pos rfl]
    · rw [Function.update_of_ne hSelf, Function.update_of_ne hSelf, if_neg hSelf]
  · rw [Forest.children_link, Function.update_of_ne (Ne.symm hTopNode),
      Forest.children_unlink, Function.update_self]
  · rw [Forest.children_link, Function.update_self,
      Forest.children_unlink, Function.update_of_ne hTopNode]
  · intro x hX hXTop
    rw [Forest.children_link, Function.update_of_ne hXTop,
      Forest.children_unlink, Function.update_of_ne hX]

variable {t : Nat}

/- A dummy under the root keeps its first child. -/
theorem WentUnder.head_children {merged : Forest Nat}
    (hEffect : WentUnder forest merged root m top) (hRooted : Rooted mt forest root)
    (hUp : forest.parent t = some root) (hDummy : (mt.msgs t).isdummy = true) :
    (merged.children t).head? = (forest.children t).head? := by
  by_cases hIs : t = top
  · subst hIs
    rw [hEffect.target, List.head?_append_of_ne_nil _ (hRooted.full t hUp hDummy)]
  · rw [hEffect.others t _ hIs]
    exact forest.ne_of_parent hUp

theorem mergeUnder_subj (hRooted : Rooted mt forest root)
    (hParent : forest.parent m = some root) (hTop : forest.parent top = some root)
    (hOther : top ≠ m) (hUp : forest.parent t = some root) :
    threadSubj (mergeUnder mt m top) t = threadSubj mt t := by
  rcases mergeUnder_threaded hRooted.threaded hRooted.top
    hParent hTop hOther with ⟨merged, hThreaded, hEffect⟩
  apply (mergeUnder_relinked mt m top).threadSubj
  intro hDummy
  rw [hThreaded.firstchild, hRooted.threaded.firstchild]
  exact hEffect.head_children hRooted hUp hDummy

/- `m` becomes a child of `top`. -/
theorem mergeUnder_merged (hRooted : Rooted mt forest root)
    (hParent : forest.parent m = some root) (hTop : forest.parent top = some root)
    (hOther : top ≠ m) : ∃ merged, Merged mt (mergeUnder mt m top) forest merged root m := by
  rcases mergeUnder_threaded hRooted.threaded hRooted.top
    hParent hTop hOther with ⟨merged, hThreaded, hEffect⟩
  have hLinks := mergeUnder_relinked mt m top
  have hTopNode := forest.ne_of_parent hTop
  have hNode := (forest.ne_of_parent hParent).symm
  have hTopUp : merged.parent top = some root := by
    rw [hEffect.parent, if_neg hOther]
    exact hTop
  have hChildren : ∀ t, t ≠ m → merged.parent t = some root → forest.parent t = some root := by
    intro t hT hUp
    rw [hEffect.parent, if_neg hT] at hUp
    exact hUp
  refine ⟨merged, ⟨hThreaded, hLinks.rootptr.trans hRooted.rootptr, ?_, ?_, ?_, ?_, ?_⟩,
    hLinks.subjtable, hEffect.source, ?_⟩
  · rw [hEffect.parent, if_neg hNode]
    exact hRooted.top
  · rw [hLinks.isdummy]
    exact hRooted.dummy
  · intro t hUp hDummy hEmpty
    rw [hLinks.isdummy] at hDummy
    have hOtherT : t ≠ m := by
      rintro rfl
      rw [hEffect.parent, if_pos rfl] at hUp
      exact hTopNode (Option.some.inj hUp)
    have hOld := hChildren t hOtherT hUp
    have hHead := hEffect.head_children hRooted hOld hDummy
    rw [hEmpty] at hHead
    exact hRooted.full t hOld hDummy (List.head?_eq_none_iff.mp hHead.symm)
  · intro x hReal
    have hAbove := hRooted.covered x ((hLinks.real x).mp hReal)
    refine hAbove.transfer (fun _ => False) ?_ id
    intro y p _ hUp
    by_cases hSelf : y = m
    · left
      have hUnder : merged.Above root top := (Forest.Above.refl merged root).parent hTopUp
      refine hUnder.parent ?_
      rw [hEffect.parent, if_pos hSelf]
    · right
      refine ⟨id, ?_⟩
      rw [hEffect.parent, if_neg hSelf]
      exact hUp
  · intro x
    rw [hLinks.flag2]
    exact hRooted.noFlags x
  · intro t s _ hUp hSubj
    right
    rw [← hSubj]
    exact (mergeUnder_subj hRooted hParent hTop hOther hUp).symm

------------
-- The Children Of A Dummy
------------

/- The links when the children of `m` go under `top`. -/
structure WentInto (forest merged : Forest Nat) (root m top : Nat) : Prop where
  parent : ∀ x, merged.parent x =
      if x = m then
        none
      else if forest.parent x = some m then
        some top
      else
        forest.parent x
  source : merged.children root = (forest.children root).erase m
  target : merged.children top = forest.children top ++ forest.children m
  others : ∀ x, x ≠ m → x ≠ root → x ≠ top → merged.children x = forest.children x

theorem mergeChildren_relinked (mt : Refmsgtable) (m top : Nat) :
    Relinked mt (breakparent (moveChildren mt.nmsgs mt m top) m) :=
  (Relinked.moveChildren _ mt m top).trans (Relinked.breakparent _ m)

theorem mergeChildren_threaded (hThreaded : Threaded mt forest)
    (hRoot : forest.parent root = none) (hParent : forest.parent m = some root)
    (hTop : forest.parent top = some root) (hOther : top ≠ m) :
    ∃ merged, Threaded (breakparent (moveChildren mt.nmsgs mt m top) m) merged ∧
      WentInto forest merged root m top := by
  have hNode : m ≠ root := by
    rintro rfl
    cases hRoot.symm.trans hParent
  have hTopNode : top ≠ root := by
    rintro rfl
    cases hRoot.symm.trans hTop
  have hApart := not_above_thread hRoot hTop hNode hOther
  rcases hThreaded.moveChildren hApart (hThreaded.used top root hTop).1
    (hThreaded.length_children_le m) with
    ⟨moved, hMoved, hEffect⟩
  have hMovedUp : moved.parent m = some root := by
    rw [hEffect.parent, hParent, if_neg]
    intro hSame
    exact hNode (Option.some.inj hSame).symm
  refine ⟨moved.unlink m root hMovedUp, hMoved.breakparent hMovedUp, ?_, ?_, ?_, ?_⟩
  · intro x
    rw [Forest.parent_unlink]
    by_cases hSelf : x = m
    · subst hSelf
      rw [Function.update_self, if_pos rfl]
    · rw [Function.update_of_ne hSelf, if_neg hSelf, hEffect.parent]
  · rw [Forest.children_unlink, Function.update_self,
      hEffect.others root (Ne.symm hNode) (Ne.symm hTopNode)]
  · rw [Forest.children_unlink, Function.update_of_ne hTopNode, hEffect.target]
  · intro x hX hXRoot hXTop
    rw [Forest.children_unlink, Function.update_of_ne hXRoot, hEffect.others x hX hXTop]

theorem WentInto.head_children {merged : Forest Nat}
    (hEffect : WentInto forest merged root m top) (hRooted : Rooted mt forest root)
    (hStays : t ≠ m) (hUp : forest.parent t = some root) (hDummy : (mt.msgs t).isdummy = true) :
    (merged.children t).head? = (forest.children t).head? := by
  have hNode := forest.ne_of_parent hUp
  by_cases hIs : t = top
  · subst hIs
    rw [hEffect.target, List.head?_append_of_ne_nil _ (hRooted.full t hUp hDummy)]
  · rw [hEffect.others t hStays hNode hIs]

theorem mergeChildren_subj (hRooted : Rooted mt forest root)
    (hParent : forest.parent m = some root) (hTop : forest.parent top = some root)
    (hOther : top ≠ m) (hStays : t ≠ m) (hUp : forest.parent t = some root) :
    threadSubj (breakparent (moveChildren mt.nmsgs mt m top) m) t = threadSubj mt t := by
  rcases mergeChildren_threaded hRooted.threaded hRooted.top
    hParent hTop hOther with ⟨merged, hThreaded, hEffect⟩
  apply (mergeChildren_relinked mt m top).threadSubj
  intro hDummy
  rw [hThreaded.firstchild, hRooted.threaded.firstchild]
  exact hEffect.head_children hRooted hStays hUp hDummy

/- The children of the dummy `m` become children of `top`. -/
theorem mergeChildren_merged (hRooted : Rooted mt forest root)
    (hParent : forest.parent m = some root) (hTop : forest.parent top = some root)
    (hOther : top ≠ m) (hDummy : (mt.msgs m).isdummy = true) :
    ∃ merged, Merged mt (breakparent (moveChildren mt.nmsgs mt m top) m)
        forest merged root m := by
  rcases mergeChildren_threaded hRooted.threaded hRooted.top
    hParent hTop hOther with ⟨merged, hThreaded, hEffect⟩
  have hLinks := mergeChildren_relinked mt m top
  have hNode := forest.ne_of_parent hParent
  have hTopNode := forest.ne_of_parent hTop
  have hRootNot : some root ≠ some m := by
    intro hSame
    exact hNode (Option.some.inj hSame).symm
  refine ⟨merged, ⟨hThreaded, hLinks.rootptr.trans hRooted.rootptr, ?_, ?_, ?_, ?_, ?_⟩,
    hLinks.subjtable, hEffect.source, ?_⟩
  · rw [hEffect.parent, if_neg (Ne.symm hNode), hRooted.top, if_neg (by simp)]
  · rw [hLinks.isdummy]
    exact hRooted.dummy
  · intro t hUp hIs hEmpty
    rw [hLinks.isdummy] at hIs
    rw [hEffect.parent] at hUp
    by_cases hT : t = m
    · rw [if_pos hT] at hUp
      cases hUp
    · rw [if_neg hT] at hUp
      by_cases hUnder : forest.parent t = some m
      · rw [if_pos hUnder] at hUp
        exact hTopNode (Option.some.inj hUp)
      · rw [if_neg hUnder] at hUp
        have hHead := hEffect.head_children hRooted hT hUp hIs
        rw [hEmpty] at hHead
        exact hRooted.full t hUp hIs (List.head?_eq_none_iff.mp hHead.symm)
  · intro x hReal
    have hOld := (hLinks.real x).mp hReal
    have hAbove := hRooted.covered x hOld
    have hStays : x ≠ m := by
      rintro rfl
      rw [hOld.2] at hDummy
      cases hDummy
    have hTopUp : merged.parent top = some root := by
      rw [hEffect.parent, if_neg hOther, hTop, if_neg hRootNot]
    refine hAbove.transfer (fun y => y = m) ?_ hStays
    intro y p hY hUp
    by_cases hUnder : p = m
    · left
      subst hUnder
      refine ((Forest.Above.refl _ root).parent hTopUp).parent ?_
      rw [hEffect.parent, if_neg hY, if_pos hUp]
    · right
      refine ⟨hUnder, ?_⟩
      rw [hEffect.parent, if_neg hY, hUp, if_neg]
      intro hSame
      exact hUnder (Option.some.inj hSame)
  · intro x
    rw [hLinks.flag2]
    exact hRooted.noFlags x
  · intro t s hT hUp hSubj
    right
    rw [← hSubj]
    exact (mergeChildren_subj hRooted hParent hTop hOther hT hUp).symm

------------
-- A New Dummy
------------

/-
  The table in which a new message has the contents of `top`,
  and `top` is a dummy.
-/
def Refmsgtable.dummied (mt : Refmsgtable) (top : Nat) : Refmsgtable :=
  swapmsgdata ((rfc822Threadallocmsg mt (bytes "(dummy)")).setMsg mt.nmsgs
      fun m => { m with isdummy := true }) mt.nmsgs top

theorem dummied_pointers (mt : Refmsgtable) (top : Nat) : (mt.dummied top).pointers =
      (rfc822Threadallocmsg mt (bytes "(dummy)")).pointers := by
  unfold Refmsgtable.dummied swapmsgdata
  simp only []
  rw [pointers_setMsg, pointers_setMsg, pointers_setMsg]
  · exact fun _ => ⟨rfl, rfl, rfl, rfl, rfl⟩
  · exact fun _ => ⟨rfl, rfl, rfl, rfl, rfl⟩
  · exact fun _ => ⟨rfl, rfl, rfl, rfl, rfl⟩

theorem dummied_threaded (hThreaded : Threaded mt forest) (top : Nat) :
    Threaded (mt.dummied top) forest :=
  (hThreaded.threadallocmsg _).congr (dummied_pointers mt top) (Nat.le_refl _)

/- The message in the place of `top`. -/
theorem dummied_new (hBound : top < mt.nmsgs) : ((mt.dummied top).msgs mt.nmsgs).isdummy =
        (mt.msgs top).isdummy ∧
      ((mt.dummied top).msgs mt.nmsgs).sent = (mt.msgs top).sent ∧
      ((mt.dummied top).msgs mt.nmsgs).subj = none ∧
      ((mt.dummied top).msgs mt.nmsgs).flag2 = (mt.msgs top).flag2 := by
  have hOther := Nat.ne_of_lt hBound
  unfold Refmsgtable.dummied swapmsgdata
  simp only []
  rw [setMsg_msgs_of_ne _ _ (Ne.symm hOther), setMsg_msgs_self, setMsg_msgs_of_ne _ _ hOther,
    msgs_threadallocmsg_of_ne _ _ hOther, setMsg_msgs_self, msgs_threadallocmsg_self]
  exact ⟨rfl, rfl, rfl, rfl⟩

theorem dummied_top (hBound : top < mt.nmsgs) : ((mt.dummied top).msgs top).isdummy = true ∧
      ((mt.dummied top).msgs top).flag2 = false := by
  have hOther := Nat.ne_of_lt hBound
  unfold Refmsgtable.dummied swapmsgdata
  simp only []
  rw [setMsg_msgs_self, setMsg_msgs_self, msgs_threadallocmsg_self]
  exact ⟨rfl, rfl⟩

theorem dummied_other {x : Nat} (hTop : x ≠ top) (hNew : x ≠ mt.nmsgs) :
    (mt.dummied top).msgs x = mt.msgs x := by
  unfold Refmsgtable.dummied swapmsgdata
  simp only []
  rw [setMsg_msgs_of_ne _ _ hTop, setMsg_msgs_of_ne _ _ hNew, setMsg_msgs_of_ne _ _ hNew,
    msgs_threadallocmsg_of_ne _ _ hNew]

/- The real messages, with a new one in the place of `top`. -/
theorem dummied_real (hBound : top < mt.nmsgs) (hReal : (mt.msgs top).isdummy = false) (x : Nat) :
    (mt.dummied top).Real x ↔ x = mt.nmsgs ∨ (x ≠ top ∧ mt.Real x) := by
  unfold Refmsgtable.Real
  have hCount : (mt.dummied top).nmsgs = mt.nmsgs + 1 := rfl
  rw [hCount]
  by_cases hNew : x = mt.nmsgs
  · subst hNew
    rw [(dummied_new hBound).1, hReal]
    exact iff_of_true ⟨Nat.lt_succ_self _, rfl⟩ (Or.inl rfl)
  · by_cases hTop : x = top
    · subst hTop
      rw [(dummied_top hBound).1]
      refine iff_of_false (fun hBoth => ?_) ?_
      · cases hBoth.2
      · rintro (hEq | ⟨hNe, _⟩)
        · exact hNew hEq
        · exact hNe rfl
    · rw [dummied_other hTop hNew]
      constructor
      · rintro ⟨hLess, hIs⟩
        exact Or.inr ⟨hTop, by omega, hIs⟩
      · rintro (hEq | ⟨_, hLess, hIs⟩)
        · exact absurd hEq hNew
        · exact ⟨Nat.lt_succ_of_lt hLess, hIs⟩

/- What is held moves to the new message. -/
theorem dummied_holds {nodes : List Nat} {sent : List (List Byte × Nat × Int)}
    (hHolds : Holds mt nodes sent) (hBound : top < mt.nmsgs)
    (hReal : (mt.msgs top).isdummy = false) : ∃ more, Holds (mt.dummied top) more sent := by
  have hFresh : mt.nmsgs ∉ nodes := by
    intro hMem
    exact Nat.lt_irrefl _ ((hHolds.mem_nodes _).mp hMem).1
  have hTopMem : top ∈ nodes := (hHolds.mem_nodes top).mpr ⟨hBound, hReal⟩
  refine ⟨nodes.map fun x => if x = top then mt.nmsgs else x, ?_, ?_, ?_⟩
  · refine (List.nodup_map_iff_inj_on hHolds.nodup).mpr ?_
    intro x hX y hY hSame
    by_cases hXTop : x = top
    · by_cases hYTop : y = top
      · exact hXTop.trans hYTop.symm
      · rw [if_pos hXTop, if_neg hYTop] at hSame
        exact absurd (hSame ▸ hY) hFresh
    · by_cases hYTop : y = top
      · rw [if_neg hXTop, if_pos hYTop] at hSame
        exact absurd (hSame ▸ hX) hFresh
      · rw [if_neg hXTop, if_neg hYTop] at hSame
        exact hSame
  · intro x
    rw [List.mem_map, dummied_real hBound hReal]
    constructor
    · rintro ⟨y, hY, hEq⟩
      by_cases hYTop : y = top
      · rw [if_pos hYTop] at hEq
        exact Or.inl hEq.symm
      · rw [if_neg hYTop] at hEq
        subst hEq
        exact Or.inr ⟨hYTop, (hHolds.mem_nodes y).mp hY⟩
    · rintro (hEq | ⟨hXTop, hIs⟩)
      · exact ⟨top, hTopMem, by rw [if_pos rfl, hEq]⟩
      · exact ⟨x, (hHolds.mem_nodes x).mpr hIs, if_neg hXTop⟩
  · rw [List.map_map, ← hHolds.sent]
    apply List.map_congr_left
    intro x hX
    show ((mt.dummied top).msgs (if x = top then mt.nmsgs else x)).sent = _
    by_cases hXTop : x = top
    · rw [if_pos hXTop, (dummied_new hBound).2.1, hXTop]
    · have hOld : x ≠ mt.nmsgs := by
        rintro rfl
        exact hFresh hX
      rw [if_neg hXTop, dummied_other hXTop hOld]

theorem dummied_noFlags (hBound : top < mt.nmsgs) (hFlags : ∀ x, (mt.msgs x).flag2 = false)
    (x : Nat) : ((mt.dummied top).msgs x).flag2 = false := by
  by_cases hTop : x = top
  · rw [hTop]
    exact (dummied_top hBound).2
  · by_cases hNew : x = mt.nmsgs
    · rw [hNew, (dummied_new hBound).2.2.2]
      exact hFlags top
    · rw [dummied_other hTop hNew]
      exact hFlags x

/-
  The links when `q` takes the children of `top`, and `top`
  has `q` and `m` as children.
-/
structure WentBeside (forest merged : Forest Nat) (root m top q : Nat) : Prop where
  parent : ∀ x, merged.parent x =
      if x = m ∨ x = q then
        some top
      else if forest.parent x = some top then
        some q
      else
        forest.parent x
  source : merged.children root = (forest.children root).erase m
  target : merged.children top = [q, m]
  others : ∀ x, x ≠ root → x ≠ top → x ≠ q → merged.children x = forest.children x

theorem mergeDummy_relinked (mt : Refmsgtable) (m top : Nat) :
    Relinked (mt.dummied top) (mergeDummy mt m top) :=
  ((Relinked.moveChildren _ (mt.dummied top) top mt.nmsgs).trans
    (Relinked.linkparent _ mt.nmsgs top)).trans (mergeUnder_relinked _ m top)

theorem mergeDummy_threaded (hRooted : Rooted mt forest root)
    (hParent : forest.parent m = some root) (hTop : forest.parent top = some root)
    (hOther : top ≠ m) :
    ∃ merged, Threaded (mergeDummy mt m top) merged ∧
      WentBeside forest merged root m top mt.nmsgs := by
  have hUsed := hRooted.threaded.used top root hTop
  have hTopNode := forest.ne_of_parent hTop
  have hNode := (forest.ne_of_parent hParent).symm
  have hNewTop : mt.nmsgs ≠ top := Ne.symm (Nat.ne_of_lt hUsed.1)
  have hNewRoot : mt.nmsgs ≠ root := Ne.symm (Nat.ne_of_lt hUsed.2)
  have hNewNode : mt.nmsgs ≠ m := Ne.symm (Nat.ne_of_lt (hRooted.threaded.used m root hParent).1)
  have hNewUp : forest.parent mt.nmsgs = none := hRooted.threaded.parent_of_nmsgs_le (Nat.le_refl _)
  -- the children of `top` go to the new message
  have hStart := dummied_threaded hRooted.threaded top
  have hApart : ¬ forest.Above top mt.nmsgs := fun hAbove =>
    hNewTop (hAbove.eq_of_parent hNewUp).symm
  have hFew := hStart.length_children_le top
  rcases hStart.moveChildren hApart (Nat.lt_succ_self mt.nmsgs) hFew with ⟨moved, hMoved, hEffect⟩
  have hKept : ∀ x, forest.parent x ≠ some top → moved.parent x = forest.parent x := by
    intro x hUp
    rw [hEffect.parent, if_neg hUp]
  have hRootNot : some root ≠ some top := by
    intro hSame
    exact hTopNode (Option.some.inj hSame).symm
  have hMovedTop : moved.parent top = some root := by rw [hKept _ (hTop ▸ hRootNot), hTop]
  have hMovedNew : moved.parent mt.nmsgs = none := by rw [hKept _ (by rw [hNewUp]; simp), hNewUp]
  have hMovedRoot : moved.parent root = none := by
    rw [hKept _ (by rw [hRooted.top]; simp), hRooted.top]
  -- the new message goes under `top`
  have hUnder : ¬ moved.Above mt.nmsgs top :=
    not_above_thread hMovedRoot hMovedTop hNewRoot (Ne.symm hNewTop)
  have hSize : (moveChildren (mt.dummied top).nmsgs (mt.dummied top) top
        mt.nmsgs).nmsgs = mt.nmsgs + 1 :=
    (Relinked.moveChildren _ (mt.dummied top) top mt.nmsgs).nmsgs
  have hLinked := hMoved.linkparent hMovedNew hUnder (by rw [hSize]; exact Nat.lt_succ_self _)
    (by rw [hSize]; exact Nat.lt_succ_of_lt hUsed.1)
  have hUps : ∀ x, (moved.link mt.nmsgs top hMovedNew hUnder).parent x =
        if x = mt.nmsgs then some top else moved.parent x := by
    intro x
    rw [Forest.parent_link, Function.update_apply]
  -- and so does `m`
  rcases @mergeUnder_threaded _ _ root m top hLinked
    (by rw [hUps, if_neg (Ne.symm hNewRoot), hMovedRoot])
    (by rw [hUps, if_neg (Ne.symm hNewNode), hKept _ (hParent ▸ hRootNot), hParent])
    (by rw [hUps, if_neg (Ne.symm hNewTop), hMovedTop])
    hOther with ⟨merged, hMerged, hWent⟩
  refine ⟨merged, hMerged, ?_, ?_, ?_, ?_⟩
  · intro x
    rw [hWent.parent, hUps, hEffect.parent]
    by_cases hM : x = m
    · rw [if_pos hM, if_pos (Or.inl hM)]
    · by_cases hNew : x = mt.nmsgs
      · rw [if_neg hM, if_pos hNew, if_pos (Or.inr hNew)]
      · rw [if_neg hM, if_neg hNew, if_neg (not_or_intro hM hNew)]
  · rw [hWent.source, Forest.children_link, Function.update_of_ne (Ne.symm hTopNode),
      hEffect.others _ (Ne.symm hTopNode) (Ne.symm hNewRoot)]
  · rw [hWent.target, Forest.children_link, Function.update_self, hEffect.source]
    rfl
  · intro x hX hXTop hNew
    rw [hWent.others x hX hXTop, Forest.children_link,
      Function.update_of_ne hXTop, hEffect.others x hXTop hNew]

/- The subject of `top` is that of a message without one. -/
theorem mergeDummy_subj_top (hRooted : Rooted mt forest root)
    (hParent : forest.parent m = some root) (hTop : forest.parent top = some root)
    (hOther : top ≠ m) : threadSubj (mergeDummy mt m top) top = some [] := by
  rcases mergeDummy_threaded hRooted hParent hTop hOther with ⟨merged, hThreaded, hEffect⟩
  have hLinks := mergeDummy_relinked mt m top
  have hBound := (hRooted.threaded.used top root hTop).1
  unfold threadSubj
  rw [hLinks.isdummy, (dummied_top hBound).1, if_pos rfl, hThreaded.firstchild, hEffect.target,
    List.head?_cons, Option.map_some, hLinks.subj, (dummied_new hBound).2.2.1, Option.getD_none]

theorem mergeDummy_subj (hRooted : Rooted mt forest root)
    (hParent : forest.parent m = some root) (hTop : forest.parent top = some root)
    (hOther : top ≠ m) (hIs : t ≠ top) (hUp : forest.parent t = some root) :
    threadSubj (mergeDummy mt m top) t = threadSubj mt t := by
  rcases mergeDummy_threaded hRooted hParent hTop hOther with ⟨merged, hThreaded, hEffect⟩
  have hLinks := mergeDummy_relinked mt m top
  have hNew : t ≠ mt.nmsgs := Nat.ne_of_lt (hRooted.threaded.used t root hUp).1
  have hNode := forest.ne_of_parent hUp
  apply threadSubj_congr
  · rw [hLinks.isdummy, dummied_other hIs hNew]
  · rw [hLinks.subj, dummied_other hIs hNew]
  · intro _
    rw [hThreaded.firstchild, hRooted.threaded.firstchild, hEffect.others t hNode hIs hNew]
  · intro c hFirst
    rw [hRooted.threaded.firstchild] at hFirst
    have hChild := (forest.mem_children t c).mp (List.mem_of_head? hFirst)
    have hCTop : c ≠ top := by
      rintro rfl
      rw [hTop] at hChild
      exact hNode (Option.some.inj hChild).symm
    have hCNew := Nat.ne_of_lt (hRooted.threaded.used c t hChild).1
    rw [hLinks.subj, dummied_other hCTop hCNew]

/- `top` becomes a dummy with its old contents and `m`. -/
theorem mergeDummy_merged (hRooted : Rooted mt forest root)
    (hParent : forest.parent m = some root) (hTop : forest.parent top = some root)
    (hOther : top ≠ m) (hReal : (mt.msgs top).isdummy = false) :
    ∃ merged, Merged mt (mergeDummy mt m top) forest merged root m := by
  rcases mergeDummy_threaded hRooted hParent hTop hOther with ⟨merged, hThreaded, hEffect⟩
  have hLinks := mergeDummy_relinked mt m top
  have hUsed := hRooted.threaded.used top root hTop
  have hTopNode := forest.ne_of_parent hTop
  have hNode := (forest.ne_of_parent hParent).symm
  have hRootNew : root ≠ mt.nmsgs := Nat.ne_of_lt hUsed.2
  have hTopNew : top ≠ mt.nmsgs := Nat.ne_of_lt hUsed.1
  have hTopUp : merged.parent top = some root := by
    rw [hEffect.parent, if_neg (not_or_intro hOther hTopNew), hTop, if_neg]
    intro hSame
    exact hTopNode (Option.some.inj hSame).symm
  have hOver : merged.Above root top := (Forest.Above.refl merged root).parent hTopUp
  have hNewOver : merged.Above root mt.nmsgs := by
    refine hOver.parent ?_
    rw [hEffect.parent, if_pos (Or.inr rfl)]
  have hOld : ∀ t, merged.parent t = some root → forest.parent t = some root := by
    intro t hUp
    rw [hEffect.parent] at hUp
    split at hUp
    · exact absurd (Option.some.inj hUp) hTopNode
    · split at hUp
      · exact absurd (Option.some.inj hUp).symm hRootNew
      · exact hUp
  have hThread : ∀ t, forest.parent t = some root → t ≠ root ∧ t ≠ mt.nmsgs := by
    intro t hUp
    exact ⟨forest.ne_of_parent hUp, Nat.ne_of_lt (hRooted.threaded.used t root hUp).1⟩
  refine ⟨merged, ⟨hThreaded, hLinks.rootptr.trans hRooted.rootptr, ?_, ?_, ?_, ?_, ?_⟩,
    hLinks.subjtable, hEffect.source, ?_⟩
  · rw [hEffect.parent, if_neg (not_or_intro hNode hRootNew), hRooted.top, if_neg (by simp)]
  · rw [hLinks.isdummy, dummied_other (Ne.symm hTopNode) hRootNew]
    exact hRooted.dummy
  · intro t hUp hDummy
    have hUpOld := hOld t hUp
    rcases hThread t hUpOld with ⟨hTRoot, hTNew⟩
    by_cases hIs : t = top
    · rw [hIs, hEffect.target]
      exact List.cons_ne_nil _ _
    · rw [hEffect.others t hTRoot hIs hTNew]
      rw [hLinks.isdummy, dummied_other hIs hTNew] at hDummy
      exact hRooted.full t hUpOld hDummy
  · intro x hIsReal
    rw [hLinks.real, dummied_real hUsed.1 hReal] at hIsReal
    rcases hIsReal with rfl | ⟨_, hIsReal⟩
    · exact hNewOver
    · have hAbove := hRooted.covered x hIsReal
      refine hAbove.transfer (fun _ => False) ?_ id
      intro y p _ hUp
      by_cases hSelf : y = m ∨ y = mt.nmsgs
      · left
        refine hOver.parent ?_
        rw [hEffect.parent, if_pos hSelf]
      · by_cases hUnder : p = top
        · left
          refine hNewOver.parent ?_
          rw [hEffect.parent, if_neg hSelf, if_pos (hUnder ▸ hUp)]
        · right
          refine ⟨id, ?_⟩
          rw [hEffect.parent, if_neg hSelf, hUp, if_neg]
          intro hSame
          exact hUnder (Option.some.inj hSame)
  · intro x
    rw [hLinks.flag2]
    exact dummied_noFlags hUsed.1 hRooted.noFlags x
  · intro t s _ hUp hSubj
    by_cases hIs : t = top
    · left
      rw [hIs, mergeDummy_subj_top hRooted hParent hTop hOther] at hSubj
      exact (Option.some.inj hSubj).symm
    · right
      rw [← hSubj]
      exact (mergeDummy_subj hRooted hParent hTop hOther hIs hUp).symm

end Threads

------------
-- The Loop Over Threads
------------

section Loop

variable {mt : Refmsgtable} {forest : Forest Nat} {root m top : Nat} {nodes ms rest : List Nat}
variable {sent : List (List Byte × Nat × Int)}

/- Every rule takes the thread away, and keeps the contents. -/
theorem mergeInto_merged (hRooted : Rooted mt forest root) (hHolds : Holds mt nodes sent)
    (hParent : forest.parent m = some root) (hTop : forest.parent top = some root)
    (hOther : top ≠ m) (isrefwd : Bool) :
    ∃ merged more, Merged mt (mergeInto mt m top isrefwd) forest merged root m ∧
      Holds (mergeInto mt m top isrefwd) more sent := by
  unfold mergeInto
  split
  · rename_i hBoth
    rcases mergeChildren_merged hRooted hParent hTop hOther hBoth.2 with ⟨merged, hMerged⟩
    exact ⟨merged, nodes, hMerged, hHolds.sameReal (mergeChildren_relinked mt m top).sameReal⟩
  · rcases mergeUnder_merged hRooted hParent hTop hOther with ⟨merged, hMerged⟩
    have hUnder := hHolds.sameReal (mergeUnder_relinked mt m top).sameReal
    split
    · exact ⟨merged, nodes, hMerged, hUnder⟩
    · rename_i hDummy
      have hReal := Bool.eq_false_iff.mpr hDummy
      split
      · exact ⟨merged, nodes, hMerged, hUnder⟩
      · rcases mergeDummy_merged hRooted hParent hTop hOther hReal with ⟨beside, hBeside⟩
        have hLinks := mergeDummy_relinked mt m top
        rcases dummied_holds hHolds (hRooted.threaded.used top root hTop).1 hReal with
          ⟨more, hMore⟩
        exact ⟨beside, more, hBeside, hMore.sameReal hLinks.sameReal⟩

/- The flag that is set to compare two threads is reset. -/
theorem flag2_reset (hFlag : (mt.msgs top).flag2 = false) :
    (mt.setMsg top fun s => { s with flag2 := true }).setMsg top
      (fun s => { s with flag2 := false }) = mt := by
  have hReset : ∀ msg : Refmsg, msg.flag2 = false → { msg with flag2 := false } = msg := by
    intro msg hFlag
    rw [← hFlag]
  rw [setMsg_twice]
  unfold Refmsgtable.setMsg
  have hOwn := hReset (mt.msgs top) hFlag
  calc
    _ = { mt with
          msgs := Function.update mt.msgs top (mt.msgs top) } :=
        congrArg (fun msg : Refmsg => { mt with msgs := Function.update mt.msgs top msg }) hOwn
    _ = mt := by
        rw [Function.update_eq_self]

/- What one thread of the loop does. -/
theorem mergeMsg_cases (hFlags : ∀ x, (mt.msgs x).flag2 = false) {s : List Byte}
    (hSubj : threadSubj mt m = some s) (hSome : s ≠ []) {e : Subjlookup}
    (hFound : findsubj mt s = some e) (hMsg : e.msg = some top) :
    mergeMsg mt m =
      if top = m then some mt else some (mergeInto mt m top (rfc822Coresubj s).2) := by
  unfold mergeMsg
  simp only [hSubj, if_neg hSome, hFound, Option.bind_some, hMsg]
  rw [flag2_reset (hFlags top)]
  by_cases hSame : top = m
  · subst hSame
    rw [setMsg_msgs_self, if_pos rfl, if_pos rfl, flag2_reset (hFlags top)]
  · rw [setMsg_msgs_of_ne _ _ (Ne.symm hSame), hFlags m, if_neg Bool.false_ne_true, if_neg hSame]

/- The thread in the table for a subject. -/
def threadTop (mt : Refmsgtable) (s : List Byte) : Option Nat :=
  (findsubj mt s).bind Subjlookup.msg

/- What the loop does with a thread. -/
inductive MergeStep (mt : Refmsgtable) (root m : Nat) : Refmsgtable → Prop where
  | skip
      (hEmpty : threadSubj mt m = some []) :
      MergeStep mt root m mt
  | own
      {s : List Byte}
      (hSubj : threadSubj mt m = some s)
      (hSome : s ≠ [])
      (hThread : threadTop mt s = some m) :
      MergeStep mt root m mt
  | into
      {top : Nat}
      {s : List Byte}
      (hSubj : threadSubj mt m = some s)
      (hSome : s ≠ [])
      (hThread : threadTop mt s = some top)
      (hTop : (mt.msgs top).parent = some root)
      (hOther : top ≠ m) :
      MergeStep mt root m (mergeInto mt m top (rfc822Coresubj s).2)

namespace Merging

theorem parent_of_mem (hMerging : Merging mt forest root nodes sent ms) {t : Nat}
    (hMem : t ∈ ms) : forest.parent t = some root := by
  rcases hMerging.split with ⟨front, hSplit⟩
  rw [← forest.mem_children, hSplit]
  exact List.mem_append_right _ hMem

theorem parent (hMerging : Merging mt forest root nodes sent (m :: rest)) :
    forest.parent m = some root :=
  hMerging.parent_of_mem List.mem_cons_self

theorem fresh (hMerging : Merging mt forest root nodes sent (m :: rest)) : m ∉ rest := by
  rcases hMerging.split with ⟨front, hSplit⟩
  have hNodup := forest.nodup root
  rw [hSplit] at hNodup
  exact (List.nodup_cons.mp (List.nodup_append.mp hNodup).2.1).1

/- The sibling after `m` is the next thread that is left. -/
theorem nextsib (hMerging : Merging mt forest root nodes sent (m :: rest)) :
    (mt.msgs m).nextsib = rest.head? := by
  rcases hMerging.split with ⟨front, hSplit⟩
  exact hMerging.rooted.threaded.links.next root front m rest hSplit

/- A thread that stays where it is. -/
theorem skip (hMerging : Merging mt forest root nodes sent (m :: rest)) :
    Merging mt forest root nodes sent rest := by
  rcases hMerging.split with ⟨front, hSplit⟩
  refine ⟨hMerging.rooted, hMerging.subjects, ?_, ⟨front ++ [m], ?_⟩, hMerging.holds⟩
  · intro t hMem
    exact hMerging.listed t (List.mem_cons_of_mem m hMem)
  · rw [hSplit, List.append_assoc]
    rfl

/- The entry of the thread's subject, and its thread. -/
theorem found (hMerging : Merging mt forest root nodes sent (m :: rest)) {s : List Byte}
    (hSubj : threadSubj mt m = some s) (hSome : s ≠ []) :
    ∃ e top, findsubj mt s = some e ∧ e.msg = some top ∧ forest.parent top = some root := by
  rcases hMerging.listed m List.mem_cons_self s hSubj hSome with ⟨h, hThere, hIs⟩
  cases hFound : findsubj mt s with
  | none => exact absurd hIs (findsubj_eq_none hMerging.subjects.chains hFound hThere)
  | some e =>
    rcases hMerging.subjects.entry _ e (findsubj_eq_some hFound).1 with ⟨top, hMsg, hParent, _⟩
    exact ⟨e, top, rfl, hMsg, hParent⟩

/- No entry has a thread that goes under another one. -/
theorem free (hMerging : Merging mt forest root nodes sent (m :: rest)) {s : List Byte}
    (hSubj : threadSubj mt m = some s) (hSome : s ≠ []) {e : Subjlookup}
    (hFound : findsubj mt s = some e) (hMsg : e.msg = some top) (hOther : top ≠ m) :
    ∀ n h, h ∈ mt.subjtable n → h.msg ≠ some m := by
  intro n h hMem hOwn
  have hChains := hMerging.subjects.chains
  rcases hMerging.subjects.entry n h hMem with ⟨t, hThread, _, hOf⟩
  rw [hOwn] at hThread
  cases hThread
  rcases hOf s hSubj with hEmpty | hIs
  · exact hSome hEmpty
  · rcases findsubj_eq_some hFound with ⟨hThere, hSame⟩
    have hHash := hChains.hash n h hMem
    rw [← hIs] at hHash
    rw [← hHash] at hMem
    have hEq := hChains.unique hMem hThere (hIs.symm.trans hSame.symm)
    rw [hEq, hMsg] at hOwn
    exact hOther (Option.some.inj hOwn)

/- One thread. -/
theorem step (hMerging : Merging mt forest root nodes sent (m :: rest)) :
    ∃ other merged more, mergeMsg mt m = some other ∧ Merging other merged root more sent rest ∧
        MergeStep mt root m other := by
  rcases hMerging.rooted.threadSubj hMerging.parent with ⟨s, hSubj⟩
  by_cases hSome : s = []
  · subst hSome
    refine ⟨mt, forest, nodes, ?_, hMerging.skip, MergeStep.skip hSubj⟩
    unfold mergeMsg
    rw [hSubj]
    exact if_pos rfl
  · rcases hMerging.found hSubj hSome with ⟨e, top, hFound, hMsg, hTop⟩
    have hThread : threadTop mt s = some top := by
      unfold threadTop
      rw [hFound]
      exact hMsg
    rw [mergeMsg_cases hMerging.rooted.noFlags hSubj hSome hFound hMsg]
    by_cases hSame : top = m
    · subst hSame
      rw [if_pos rfl]
      exact ⟨mt, forest, nodes, rfl, hMerging.skip, MergeStep.own hSubj hSome hThread⟩
    · rw [if_neg hSame]
      rcases mergeInto_merged hMerging.rooted hMerging.holds
        hMerging.parent hTop hSame (rfc822Coresubj s).2 with
        ⟨merged, more, hMerged, hHolds⟩
      exact ⟨_, merged, more, rfl, hMerged.merging hMerging
        (hMerging.free hSubj hSome hFound hMsg hSame) hHolds,
        MergeStep.into hSubj hSome hThread ((hMerging.rooted.threaded.parent top).trans hTop) hSame⟩

/- All threads that are left. -/
theorem run (invariant : List Nat → Refmsgtable → Prop) (hStep : ∀ mt forest nodes m rest other,
        Merging mt forest root nodes sent (m :: rest) → MergeStep mt root m other →
            invariant (m :: rest) mt → invariant rest other)
    (hMerging : Merging mt forest root nodes sent ms) (hHolds : invariant ms mt)
    {fuel : Nat} (hFuel : ms.length ≤ fuel) :
    ∃ other merged more, mergeLoop fuel mt ms.head? = some other ∧
        Merging other merged root more sent [] ∧ invariant [] other := by
  induction ms generalizing fuel mt forest nodes with
  | nil =>
    refine ⟨mt, forest, nodes, ?_, hMerging, hHolds⟩
    cases fuel <;> rfl
  | cons m rest ih =>
    rcases hMerging.step with ⟨next, went, now, hDone, hStill, hWent⟩
    have hNext := hStep mt forest nodes m rest next hMerging hWent hHolds
    rw [List.length_cons] at hFuel
    cases fuel with
    | zero => cases hFuel
    | succ fuel =>
      rcases ih hStill hNext (Nat.le_of_succ_le_succ hFuel) with
        ⟨other, merged, more, hRest, hEnd⟩
      refine ⟨other, merged, more, ?_, hEnd⟩
      show mergeLoop (fuel + 1) mt (some m) = some other
      unfold mergeLoop
      rw [hMerging.nextsib, hDone]
      exact hRest

end Merging

/- The stage that merges threads of one subject. -/
theorem threadmergesubj_rooted (hGathered : Gathered mt forest root)
    (hHolds : Holds mt nodes sent) :
    ∃ other merged more, rfc822Threadmergesubj mt root = some other ∧
        Rooted other merged root ∧ Holds other more sent := by
  have hStart : Merging mt forest root nodes sent (forest.children root) := by
    refine ⟨hGathered.rooted, hGathered.subjects, ?_, ⟨[], rfl⟩, hHolds⟩
    intro t hMem
    exact hGathered.listed t ((forest.mem_children root t).mp hMem)
  rcases Merging.run (fun _ _ => True) (fun _ _ _ _ _ _ _ _ _ => True.intro) hStart True.intro
    (hGathered.rooted.threaded.length_children_le root) with
    ⟨other, merged, more, hDone, hEnd, _⟩
  refine ⟨other, merged, more, ?_, hEnd.rooted, hEnd.holds⟩
  unfold rfc822Threadmergesubj
  rw [hGathered.rooted.threaded.firstchild]
  exact hDone

end Loop

end Wmail.Rfc822
