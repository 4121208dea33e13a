import Mathlib.Data.List.Perm.Subperm
import Wmail.Core.Forest
import Wmail.Rfc822.Imaprefs

/-
  The links of threaded messages.

  `linkparent` and `breakparent` do to the pointers of the
  messages what linking and unlinking do to a forest.

  Key theorems include:
    * `Threaded.moveChildren`
    * `Threaded.sortChildren`
-/

namespace Wmail.Rfc822

/- The links of all messages. -/
def Refmsgtable.pointers (mt : Refmsgtable) : Pointers Nat :=
  { parent := fun m => (mt.msgs m).parent
    firstchild := fun m => (mt.msgs m).firstchild
    lastchild := fun m => (mt.msgs m).lastchild
    prevsib := fun m => (mt.msgs m).prevsib
    nextsib := fun m => (mt.msgs m).nextsib }

/- A message without its links. -/
def Refmsg.unlinked (msg : Refmsg) : Refmsg :=
  { msg with
    parent := none
    firstchild := none
    lastchild := none
    prevsib := none
    nextsib := none }

/- Only links of messages change. -/
structure Relinked (mt other : Refmsgtable) : Prop where
  nmsgs : other.nmsgs = mt.nmsgs
  hashtable : other.hashtable = mt.hashtable
  subjtable : other.subjtable = mt.subjtable
  rootptr : other.rootptr = mt.rootptr
  unlinked : ∀ m, (other.msgs m).unlinked = (mt.msgs m).unlinked

namespace Relinked

variable {mt other last : Refmsgtable}

theorem refl (mt : Refmsgtable) : Relinked mt mt :=
  ⟨rfl, rfl, rfl, rfl, fun _ => rfl⟩

theorem trans (hFirst : Relinked mt other) (hSecond : Relinked other last) : Relinked mt last :=
  ⟨hSecond.nmsgs.trans hFirst.nmsgs, hSecond.hashtable.trans hFirst.hashtable,
    hSecond.subjtable.trans hFirst.subjtable,
    hSecond.rootptr.trans hFirst.rootptr,
    fun m => (hSecond.unlinked m).trans (hFirst.unlinked m)⟩

/- One more assignment to links. -/
theorem setMsg (hLinks : Relinked mt other) (m : Nat) {f : Refmsg → Refmsg}
    (hSame : ∀ msg, (f msg).unlinked = msg.unlinked) : Relinked mt (other.setMsg m f) := by
  refine hLinks.trans ⟨rfl, rfl, rfl, rfl, ?_⟩
  intro x
  show (Function.update other.msgs m (f (other.msgs m)) x).unlinked = _
  by_cases hNode : x = m
  · subst hNode
    rw [Function.update_self]
    exact hSame _
  · rw [Function.update_of_ne hNode]

theorem setNext (hLinks : Relinked mt other) (prevsib : Option Nat) (p : Nat)
    (link : Option Nat) : Relinked mt (setNext other prevsib p link) := by
  cases prevsib with
  | none =>
    show Relinked mt (other.setMsg p fun m => { m with firstchild := link })
    exact hLinks.setMsg p fun _ => rfl
  | some sib =>
    show Relinked mt (other.setMsg sib fun m => { m with nextsib := link })
    exact hLinks.setMsg sib fun _ => rfl

theorem setPrev (hLinks : Relinked mt other) (nextsib : Option Nat) (p : Nat)
    (link : Option Nat) : Relinked mt (setPrev other nextsib p link) := by
  cases nextsib with
  | none =>
    show Relinked mt (other.setMsg p fun m => { m with lastchild := link })
    exact hLinks.setMsg p fun _ => rfl
  | some sib =>
    show Relinked mt (other.setMsg sib fun m => { m with prevsib := link })
    exact hLinks.setMsg sib fun _ => rfl

theorem linkparent (mt : Refmsgtable) (msg lastmsg : Nat) :
    Relinked mt (linkparent mt msg lastmsg) := by
  unfold Rfc822.linkparent
  refine Relinked.setMsg (Relinked.setMsg (Relinked.setNext
    (Relinked.setMsg (Relinked.setMsg (Relinked.refl mt) msg ?_) msg ?_) _ _ _) lastmsg ?_) msg ?_
  all_goals
    exact fun _ => rfl

theorem breakparent (mt : Refmsgtable) (m : Nat) : Relinked mt (breakparent mt m) := by
  unfold Rfc822.breakparent
  split
  · exact Relinked.refl mt
  · refine Relinked.setMsg (Relinked.setPrev (Relinked.setNext (Relinked.refl mt) _ _ _) _ _ _) m ?_
    exact fun _ => rfl

theorem breakChildren (fuel : Nat) (mt : Refmsgtable) (p : Nat) :
    Relinked mt (breakChildren fuel mt p) := by
  induction fuel generalizing mt with
  | zero => exact Relinked.refl mt
  | succ fuel ih =>
    unfold Rfc822.breakChildren
    split
    · exact Relinked.refl mt
    · rename_i m _
      exact (Relinked.breakparent mt m).trans (ih _)

theorem moveChildren (fuel : Nat) (mt : Refmsgtable) (p q : Nat) :
    Relinked mt (moveChildren fuel mt p q) := by
  induction fuel generalizing mt with
  | zero => exact Relinked.refl mt
  | succ fuel ih =>
    unfold Rfc822.moveChildren
    split
    · exact Relinked.refl mt
    · rename_i m _
      exact ((Relinked.breakparent mt m).trans (Relinked.linkparent _ m q)).trans (ih _)

theorem takeChildren (fuel : Nat) (mt : Refmsgtable) (p : Nat) :
    Relinked mt (takeChildren fuel mt p).2 := by
  induction fuel generalizing mt with
  | zero => exact Relinked.refl mt
  | succ fuel ih =>
    unfold Rfc822.takeChildren
    split
    · exact Relinked.refl mt
    · rename_i m _
      exact (Relinked.breakparent mt m).trans (ih _)

/- A loop over messages whose body changes links only. -/
theorem foldl {body : Refmsgtable → Nat → Refmsgtable}
    (hBody : ∀ mt m, Relinked mt (body mt m)) (mt : Refmsgtable) (ms : List Nat) :
    Relinked mt (ms.foldl body mt) := by
  induction ms generalizing mt with
  | nil => exact Relinked.refl mt
  | cons m rest ih => exact (hBody mt m).trans (ih _)

theorem linkAll (mt : Refmsgtable) (ms : List Nat) (p : Nat) : Relinked mt (linkAll mt ms p) :=
  Relinked.foldl (fun mt m => Relinked.linkparent mt m p) mt ms

theorem sortChildren (qsort : Qsort) (mt : Refmsgtable) (p : Nat) :
    Relinked mt (sortChildren qsort mt p) :=
  (Relinked.takeChildren _ mt p).trans (Relinked.linkAll _ _ p)

theorem pruneMsg (mt : Refmsgtable) (msg : Nat) : Relinked mt (pruneMsg mt msg) := by
  unfold Rfc822.pruneMsg
  split
  · exact Relinked.refl mt
  · split
    · split
      · exact Relinked.breakparent mt msg
      · split
        · exact Relinked.refl mt
        · exact (Relinked.breakparent mt msg).trans (Relinked.moveChildren _ _ _ _)
    · exact Relinked.refl mt

/- What is read of a message besides its links. -/
theorem isdummy (hLinks : Relinked mt other) (m : Nat) :
    (other.msgs m).isdummy = (mt.msgs m).isdummy :=
  congrArg (fun msg => msg.isdummy) (hLinks.unlinked m)

theorem msgid (hLinks : Relinked mt other) (m : Nat) : (other.msgs m).msgid = (mt.msgs m).msgid :=
  congrArg (fun msg => msg.msgid) (hLinks.unlinked m)

end Relinked

------------
-- Linking And Unlinking
------------

/- An assignment to a message, one link after the other. -/
theorem pointers_update (mt : Refmsgtable) (m : Nat) (f : Refmsg → Refmsg) :
    (mt.setMsg m f).pointers =
      { parent := Function.update mt.pointers.parent m (f (mt.msgs m)).parent
        firstchild := Function.update mt.pointers.firstchild m (f (mt.msgs m)).firstchild
        lastchild := Function.update mt.pointers.lastchild m (f (mt.msgs m)).lastchild
        prevsib := Function.update mt.pointers.prevsib m (f (mt.msgs m)).prevsib
        nextsib := Function.update mt.pointers.nextsib m (f (mt.msgs m)).nextsib } := by
  unfold Refmsgtable.pointers Refmsgtable.setMsg
  ext1
  all_goals
    funext x
    by_cases hNode : x = m
    · subst hNode
      simp
    · simp [Function.update_of_ne hNode]

/- An assignment that leaves the links alone. -/
theorem pointers_setMsg (mt : Refmsgtable) (m : Nat) {f : Refmsg → Refmsg} (hLinks :
      ∀ msg, (f msg).parent = msg.parent ∧ (f msg).firstchild = msg.firstchild ∧
        (f msg).lastchild = msg.lastchild ∧
        (f msg).prevsib = msg.prevsib ∧
        (f msg).nextsib = msg.nextsib) :
    (mt.setMsg m f).pointers = mt.pointers := by
  rcases hLinks (mt.msgs m) with ⟨hParent, hFirst, hLast, hPrev, hNext⟩
  rw [pointers_update, hParent, hFirst, hLast, hPrev, hNext]
  ext1
  all_goals
    exact Function.update_eq_self m _

/- Assignments to one link. -/
@[simp]
theorem pointers_set_parent (mt : Refmsgtable) (m : Nat) (link : Option Nat) :
    (mt.setMsg m fun msg => { msg with parent := link }).pointers =
      { mt.pointers with
        parent := Function.update mt.pointers.parent m link } := by
  rw [pointers_update]
  ext1
  all_goals
    first
    | exact Function.update_eq_self m _
    | rfl

@[simp]
theorem pointers_set_firstchild (mt : Refmsgtable) (m : Nat) (link : Option Nat) :
    (mt.setMsg m fun msg => { msg with firstchild := link }).pointers =
      { mt.pointers with
        firstchild := Function.update mt.pointers.firstchild m link } := by
  rw [pointers_update]
  ext1
  all_goals
    first
    | exact Function.update_eq_self m _
    | rfl

@[simp]
theorem pointers_set_lastchild (mt : Refmsgtable) (m : Nat) (link : Option Nat) :
    (mt.setMsg m fun msg => { msg with lastchild := link }).pointers =
      { mt.pointers with
        lastchild := Function.update mt.pointers.lastchild m link } := by
  rw [pointers_update]
  ext1
  all_goals
    first
    | exact Function.update_eq_self m _
    | rfl

@[simp]
theorem pointers_set_prevsib (mt : Refmsgtable) (m : Nat) (link : Option Nat) :
    (mt.setMsg m fun msg => { msg with prevsib := link }).pointers =
      { mt.pointers with
        prevsib := Function.update mt.pointers.prevsib m link } := by
  rw [pointers_update]
  ext1
  all_goals
    first
    | exact Function.update_eq_self m _
    | rfl

@[simp]
theorem pointers_set_nextsib (mt : Refmsgtable) (m : Nat) (link : Option Nat) :
    (mt.setMsg m fun msg => { msg with nextsib := link }).pointers =
      { mt.pointers with
        nextsib := Function.update mt.pointers.nextsib m link } := by
  rw [pointers_update]
  ext1
  all_goals
    first
    | exact Function.update_eq_self m _
    | rfl

theorem pointers_setNext (mt : Refmsgtable) (prevsib : Option Nat) (p : Nat) (link : Option Nat) :
    (setNext mt prevsib p link).pointers =
      { mt.pointers with
        firstchild :=
          if prevsib = none then
            Function.update mt.pointers.firstchild p link
          else
            mt.pointers.firstchild
        nextsib :=
          match prevsib with
          | some sib => Function.update mt.pointers.nextsib sib link
          | none => mt.pointers.nextsib } := by
  cases prevsib with
  | none => exact pointers_set_firstchild mt p link
  | some sib => exact pointers_set_nextsib mt sib link

theorem pointers_setPrev (mt : Refmsgtable) (nextsib : Option Nat) (p : Nat) (link : Option Nat) :
    (setPrev mt nextsib p link).pointers =
      { mt.pointers with
        lastchild :=
          if nextsib = none then
            Function.update mt.pointers.lastchild p link
          else
            mt.pointers.lastchild
        prevsib :=
          match nextsib with
          | some sib => Function.update mt.pointers.prevsib sib link
          | none => mt.pointers.prevsib } := by
  cases nextsib with
  | none => exact pointers_set_lastchild mt p link
  | some sib => exact pointers_set_prevsib mt sib link

theorem pointers_linkparent (mt : Refmsgtable) (msg lastmsg : Nat) :
    (linkparent mt msg lastmsg).pointers = mt.pointers.link msg lastmsg := by
  unfold linkparent
  simp only [pointers_set_nextsib, pointers_set_lastchild, pointers_setNext, pointers_set_prevsib,
    pointers_set_parent]
  have hLast : ((mt.setMsg msg fun m =>
        { m with parent := some lastmsg }).msgs
          lastmsg).lastchild = mt.pointers.lastchild lastmsg :=
    congrFun (congrArg Pointers.lastchild (pointers_set_parent mt msg (some lastmsg))) lastmsg
  rw [hLast]
  generalize (mt.setMsg msg fun m => { m with parent := some lastmsg }) = begun
  have hPrev : ((begun.setMsg msg fun m =>
        { m with
          prevsib := mt.pointers.lastchild lastmsg }).msgs
            msg).prevsib = mt.pointers.lastchild lastmsg := by
    simp [Refmsgtable.setMsg]
  rw [hPrev]
  unfold Pointers.link
  cases mt.pointers.lastchild lastmsg with
  | none => rfl
  | some sib => rfl

theorem breakparent_of_top {mt : Refmsgtable} {m : Nat}
    (hParent : (mt.msgs m).parent = none) : breakparent mt m = mt := by
  unfold breakparent
  rw [hParent]

theorem pointers_breakparent {mt : Refmsgtable} {m p : Nat}
    (hParent : (mt.msgs m).parent = some p) (hPrev : (mt.msgs m).prevsib ≠ some m) :
    (breakparent mt m).pointers = mt.pointers.unlink m p := by
  unfold breakparent
  rw [hParent]
  simp only [pointers_set_parent, pointers_setPrev]
  have hMid := pointers_setNext mt (mt.msgs m).prevsib p (mt.msgs m).nextsib
  generalize setNext mt (mt.msgs m).prevsib p (mt.msgs m).nextsib = mid at hMid ⊢
  have hPrevsib : (mid.msgs m).prevsib = mt.pointers.prevsib m :=
    congrFun (congrArg Pointers.prevsib hMid) m
  have hNextsib : (mid.msgs m).nextsib = mt.pointers.nextsib m := by
    have hField := congrFun (congrArg Pointers.nextsib hMid) m
    refine Eq.trans hField ?_
    cases hBefore : (mt.msgs m).prevsib with
    | none => rfl
    | some sib =>
      have hOther : m ≠ sib := by
        rintro rfl
        exact hPrev hBefore
      exact Function.update_of_ne hOther _ _
  rw [hPrevsib, hNextsib, hMid]
  show _ = mt.pointers.unlink m p
  unfold Pointers.unlink
  have hBefore : (mt.msgs m).prevsib = mt.pointers.prevsib m := rfl
  have hAfter : (mt.msgs m).nextsib = mt.pointers.nextsib m := rfl
  rw [hBefore, hAfter]
  cases mt.pointers.nextsib m with
  | none =>
    cases mt.pointers.prevsib m with
    | none => rfl
    | some sib => rfl
  | some other =>
    cases mt.pointers.prevsib m with
    | none => rfl
    | some sib => rfl

/-
  The links make a forest, and only allocated messages are
  linked.
-/
structure Threaded (mt : Refmsgtable) (forest : Forest Nat) : Prop where
  links : Represents mt.pointers forest
  used : ∀ m p, forest.parent m = some p → m < mt.nmsgs ∧ p < mt.nmsgs

namespace Threaded

variable {mt other : Refmsgtable} {forest : Forest Nat}

theorem parent (hThreaded : Threaded mt forest) (m : Nat) : (mt.msgs m).parent = forest.parent m :=
  hThreaded.links.parent m

theorem firstchild (hThreaded : Threaded mt forest) (p : Nat) :
    (mt.msgs p).firstchild = (forest.children p).head? :=
  hThreaded.links.first p

/- Changes besides the links. -/
theorem congr (hThreaded : Threaded mt forest) (hPointers : other.pointers = mt.pointers)
    (hCount : mt.nmsgs ≤ other.nmsgs) : Threaded other forest := by
  refine ⟨hPointers ▸ hThreaded.links, ?_⟩
  intro m p hParent
  rcases hThreaded.used m p hParent with ⟨hNode, hUnder⟩
  exact ⟨Nat.lt_of_lt_of_le hNode hCount, Nat.lt_of_lt_of_le hUnder hCount⟩

/- Messages out of use have no links. -/
theorem parent_of_nmsgs_le (hThreaded : Threaded mt forest) {m : Nat}
    (hOut : mt.nmsgs ≤ m) : forest.parent m = none := by
  cases hParent : forest.parent m with
  | none => rfl
  | some p =>
    have hUsed := (hThreaded.used m p hParent).1
    exact absurd hUsed (Nat.not_lt.mpr hOut)

theorem children_of_nmsgs_le (hThreaded : Threaded mt forest) {p : Nat}
    (hOut : mt.nmsgs ≤ p) : forest.children p = [] := by
  rw [List.eq_nil_iff_forall_not_mem]
  intro m hMem
  have hUsed := (hThreaded.used m p ((forest.mem_children p m).mp hMem)).2
  exact Nat.not_lt.mpr hOut hUsed

/- Children are fewer than messages. -/
theorem length_children_le (hThreaded : Threaded mt forest) (p : Nat) :
    (forest.children p).length ≤ mt.nmsgs := by
  have hSubset : forest.children p ⊆ List.range mt.nmsgs := by
    intro m hMem
    have hParent := (forest.mem_children p m).mp hMem
    exact List.mem_range.mpr (hThreaded.used m p hParent).1
  have hFew := (List.subperm_of_subset (forest.nodup p) hSubset).length_le
  rw [List.length_range] at hFew
  exact hFew

theorem linkparent (hThreaded : Threaded mt forest) {m p : Nat}
    (hFree : forest.parent m = none) (hAbove : ¬ forest.Above m p) (hNode : m < mt.nmsgs)
    (hUnder : p < mt.nmsgs) : Threaded (linkparent mt m p) (forest.link m p hFree hAbove) := by
  have hSame := (Relinked.linkparent mt m p).nmsgs
  constructor
  · rw [pointers_linkparent]
    exact hThreaded.links.link hFree hAbove
  · intro x y hParent
    rw [hSame]
    rw [Forest.parent_link] at hParent
    by_cases hSelf : x = m
    · subst hSelf
      rw [Function.update_self] at hParent
      cases hParent
      exact ⟨hNode, hUnder⟩
    · rw [Function.update_of_ne hSelf] at hParent
      exact hThreaded.used x y hParent

theorem breakparent (hThreaded : Threaded mt forest) {m p : Nat}
    (hParent : forest.parent m = some p) :
    Threaded (breakparent mt m) (forest.unlink m p hParent) := by
  have hSame := (Relinked.breakparent mt m).nmsgs
  constructor
  · have hUp : (mt.msgs m).parent = some p := (hThreaded.parent m).trans hParent
    have hPrev : (mt.msgs m).prevsib ≠ some m := by
      rcases hThreaded.links.split hParent with ⟨front, back, hSplit⟩
      have hBefore := hThreaded.links.prev p front m back hSplit
      intro hSelf
      have hIn : m ∈ front := List.mem_of_getLast? (hBefore.symm.trans hSelf)
      have hNodup := forest.nodup p
      rw [hSplit] at hNodup
      exact (List.nodup_append.mp hNodup).2.2 m hIn m List.mem_cons_self rfl
    rw [pointers_breakparent hUp hPrev]
    exact hThreaded.links.unlink hParent
  · intro x y hUp
    rw [hSame]
    rw [Forest.parent_unlink] at hUp
    by_cases hSelf : x = m
    · subst hSelf
      rw [Function.update_self] at hUp
      cases hUp
    · rw [Function.update_of_ne hSelf] at hUp
      exact hThreaded.used x y hUp

/- `breakparent`, with or without a parent. -/
theorem detach (hThreaded : Threaded mt forest) (m : Nat) :
    ∃ detached, Threaded (Rfc822.breakparent mt m) detached ∧
        detached.parent = Function.update forest.parent m none :=
    by
  cases hParent : forest.parent m with
  | none =>
    have hTop : (mt.msgs m).parent = none := (hThreaded.parent m).trans hParent
    refine ⟨forest, ?_, ?_⟩
    · rw [breakparent_of_top hTop]
      exact hThreaded
    · rw [← hParent, Function.update_eq_self]
  | some p => exact ⟨_, hThreaded.breakparent hParent, rfl⟩

end Threaded

------------
-- Loops Over Children
------------

/- The children of `p` went to the end of those of `q`. -/
structure Moved (forest moved : Forest Nat) (p q : Nat) : Prop where
  parent : ∀ x, moved.parent x = if forest.parent x = some p then some q else forest.parent x
  source : moved.children p = []
  target : moved.children q = forest.children q ++ forest.children p
  others : ∀ x, x ≠ p → x ≠ q → moved.children x = forest.children x

/- The children of `p` have no parent any more. -/
structure Emptied (forest emptied : Forest Nat) (p : Nat) : Prop where
  parent : ∀ x, emptied.parent x = if forest.parent x = some p then none else forest.parent x
  source : emptied.children p = []
  others : ∀ x, x ≠ p → emptied.children x = forest.children x

/- Some messages without a parent became children of `p`. -/
structure Adopted (forest adopted : Forest Nat) (ms : List Nat) (p : Nat) : Prop where
  parent : ∀ x, adopted.parent x = if x ∈ ms then some p else forest.parent x
  target : adopted.children p = forest.children p ++ ms
  others : ∀ x, x ≠ p → adopted.children x = forest.children x

namespace Threaded

variable {mt other : Refmsgtable} {forest : Forest Nat}

theorem moveChildren (hThreaded : Threaded mt forest) {p q : Nat}
    (hAbove : ¬ forest.Above p q) (hTarget : q < mt.nmsgs) {fuel : Nat}
    (hFuel : (forest.children p).length ≤ fuel) :
    ∃ moved, Threaded (moveChildren fuel mt p q) moved ∧ Moved forest moved p q := by
  induction hChildren : forest.children p generalizing mt forest fuel with
  | nil =>
    have hFirst : (mt.msgs p).firstchild = none := by
      rw [hThreaded.firstchild, hChildren]
      rfl
    have hStop : Rfc822.moveChildren fuel mt p q = mt := by
      cases fuel with
      | zero => rfl
      | succ fuel =>
        unfold Rfc822.moveChildren
        rw [hFirst]
    refine ⟨forest, hStop.symm ▸ hThreaded, ?_, hChildren, ?_, fun _ _ _ => rfl⟩
    · intro x
      rw [if_neg]
      intro hParent
      have hMem := (forest.mem_children p x).mpr hParent
      rw [hChildren] at hMem
      cases hMem
    · rw [hChildren, List.append_nil]
  | cons m rest ih =>
    have hFirst : (mt.msgs p).firstchild = some m := by
      rw [hThreaded.firstchild, hChildren]
      rfl
    have hParent : forest.parent m = some p := by
      rw [← forest.mem_children, hChildren]
      exact List.mem_cons_self
    have hNode := (hThreaded.used m p hParent).1
    have hNotAbove : ¬ forest.Above m q := by
      intro hOver
      exact hAbove ((((Forest.Above.refl forest p).parent hParent)).trans hOver)
    have hOther : q ≠ p := by
      rintro rfl
      exact hAbove (Forest.Above.refl forest q)
    rw [hChildren, List.length_cons] at hFuel
    rcases Nat.exists_eq_add_one_of_ne_zero (Nat.ne_of_gt (Nat.lt_of_lt_of_le
        (Nat.succ_pos _) hFuel)) with ⟨fuel, rfl⟩
    have hBroken := hThreaded.breakparent hParent
    have hFree : (forest.unlink m p hParent).parent m = none := by
      rw [Forest.parent_unlink, Function.update_self]
    have hApart : ¬ (forest.unlink m p hParent).Above m q :=
      fun hOver => hNotAbove (Forest.above_of_unlink hOver)
    have hCount := (Relinked.breakparent mt m).nmsgs
    have hLinked := hBroken.linkparent hFree hApart (hCount.symm ▸ hNode) (hCount.symm ▸ hTarget)
    have hRest : ((forest.unlink m p hParent).link m q hFree hApart).children p = rest := by
      rw [Forest.children_link, Function.update_of_ne (Ne.symm hOther), Forest.children_unlink,
        Function.update_self, hChildren, List.erase_cons_head]
    have hStill : ¬ ((forest.unlink m p hParent).link m q hFree hApart).Above p q := by
      intro hOver
      rcases Forest.above_link hOver with hOld | ⟨hNew, _⟩
      · exact hAbove (Forest.above_of_unlink hOld)
      · exact hApart hNew
    have hFew : (((forest.unlink m p hParent).link m q hFree hApart).children p).length ≤ fuel := by
      rw [hRest]
      exact Nat.le_of_succ_le_succ hFuel
    rcases ih hLinked hStill (by
        rw [(Relinked.linkparent _ m q).nmsgs, hCount]
        exact hTarget) hFew hRest with
      ⟨moved, hMoved, hEffect⟩
    refine ⟨moved, ?_, ?_, hEffect.source, ?_, ?_⟩
    · show Threaded (Rfc822.moveChildren (fuel + 1) mt p q) moved
      unfold Rfc822.moveChildren
      rw [hFirst]
      exact hMoved
    · intro x
      rw [hEffect.parent, Forest.parent_link, Forest.parent_unlink]
      by_cases hSelf : x = m
      · subst hSelf
        rw [Function.update_self, if_pos hParent, if_neg]
        intro hSame
        exact hOther (Option.some.inj hSame)
      · rw [Function.update_of_ne hSelf, Function.update_of_ne hSelf]
    · rw [hEffect.target, hRest, Forest.children_link, Function.update_self, Forest.children_unlink,
        Function.update_of_ne hOther, hChildren, List.append_assoc, List.singleton_append]
    · intro x hSource hTarget
      rw [hEffect.others x hSource hTarget, Forest.children_link, Function.update_of_ne hTarget,
        Forest.children_unlink, Function.update_of_ne hSource]

theorem takeChildren (hThreaded : Threaded mt forest) {p : Nat} {fuel : Nat}
    (hFuel : (forest.children p).length ≤ fuel) :
    (takeChildren fuel mt p).1 = forest.children p ∧
      ∃ emptied, Threaded (Rfc822.takeChildren fuel mt p).2 emptied ∧
          Emptied forest emptied p := by
  induction hChildren : forest.children p generalizing mt forest fuel with
  | nil =>
    have hFirst : (mt.msgs p).firstchild = none := by
      rw [hThreaded.firstchild, hChildren]
      rfl
    have hStop : Rfc822.takeChildren fuel mt p = ([], mt) := by
      cases fuel with
      | zero => rfl
      | succ fuel =>
        unfold Rfc822.takeChildren
        rw [hFirst]
    rw [hStop]
    refine ⟨rfl, forest, hThreaded, ?_, hChildren, fun _ _ => rfl⟩
    intro x
    rw [if_neg]
    intro hParent
    have hMem := (forest.mem_children p x).mpr hParent
    rw [hChildren] at hMem
    cases hMem
  | cons m rest ih =>
    have hFirst : (mt.msgs p).firstchild = some m := by
      rw [hThreaded.firstchild, hChildren]
      rfl
    have hParent : forest.parent m = some p := by
      rw [← forest.mem_children, hChildren]
      exact List.mem_cons_self
    rw [hChildren, List.length_cons] at hFuel
    rcases Nat.exists_eq_add_one_of_ne_zero (Nat.ne_of_gt (Nat.lt_of_lt_of_le
        (Nat.succ_pos _) hFuel)) with ⟨fuel, rfl⟩
    have hRest : (forest.unlink m p hParent).children p = rest := by
      rw [Forest.children_unlink, Function.update_self, hChildren, List.erase_cons_head]
    have hFew : ((forest.unlink m p hParent).children p).length ≤ fuel := by
      rw [hRest]
      exact Nat.le_of_succ_le_succ hFuel
    rcases ih (hThreaded.breakparent hParent) hFew hRest with ⟨hTaken, emptied, hEmptied, hEffect⟩
    have hStep : Rfc822.takeChildren (fuel + 1) mt p = (m :: (Rfc822.takeChildren fuel
            (Rfc822.breakparent mt m) p).1,
          (Rfc822.takeChildren fuel (Rfc822.breakparent mt m) p).2) := by
      conv_lhs =>
        unfold Rfc822.takeChildren
      rw [hFirst]
    rw [hStep]
    refine ⟨congrArg (m :: ·) hTaken, emptied, hEmptied, ?_, hEffect.source, ?_⟩
    · intro x
      rw [hEffect.parent, Forest.parent_unlink]
      by_cases hSelf : x = m
      · subst hSelf
        rw [Function.update_self, if_pos hParent]
        split
        · rfl
        · rfl
      · rw [Function.update_of_ne hSelf]
    · intro x hOther
      rw [hEffect.others x hOther, Forest.children_unlink, Function.update_of_ne hOther]

/- Breaking the links takes the children without an array. -/
theorem breakChildren_eq (fuel : Nat) (mt : Refmsgtable) (p : Nat) :
    Rfc822.breakChildren fuel mt p = (Rfc822.takeChildren fuel mt p).2 := by
  induction fuel generalizing mt with
  | zero => rfl
  | succ fuel ih =>
    unfold Rfc822.breakChildren Rfc822.takeChildren
    cases (mt.msgs p).firstchild with
    | none => rfl
    | some m => exact ih _

theorem breakChildren (hThreaded : Threaded mt forest) (p : Nat) :
    ∃ emptied, Threaded (Rfc822.breakChildren mt.nmsgs mt p) emptied :=
    by
  rw [breakChildren_eq]
  rcases hThreaded.takeChildren (hThreaded.length_children_le p) with ⟨_, emptied, hEmptied, _⟩
  exact ⟨emptied, hEmptied⟩

theorem linkAll (hThreaded : Threaded mt forest) {ms : List Nat} {p : Nat} (hNodup : ms.Nodup)
    (hFree : ∀ m, m ∈ ms → forest.parent m = none ∧ ¬ forest.Above m p ∧ m < mt.nmsgs)
    (hTarget : p < mt.nmsgs) :
    ∃ adopted, Threaded (linkAll mt ms p) adopted ∧ Adopted forest adopted ms p := by
  induction ms generalizing mt forest with
  | nil =>
    refine ⟨forest, hThreaded, ?_, ?_, fun _ _ => rfl⟩
    · intro x
      rw [if_neg List.not_mem_nil]
    · rw [List.append_nil]
  | cons m rest ih =>
    rcases hFree m List.mem_cons_self with ⟨hTop, hApart, hNode⟩
    rcases List.nodup_cons.mp hNodup with ⟨hFresh, hRestNodup⟩
    have hCount := (Relinked.linkparent mt m p).nmsgs
    have hLinked := hThreaded.linkparent hTop hApart hNode hTarget
    have hRestFree : ∀ x, x ∈ rest → (forest.link m p hTop hApart).parent x = none ∧
            ¬ (forest.link m p hTop hApart).Above x p ∧ x < (Rfc822.linkparent mt m p).nmsgs := by
      intro x hMem
      have hOther : x ≠ m := by
        rintro rfl
        exact hFresh hMem
      rcases hFree x (List.mem_cons_of_mem m hMem) with ⟨hXTop, hXApart, hXNode⟩
      refine ⟨?_, ?_, hCount.symm ▸ hXNode⟩
      · rw [Forest.parent_link, Function.update_of_ne hOther]
        exact hXTop
      · intro hOver
        rcases Forest.above_link hOver with hOld | ⟨hNew, _⟩
        · exact hXApart hOld
        · exact hApart hNew
    rcases ih hLinked hRestNodup hRestFree (hCount.symm ▸ hTarget) with
      ⟨adopted, hAdopted, hEffect⟩
    refine ⟨adopted, hAdopted, ?_, ?_, ?_⟩
    · intro x
      rw [hEffect.parent, Forest.parent_link]
      by_cases hSelf : x = m
      · subst hSelf
        rw [if_neg hFresh, Function.update_self, if_pos List.mem_cons_self]
      · rw [Function.update_of_ne hSelf]
        simp only [List.mem_cons, hSelf, false_or]
    · rw [hEffect.target, Forest.children_link, Function.update_self, List.append_assoc,
        List.singleton_append]
    · intro x hOther
      rw [hEffect.others x hOther, Forest.children_link, Function.update_of_ne hOther]

/- Sorting keeps every parent. -/
theorem sortChildren (hThreaded : Threaded mt forest) (qsort : Qsort) (p : Nat) :
    ∃ sorted, Threaded (sortChildren qsort mt p) sorted ∧ (∀ x, sorted.parent x = forest.parent x) ∧
      ∀ x, x ≠ p → sorted.children x = forest.children x := by
  rcases hThreaded.takeChildren (hThreaded.length_children_le p) with
    ⟨hTaken, emptied, hEmptied, hEffect⟩
  unfold Rfc822.sortChildren
  have hCount := (Relinked.takeChildren mt.nmsgs mt p).nmsgs
  generalize Rfc822.takeChildren mt.nmsgs mt p = taken at hTaken hEmptied hCount ⊢
  have hPerm := qsort.perm (cmpMsgs taken.2) taken.1
  simp only []
  generalize qsort.sort (cmpMsgs taken.2) taken.1 = ms at hPerm ⊢
  rw [hTaken] at hPerm
  have hMem : ∀ x, x ∈ ms ↔ forest.parent x = some p := by
    intro x
    rw [hPerm.mem_iff, forest.mem_children]
  have hFewer : ∀ x y, emptied.parent x = some y → forest.parent x = some y := by
    intro x y hParent
    rw [hEffect.parent] at hParent
    split at hParent
    · cases hParent
    · exact hParent
  have hNodup : ms.Nodup := hPerm.nodup_iff.mpr (forest.nodup p)
  have hFree : ∀ m, m ∈ ms → emptied.parent m = none ∧ ¬ emptied.Above m p ∧ m < taken.2.nmsgs := by
    intro m hIn
    have hParent := (hMem m).mp hIn
    refine ⟨?_, ?_, ?_⟩
    · rw [hEffect.parent, if_pos hParent]
    · intro hOver
      exact forest.not_above_of_parent hParent (hOver.mono hFewer)
    · rw [hCount]
      exact (hThreaded.used m p hParent).1
  cases ms with
  | nil =>
    refine ⟨emptied, hEmptied, ?_, hEffect.others⟩
    intro x
    rw [hEffect.parent, if_neg]
    intro hParent
    cases (hMem x).mpr hParent
  | cons m rest =>
    have hTarget : p < taken.2.nmsgs := by
      rw [hCount]
      exact (hThreaded.used m p ((hMem m).mp List.mem_cons_self)).2
    rcases hEmptied.linkAll hNodup hFree hTarget with ⟨adopted, hAdopted, hLinked⟩
    refine ⟨adopted, hAdopted, ?_, ?_⟩
    · intro x
      rw [hLinked.parent, hEffect.parent]
      by_cases hParent : forest.parent x = some p
      · rw [if_pos ((hMem x).mpr hParent), hParent]
      · rw [if_neg (fun hIn => hParent ((hMem x).mp hIn)), if_neg hParent]
    · intro x hOther
      rw [hLinked.others x hOther, hEffect.others x hOther]

/- A walk up does not get longer than the table. -/
theorem length_path_le (hThreaded : Threaded mt forest) {m : Nat} {path : List Nat}
    (hPath : Links.IsChain forest.parent (m :: path)) : path.length ≤ mt.nmsgs := by
  have hNodup := forest.nodup_of_path hPath
  have hSubset : path ⊆ List.range mt.nmsgs := by
    intro x hMem
    rcases forest.exists_child_of_path hPath hMem with ⟨y, hParent⟩
    exact List.mem_range.mpr (hThreaded.used y x hParent).2
  have hFew := (List.subperm_of_subset (List.nodup_cons.mp hNodup).2 hSubset).length_le
  rw [List.length_range] at hFew
  exact hFew

/- The check against loops finds every ancestor. -/
theorem not_above_of_idAbove (hThreaded : Threaded mt forest) {m last : Nat}
    (hClear : idAbove mt (mt.msgs m).msgid last = false) : ¬ forest.Above m last := by
  intro hAbove
  rcases forest.exists_path last with ⟨path, hPath⟩
  have hParents : (fun x => (mt.msgs x).parent) = forest.parent := funext hThreaded.parent
  unfold idAbove at hClear
  rw [hParents, Links.follow_eq hPath (hThreaded.length_path_le hPath)] at hClear
  have hMem := hAbove.mem_path hPath
  have hDiffers := List.any_eq_false.mp hClear m hMem
  simp [strcmp] at hDiffers

end Threaded

end Wmail.Rfc822
