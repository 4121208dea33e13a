import Mathlib.Data.Nat.Find
import Mathlib.Data.Nat.Init
import Wmail.Core.Climbs
import Wmail.Rfc822.ThreadLoad

/-
  Pruning.

  A dummy that goes gives its children to its parent, so a
  message comes to the first message above it that has not
  gone.  A dummy stays below other messages only if it has two
  children, and a parent that has a parent itself, when the
  pruning comes to it.

  Key theorems include:
    * `threadprune_dummies`
    * `threadprune_stuck`
-/

------------
-- One Message
------------

namespace Wmail.Rfc822

/- The code leaves the message where it is. -/
structure KeptMsg (mt : Refmsgtable) (forest : Forest Nat) (m : Nat) : Prop where
  same : pruneMsg mt m = mt
  reason : forest.parent m = none ∨ (mt.msgs m).isdummy = false ∨
      ((∃ x y, x ≠ y ∧ forest.parent x = some m ∧ forest.parent y = some m) ∧
        ∃ p q, forest.parent m = some p ∧ forest.parent p = some q)

/- The dummy `m` is gone, and its children are under `p`. -/
structure Dissolved (forest pruned : Forest Nat) (m p : Nat) : Prop where
  parent : ∀ x, pruned.parent x =
      if x = m then
        none
      else if forest.parent x = some m then
        some p
      else
        forest.parent x
  source : pruned.children m = []
  others : ∀ x, x ≠ m → x ≠ p → pruned.children x = forest.children x

/- The code removes the dummy. -/
structure GoneMsg (mt : Refmsgtable) (forest pruned : Forest Nat) (m p : Nat) : Prop where
  threaded : Threaded (pruneMsg mt m) pruned
  parent : forest.parent m = some p
  dummy : (mt.msgs m).isdummy = true
  reason : ¬ ((∃ x y, x ≠ y ∧ forest.parent x = some m ∧ forest.parent y = some m) ∧
      ∃ q, forest.parent p = some q)
  dissolved : Dissolved forest pruned m p

section Message

variable {mt : Refmsgtable} {forest : Forest Nat}

/- A node has two children when its first has a sibling. -/
theorem Threaded.two_children (hThreaded : Threaded mt forest) {m child : Nat}
    (hFirst : (mt.msgs m).firstchild = some child) :
    (mt.msgs child).nextsib ≠ none ↔
      ∃ x y, x ≠ y ∧ forest.parent x = some m ∧ forest.parent y = some m := by
  rw [hThreaded.firstchild] at hFirst
  cases hChildren : forest.children m with
  | nil =>
    rw [hChildren] at hFirst
    cases hFirst
  | cons c rest =>
    rw [hChildren, List.head?_cons, Option.some.injEq] at hFirst
    subst hFirst
    have hSib : (mt.msgs c).nextsib = rest.head? := hThreaded.links.next m [] c rest hChildren
    have hNodup := forest.nodup m
    rw [hChildren, List.nodup_cons] at hNodup
    rw [hSib]
    constructor
    · intro hSome
      cases rest with
      | nil => exact absurd rfl hSome
      | cons d more =>
        refine ⟨c, d, ?_, ?_, ?_⟩
        · rintro rfl
          exact hNodup.1 List.mem_cons_self
        · rw [← forest.mem_children, hChildren]
          exact List.mem_cons_self
        · rw [← forest.mem_children, hChildren]
          exact List.mem_cons_of_mem c List.mem_cons_self
    · rintro ⟨x, y, hOther, hX, hY⟩ hNone
      rw [List.head?_eq_none_iff] at hNone
      rw [← forest.mem_children, hChildren, hNone, List.mem_singleton] at hX hY
      exact hOther (hX.trans hY.symm)

/- The code takes the dummy from among its siblings. -/
theorem dissolved_unlink {m p : Nat} (hParent : forest.parent m = some p)
    (hEmpty : forest.children m = []) : Dissolved forest (forest.unlink m p hParent) m p := by
  have hOther := forest.ne_of_parent hParent
  constructor
  · intro x
    rw [Forest.parent_unlink, Function.update_apply]
    have hNot : forest.parent x ≠ some m := by
      intro hUp
      have hMem := (forest.mem_children m x).mpr hUp
      rw [hEmpty] at hMem
      cases hMem
    rw [if_neg hNot]
  · rw [Forest.children_unlink, Function.update_of_ne hOther]
    exact hEmpty
  · intro x _ hX
    rw [Forest.children_unlink, Function.update_of_ne hX]

/- Its children go after those siblings. -/
theorem dissolved_moved {moved : Forest Nat} {m p : Nat} (hParent : forest.parent m = some p)
    (hMoved : Moved (forest.unlink m p hParent) moved m p) : Dissolved forest moved m p := by
  constructor
  · intro x
    rw [hMoved.parent, Forest.parent_unlink]
    by_cases hSelf : x = m
    · rw [hSelf, Function.update_self, if_pos rfl, if_neg (Option.some_ne_none m).symm]
    · rw [Function.update_of_ne hSelf, if_neg hSelf]
  · exact hMoved.source
  · intro x hX hOther
    rw [hMoved.others x hX hOther, Forest.children_unlink, Function.update_of_ne hOther]

/- What the pruning does with one message. -/
theorem pruneMsg_cases (hThreaded : Threaded mt forest) (m : Nat) :
    KeptMsg mt forest m ∨ ∃ pruned p, GoneMsg mt forest pruned m p := by
  cases hParent : (mt.msgs m).parent with
  | none =>
    left
    refine ⟨?_, Or.inl ((hThreaded.parent m).symm.trans hParent)⟩
    unfold pruneMsg
    rw [hParent]
  | some p =>
    have hUp : forest.parent m = some p := (hThreaded.parent m).symm.trans hParent
    cases hDummy : (mt.msgs m).isdummy with
    | false =>
      left
      refine ⟨?_, Or.inr (Or.inl hDummy)⟩
      unfold pruneMsg
      rw [hParent]
      simp only [hDummy]
      rfl
    | true =>
      have hBroken := hThreaded.breakparent hUp
      cases hFirst : (mt.msgs m).firstchild with
      | none =>
        right
        have hEmpty : forest.children m = [] := by
          rw [hThreaded.firstchild, List.head?_eq_none_iff] at hFirst
          exact hFirst
        have hDone : pruneMsg mt m = breakparent mt m := by
          unfold pruneMsg
          rw [hParent]
          simp only [hDummy, hFirst, if_true]
        refine ⟨_, p, hDone ▸ hBroken, hUp, hDummy, ?_, dissolved_unlink hUp hEmpty⟩
        rintro ⟨⟨x, _, _, hX, _⟩, _⟩
        rw [← forest.mem_children, hEmpty] at hX
        cases hX
      | some child =>
        have hTwo := hThreaded.two_children hFirst
        have hGrand : (mt.msgs p).parent ≠ none ↔ ∃ q, forest.parent p = some q := by
          rw [hThreaded.parent, Option.ne_none_iff_exists']
        by_cases hStays : (mt.msgs child).nextsib ≠ none ∧ (mt.msgs p).parent ≠ none
        · left
          refine ⟨?_, Or.inr (Or.inr ⟨hTwo.mp hStays.1, ?_⟩)⟩
          · unfold pruneMsg
            rw [hParent]
            simp only [hDummy, hFirst, if_true]
            rw [if_pos hStays]
          · rcases hGrand.mp hStays.2 with ⟨q, hQ⟩
            exact ⟨p, q, hUp, hQ⟩
        · right
          have hDone : pruneMsg mt m = moveChildren mt.nmsgs (breakparent mt m) m
                p := by
            unfold pruneMsg
            rw [hParent]
            simp only [hDummy, hFirst, if_true]
            rw [if_neg hStays]
          have hLinks := Relinked.breakparent mt m
          have hApart : ¬ (forest.unlink m p hUp).Above m p := by
            intro hAbove
            exact forest.not_above_of_parent hUp (Forest.above_of_unlink hAbove)
          have hTarget : p < (breakparent mt m).nmsgs := by
            rw [hLinks.nmsgs]
            exact (hThreaded.used m p hUp).2
          have hFuel := hBroken.length_children_le m
          rw [hLinks.nmsgs] at hFuel
          rcases hBroken.moveChildren hApart hTarget hFuel with ⟨moved, hMoved, hEffect⟩
          refine ⟨moved, p, hDone ▸ hMoved, hUp, hDummy, ?_, dissolved_moved hUp hEffect⟩
          rintro ⟨hKids, hOver⟩
          exact hStays ⟨hTwo.mpr hKids, hGrand.mpr hOver⟩

theorem pruneMsg_threaded (hThreaded : Threaded mt forest) (m : Nat) :
    ∃ pruned, Threaded (pruneMsg mt m) pruned := by
  rcases pruneMsg_cases hThreaded m with hKept | ⟨pruned, p, hGone⟩
  · rw [hKept.same]
    exact ⟨forest, hThreaded⟩
  · exact ⟨pruned, hGone.threaded⟩

end Message

theorem threadprune_relinked (mt : Refmsgtable) : Relinked mt (rfc822Threadprune mt) :=
  Relinked.foldl Relinked.pruneMsg mt _

theorem threadprune_threaded {mt : Refmsgtable} {forest : Forest Nat}
    (hThreaded : Threaded mt forest) : ∃ pruned, Threaded (rfc822Threadprune mt) pruned := by
  unfold rfc822Threadprune
  generalize List.range mt.nmsgs = ms
  induction ms using List.reverseRecOn with
  | nil => exact ⟨forest, hThreaded⟩
  | append_singleton ms m ih =>
    rcases ih with ⟨pruned, hPruned⟩
    rw [List.foldl_concat]
    exact pruneMsg_threaded hPruned m

------------
-- Dummies That Stay
------------

/- A dummy with a parent that was allocated before `m`. -/
def Refmsgtable.Early (mt : Refmsgtable) (m x : Nat) : Prop :=
  (mt.msgs x).isdummy = true ∧ (mt.msgs x).parent ≠ none ∧ x < m

/- `p` is the first message above `x`, early dummies aside. -/
def Refmsgtable.NextUnder (mt : Refmsgtable) (m x p : Nat) : Prop :=
  Links.Climbs (fun y => (mt.msgs y).parent) (mt.Early m) x p

/-
  The dummy `m` has two messages next under it, and is not
  next under the top of its thread, early dummies aside.
-/
def Refmsgtable.Stuck (mt : Refmsgtable) (m : Nat) : Prop :=
  (mt.msgs m).isdummy = true ∧
    (∃ x y, x ≠ y ∧ ¬ mt.Early m x ∧ ¬ mt.Early m y ∧ mt.NextUnder m x m ∧ mt.NextUnder m y m) ∧
    ∃ p q, mt.NextUnder m m p ∧ mt.NextUnder m p q

/- The messages before `t` have been pruned, none was stuck. -/
structure Pruning (mt : Refmsgtable) (now : Refmsgtable) (pruned : Forest Nat) (t : Nat) :
    Prop where
  threaded : Threaded now pruned
  links : Relinked mt now
  parent : ∀ x, ¬ mt.Early t x → ∀ p, pruned.parent x = some p ↔ mt.NextUnder t x p
  gone : ∀ x, mt.Early t x → pruned.parent x = none ∧ pruned.children x = []

section Run

variable {mt now : Refmsgtable} {forest pruned : Forest Nat} {t : Nat}

theorem Threaded.fallsAlong (hThreaded : Threaded mt forest) :
    ∃ rank, Links.FallsAlong rank fun y => (mt.msgs y).parent := by
  rw [funext hThreaded.parent]
  exact forest.ranked

theorem not_early_self (mt : Refmsgtable) (t : Nat) : ¬ mt.Early t t :=
  fun hEarly => Nat.lt_irrefl t hEarly.2.2

/- A message that does not go changes nothing. -/
theorem early_succ_of_kept (hKept : ¬ ((mt.msgs t).isdummy = true ∧
        (mt.msgs t).parent ≠ none)) : mt.Early (t + 1) = mt.Early t := by
  funext x
  apply propext
  constructor
  · rintro ⟨hDummy, hParent, hLess⟩
    refine ⟨hDummy, hParent, ?_⟩
    rcases Nat.lt_succ_iff_lt_or_eq.mp hLess with hBefore | hSame
    · exact hBefore
    · subst hSame
      exact absurd ⟨hDummy, hParent⟩ hKept
  · rintro ⟨hDummy, hParent, hLess⟩
    exact ⟨hDummy, hParent, Nat.lt_succ_of_lt hLess⟩

theorem early_succ_of_gone (hDummy : (mt.msgs t).isdummy = true)
    (hParent : (mt.msgs t).parent ≠ none) : mt.Early (t + 1) = fun y => mt.Early t y ∨ y = t := by
  funext x
  apply propext
  constructor
  · rintro ⟨hIs, hUp, hLess⟩
    rcases Nat.lt_succ_iff_lt_or_eq.mp hLess with hBefore | hSame
    · exact Or.inl ⟨hIs, hUp, hBefore⟩
    · exact Or.inr hSame
  · rintro (⟨hIs, hUp, hLess⟩ | rfl)
    · exact ⟨hIs, hUp, Nat.lt_succ_of_lt hLess⟩
    · exact ⟨hDummy, hParent, Nat.lt_succ_self x⟩

namespace Pruning

theorem start (hThreaded : Threaded mt forest) : Pruning mt mt forest 0 := by
  have hNone : ∀ x, ¬ mt.Early 0 x := fun x hEarly => Nat.not_lt_zero x hEarly.2.2
  refine ⟨hThreaded, Relinked.refl mt, ?_, ?_⟩
  · intro x _ p
    unfold Refmsgtable.NextUnder
    rw [Links.climbs_iff_parent hNone, hThreaded.parent]
  · intro x hEarly
    exact absurd hEarly (hNone x)

/- What is not gone has a parent as before, if not the same. -/
theorem parent_eq_none (hPruning : Pruning mt now pruned t) (hThreaded : Threaded mt forest)
    {x : Nat} (hStays : ¬ mt.Early t x) : pruned.parent x = none ↔ (mt.msgs x).parent = none := by
  rcases hThreaded.fallsAlong with ⟨rank, hFalls⟩
  constructor
  · intro hNone
    by_contra hSome
    rcases Links.exists_climbs hFalls (fun y (hEarly : mt.Early t y) => hEarly.2.1) hSome with
      ⟨p, hClimbs⟩
    rw [(hPruning.parent x hStays p).mpr hClimbs] at hNone
    cases hNone
  · intro hNone
    cases hParent : pruned.parent x with
    | none => rfl
    | some p =>
      have hClimbs := (hPruning.parent x hStays p).mp hParent
      exact absurd hNone hClimbs.parent_ne_none

/- Whoever is under some message is not gone. -/
theorem stays_of_parent (hPruning : Pruning mt now pruned t) {x p : Nat}
    (hParent : pruned.parent x = some p) : ¬ mt.Early t x := by
  intro hEarly
  rw [(hPruning.gone x hEarly).1] at hParent
  cases hParent

/- The code keeps a dummy below others when it is stuck. -/
theorem stuck_iff (hPruning : Pruning mt now pruned t) :
    mt.Stuck t ↔ (mt.msgs t).isdummy = true ∧ (∃ x y, x ≠ y ∧ pruned.parent x = some t ∧
          pruned.parent y = some t) ∧
        ∃ p q, pruned.parent t = some p ∧ pruned.parent p = some q := by
  have hSelf := not_early_self mt t
  constructor
  · rintro ⟨hDummy, ⟨x, y, hOther, hX, hY, hUnderX, hUnderY⟩, p, q, hUp, hOver⟩
    refine ⟨hDummy, ⟨x, y, hOther, ?_, ?_⟩, p, q, ?_, ?_⟩
    · exact (hPruning.parent x hX t).mpr hUnderX
    · exact (hPruning.parent y hY t).mpr hUnderY
    · exact (hPruning.parent t hSelf p).mpr hUp
    · exact (hPruning.parent p hUp.stays q).mpr hOver
  · rintro ⟨hDummy, ⟨x, y, hOther, hX, hY⟩, p, q, hUp, hOver⟩
    have hStaysX := hPruning.stays_of_parent hX
    have hStaysY := hPruning.stays_of_parent hY
    have hStaysP := hPruning.stays_of_parent hOver
    refine ⟨hDummy, ⟨x, y, hOther, hStaysX, hStaysY, ?_, ?_⟩, p, q, ?_, ?_⟩
    · exact (hPruning.parent x hStaysX t).mp hX
    · exact (hPruning.parent y hStaysY t).mp hY
    · exact (hPruning.parent t hSelf p).mp hUp
    · exact (hPruning.parent p hStaysP q).mp hOver

/- A message that the code leaves where it is. -/
theorem keep (hPruning : Pruning mt now pruned t) (hThreaded : Threaded mt forest)
    (hKept : KeptMsg now pruned t) (hFree : ¬ mt.Stuck t) :
    Pruning mt (pruneMsg now t) pruned (t + 1) := by
  have hSame : mt.Early (t + 1) = mt.Early t := by
    apply early_succ_of_kept
    rintro ⟨hDummy, hParent⟩
    rcases hKept.reason with hNone | hReal | hStays
    · exact hParent ((hPruning.parent_eq_none hThreaded (not_early_self mt t)).mp hNone)
    · rw [hPruning.links.isdummy, hDummy] at hReal
      cases hReal
    · exact hFree (hPruning.stuck_iff.mpr ⟨hDummy, hStays⟩)
  rw [hKept.same]
  refine ⟨hPruning.threaded, hPruning.links, ?_, ?_⟩
  · unfold Refmsgtable.NextUnder
    rw [hSame]
    exact hPruning.parent
  · rw [hSame]
    exact hPruning.gone

/- A dummy that the code removes. -/
theorem remove (hPruning : Pruning mt now pruned t) (hThreaded : Threaded mt forest)
    {more : Forest Nat} {p : Nat} (hGone : GoneMsg now pruned more t p) :
    Pruning mt (pruneMsg now t) more (t + 1) := by
  have hSelf := not_early_self mt t
  have hUp := (hPruning.parent t hSelf p).mp hGone.parent
  have hDummy : (mt.msgs t).isdummy = true := by
    rw [← hPruning.links.isdummy]
    exact hGone.dummy
  have hEarly := early_succ_of_gone hDummy hUp.parent_ne_none
  rcases hThreaded.fallsAlong with ⟨rank, hFalls⟩
  refine ⟨hGone.threaded, hPruning.links.trans (Relinked.pruneMsg now t), ?_, ?_⟩
  · intro x hStays q
    rw [hEarly, not_or] at hStays
    rcases hStays with ⟨hStays, hOther⟩
    unfold Refmsgtable.NextUnder
    rw [hEarly, Links.climbs_leave_out hFalls hSelf, hGone.dissolved.parent, if_neg hOther]
    have hOld := hPruning.parent x hStays
    by_cases hUnder : pruned.parent x = some t
    · rw [if_pos hUnder]
      have hTo := (hOld t).mp hUnder
      constructor
      · intro hSame
        cases hSame
        exact Or.inr ⟨hTo, hUp⟩
      · rintro (⟨hClimbs, hNot⟩ | ⟨_, hOver⟩)
        · exact absurd (hClimbs.unique hTo) hNot
        · rw [hUp.unique hOver]
    · rw [if_neg hUnder, hOld]
      constructor
      · intro hClimbs
        refine Or.inl ⟨hClimbs, ?_⟩
        rintro rfl
        exact hUnder ((hOld q).mpr hClimbs)
      · rintro (⟨hClimbs, _⟩ | ⟨hTo, _⟩)
        · exact hClimbs
        · exact absurd ((hOld t).mpr hTo) hUnder
  · intro x hIs
    rw [hEarly] at hIs
    rw [hGone.dissolved.parent]
    rcases hIs with hBefore | hSame
    · rcases hPruning.gone x hBefore with ⟨hNone, hEmpty⟩
      have hOther : x ≠ t := by
        rintro rfl
        exact hSelf hBefore
      have hNotUnder : x ≠ p := by
        rintro rfl
        have hMem := (pruned.mem_children x t).mpr hGone.parent
        rw [hEmpty] at hMem
        cases hMem
      rw [if_neg hOther, hNone, if_neg (Option.some_ne_none t).symm,
        hGone.dissolved.others x hOther hNotUnder]
      exact ⟨rfl, hEmpty⟩
    · rw [hSame, if_pos rfl]
      exact ⟨rfl, hGone.dissolved.source⟩

theorem step (hPruning : Pruning mt now pruned t) (hThreaded : Threaded mt forest)
    (hFree : ¬ mt.Stuck t) : ∃ more, Pruning mt (pruneMsg now t) more (t + 1) := by
  rcases pruneMsg_cases hPruning.threaded t with hKept | ⟨more, p, hGone⟩
  · exact ⟨pruned, hPruning.keep hThreaded hKept hFree⟩
  · exact ⟨more, hPruning.remove hThreaded hGone⟩

/- The loop up to a message, when none before it is stuck. -/
theorem run (hThreaded : Threaded mt forest) (t : Nat) (hFree : ∀ m, m < t → ¬ mt.Stuck m) :
    ∃ pruned, Pruning mt ((List.range t).foldl pruneMsg mt) pruned t := by
  induction t with
  | zero => exact ⟨forest, start hThreaded⟩
  | succ t ih =>
    rcases ih fun m hLess =>
      hFree m (Nat.lt_succ_of_lt hLess) with
      ⟨pruned, hPruning⟩
    rw [List.range_succ, List.foldl_concat]
    exact hPruning.step hThreaded (hFree t (Nat.lt_succ_self t))

end Pruning

/- The pruning leaves another message with some parent. -/
theorem pruneMsg_parent_ne_none (hThreaded : Threaded mt forest) {m x : Nat}
    (hOther : x ≠ m) (hParent : (mt.msgs x).parent ≠ none) :
    ((pruneMsg mt m).msgs x).parent ≠ none := by
  rcases pruneMsg_cases hThreaded m with hKept | ⟨pruned, p, hGone⟩
  · rw [hKept.same]
    exact hParent
  · rw [hGone.threaded.parent, hGone.dissolved.parent, if_neg hOther]
    rw [hThreaded.parent] at hParent
    split
    · exact Option.some_ne_none p
    · exact hParent

/- A stuck dummy stays below another message. -/
theorem foldl_pruneMsg_stuck (hThreaded : Threaded mt forest) {m n : Nat}
    (hStuck : mt.Stuck m) (hFirst : ∀ x, x < m → ¬ mt.Stuck x) (hLess : m + 1 ≤ n) :
    ∃ pruned, Threaded ((List.range n).foldl pruneMsg mt) pruned ∧
      (((List.range n).foldl pruneMsg mt).msgs m).parent ≠ none := by
  induction n, hLess using Nat.le_induction with
  | base =>
    rcases Pruning.run hThreaded m hFirst with ⟨pruned, hPruning⟩
    have hStays := hPruning.stuck_iff.mp hStuck
    rw [List.range_succ, List.foldl_concat]
    rcases pruneMsg_cases hPruning.threaded m with hKept | ⟨more, p, hGone⟩
    · rw [hKept.same]
      rcases hStays.2.2 with ⟨p, _, hUp, _⟩
      refine ⟨pruned, hPruning.threaded, ?_⟩
      rw [hPruning.threaded.parent, hUp]
      exact Option.some_ne_none p
    · rcases hStays with ⟨_, hKids, q, r, hUp, hOver⟩
      cases hGone.parent.symm.trans hUp
      exact absurd ⟨hKids, r, hOver⟩ hGone.reason
  | succ n hLess ih =>
    rcases ih with ⟨pruned, hPruned, hParent⟩
    rw [List.range_succ, List.foldl_concat]
    rcases pruneMsg_threaded hPruned n with ⟨more, hMore⟩
    exact ⟨more, hMore, pruneMsg_parent_ne_none hPruned (Nat.ne_of_lt hLess) hParent⟩

theorem Refmsgtable.Stuck.bound (hThreaded : Threaded mt forest) (hStuck : mt.Stuck t) :
    t < mt.nmsgs := by
  rcases hStuck with ⟨_, _, p, _, hUp, _⟩
  have hParent := hUp.parent_ne_none
  by_contra hOut
  rw [hThreaded.parent] at hParent
  exact hParent (hThreaded.parent_of_nmsgs_le (Nat.le_of_not_lt hOut))

/- The pruning leaves dummies on top only, unless one is stuck. -/
theorem threadprune_dummies (hThreaded : Threaded mt forest) (hFree : ∀ m, ¬ mt.Stuck m)
    {x : Nat} (hDummy : (mt.msgs x).isdummy = true) :
    ((rfc822Threadprune mt).msgs x).parent = none := by
  rcases Pruning.run hThreaded mt.nmsgs fun m _ => hFree m with ⟨pruned, hPruning⟩
  refine (hPruning.threaded.parent x).trans ?_
  by_cases hEarly : mt.Early mt.nmsgs x
  · exact (hPruning.gone x hEarly).1
  · refine (hPruning.parent_eq_none hThreaded hEarly).mpr ?_
    by_contra hParent
    refine hEarly ⟨hDummy, hParent, ?_⟩
    by_contra hOut
    rw [hThreaded.parent] at hParent
    exact hParent (hThreaded.parent_of_nmsgs_le (Nat.le_of_not_lt hOut))

open Classical in
theorem threadprune_stuck (hThreaded : Threaded mt forest) (hStuck : ∃ m, mt.Stuck m) :
    ∃ m, (mt.msgs m).isdummy = true ∧ ((rfc822Threadprune mt).msgs m).parent ≠ none := by
  have hIs := Nat.find_spec hStuck
  have hFirst : ∀ x, x < Nat.find hStuck → ¬ mt.Stuck x := fun x hLess => Nat.find_min hStuck hLess
  rcases foldl_pruneMsg_stuck hThreaded hIs hFirst (hIs.bound hThreaded) with ⟨_, _, hParent⟩
  exact ⟨Nat.find hStuck, hIs.1, hParent⟩

end Run

end Wmail.Rfc822
