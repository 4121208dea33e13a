import Mathlib.Data.List.Nodup
import Mathlib.Logic.Function.Basic
import Wmail.Core.Links

/-
  Forests, and the pointers that represent them.

  A forest gives every node its parent and the list of its
  children.  In memory it is five pointers a node: to the
  parent, to the first and the last child, and to the
  siblings on both sides.

  Key theorems include:
    * `Represents.link`
    * `Represents.unlink`
-/

namespace Wmail

variable {α : Type}

/-
  A forest.  Some measure falls from every node to its
  parent, so that no node is above itself.
-/
structure Forest (α : Type) where
  parent : α → Option α
  children : α → List α
  mem_children : ∀ p m, m ∈ children p ↔ parent m = some p
  nodup : ∀ p, (children p).Nodup
  ranked : ∃ rank, Links.FallsAlong rank parent

namespace Forest

/- The node `a` is `m` or one of its ancestors. -/
def Above (forest : Forest α) (a m : α) : Prop :=
  Relation.ReflTransGen (fun x y => forest.parent x = some y) m a

theorem Above.refl (forest : Forest α) (m : α) : forest.Above m m :=
  Relation.ReflTransGen.refl

variable {forest : Forest α}

theorem Above.trans {a b c : α} (hUpper : forest.Above a b) (hLower : forest.Above b c) :
    forest.Above a c :=
  Relation.ReflTransGen.trans hLower hUpper

theorem Above.parent {a m p : α} (hAbove : forest.Above a p)
    (hParent : forest.parent m = some p) : forest.Above a m :=
  Relation.ReflTransGen.head hParent hAbove

variable {a m : α}

/- An ancestor is the node itself or above its parent. -/
theorem Above.cases (hAbove : forest.Above a m) :
    a = m ∨ ∃ p, forest.parent m = some p ∧ forest.Above a p := by
  rcases Relation.ReflTransGen.cases_head hAbove with hSame | ⟨p, hParent, hRest⟩
  · exact Or.inl hSame.symm
  · exact Or.inr ⟨p, hParent, hRest⟩

/- A measure that falls along every link. -/
theorem rank_le_of_above {rank : α → Nat} (hFalls : Links.FallsAlong rank forest.parent)
    (hAbove : forest.Above a m) : rank a ≤ rank m := by
  induction hAbove with
  | refl => exact Nat.le_refl _
  | tail _ hStep ih => exact Nat.le_trans (Nat.le_of_lt (hFalls _ _ hStep)) ih

/- The parent relation has no cycle. -/
theorem not_transGen (forest : Forest α) (m : α) :
    ¬ Relation.TransGen (fun x y => forest.parent x = some y) m m := by
  intro hCycle
  rcases forest.ranked with ⟨rank, hFalls⟩
  rcases Relation.TransGen.head'_iff.mp hCycle with ⟨p, hParent, hRest⟩
  have hLess := hFalls m p hParent
  have hBack := rank_le_of_above hFalls hRest
  exact Nat.lt_irrefl _ (Nat.lt_of_le_of_lt hBack hLess)

theorem not_above_of_parent (forest : Forest α) {m p : α}
    (hParent : forest.parent m = some p) : ¬ forest.Above m p := by
  intro hAbove
  exact forest.not_transGen m (Relation.TransGen.head' hParent hAbove)

/- No node is its own parent. -/
theorem ne_of_parent (forest : Forest α) {m p : α} (hParent : forest.parent m = some p) :
    m ≠ p := by
  rintro rfl
  exact forest.not_above_of_parent hParent (Above.refl forest m)

/- A node without a parent has nothing above it. -/
theorem Above.eq_of_parent (hAbove : forest.Above a m) (hTop : forest.parent m = none) : a = m := by
  rcases hAbove.cases with hSame | ⟨p, hParent, _⟩
  · exact hSame
  · cases hTop.symm.trans hParent

/- Fewer links give fewer ancestors. -/
theorem Above.mono {forest other : Forest α}
    (hLinks : ∀ x y, forest.parent x = some y → other.parent x = some y)
    (hAbove : forest.Above a m) : other.Above a m :=
  Relation.ReflTransGen.mono hLinks _ _ hAbove

/-
  A node stays below `root` when every node that stays keeps
  its parent, or comes below `root` in another way.
-/
theorem Above.transfer {forest other : Forest α} {root : α} (Gone : α → Prop) (hStep :
      ∀ x p, ¬ Gone x → forest.parent x = some p → other.Above root x ∨
          (¬ Gone p ∧ other.parent x = some p)) {m : α} (hAbove : forest.Above root m)
    (hStays : ¬ Gone m) :
    other.Above root m := by
  induction hAbove using Relation.ReflTransGen.head_induction_on with
  | refl => exact Above.refl other root
  | @head x p hParent _hRest ih =>
    rcases hStep x p hStays hParent with hDone | ⟨hAlso, hSame⟩
    · exact hDone
    · exact (ih hAlso).parent hSame

/- The parents say which children a node has. -/
theorem children_perm {forest other : Forest α}
    (hSame : ∀ m, other.parent m = forest.parent m) (p : α) :
    (other.children p).Perm (forest.children p) := by
  refine (List.perm_ext_iff_of_nodup (other.nodup p) (forest.nodup p)).mpr ?_
  intro m
  rw [other.mem_children, forest.mem_children, hSame]

/- Above every node there is one without a parent. -/
theorem exists_top (forest : Forest α) (m : α) :
    ∃ top, forest.parent top = none ∧ forest.Above top m := by
  rcases forest.ranked with ⟨rank, hFalls⟩
  induction hRank : rank m using Nat.strongRecOn generalizing m with
  | _ n ih =>
    cases hParent : forest.parent m with
    | none => exact ⟨m, hParent, Above.refl forest m⟩
    | some p =>
      have hLess := hFalls m p hParent
      rw [hRank] at hLess
      rcases ih (rank p) hLess p rfl with ⟨top, hTop, hAbove⟩
      exact ⟨top, hTop, hAbove.parent hParent⟩

/- The walk from a node up to the top. -/
theorem exists_path (forest : Forest α) (m : α) :
    ∃ path, Links.IsChain forest.parent (m :: path) := by
  rcases forest.ranked with ⟨rank, hFalls⟩
  have hChain := Links.isChain_follow hFalls (Nat.le_refl (rank m))
  have hHead := Links.head?_follow forest.parent (rank m) m
  cases hFollow : Links.follow forest.parent (rank m) m with
  | nil =>
    rw [hFollow] at hHead
    cases hHead
  | cons x path =>
    rw [hFollow] at hHead hChain
    cases hHead
    exact ⟨path, hChain⟩

theorem nodup_of_path (forest : Forest α) {path : List α}
    (hPath : Links.IsChain forest.parent path) : path.Nodup := by
  rcases forest.ranked with ⟨_, hFalls⟩
  exact hPath.nodup hFalls

/- The ancestors of a node are on its walk. -/
theorem Above.mem_path {path : List α} (hAbove : forest.Above a m)
    (hPath : Links.IsChain forest.parent (m :: path)) : a ∈ m :: path := by
  induction hAbove using Relation.ReflTransGen.head_induction_on generalizing path with
  | refl => exact List.mem_cons_self
  | @head b c hStep _hRest ih =>
    cases path with
    | nil =>
      have hTop : forest.parent b = none := hPath
      cases hTop.symm.trans hStep
    | cons x rest =>
      have hSame : x = c := Option.some.inj (hPath.1.symm.trans hStep)
      subst hSame
      exact List.mem_cons_of_mem b (ih hPath.2)

/- All nodes of a walk but the first are parents. -/
theorem exists_child_of_path (forest : Forest α) {m : α} {path : List α}
    (hPath : Links.IsChain forest.parent (m :: path)) {x : α} (hMem : x ∈ path) :
    ∃ y, forest.parent y = some x := by
  induction path generalizing m with
  | nil => cases hMem
  | cons p rest ih =>
    rcases List.mem_cons.mp hMem with rfl | hRest
    · exact ⟨m, hPath.1⟩
    · exact ih hPath.2 hRest

------------
-- Linking And Unlinking
------------

variable [DecidableEq α]

open Classical in
/- Make `m`, which has no parent, the last child of `p`. -/
noncomputable def link (forest : Forest α) (m p : α) (hFree : forest.parent m = none)
    (hAbove : ¬ forest.Above m p) : Forest α where
  parent := Function.update forest.parent m (some p)
  children :=
    Function.update forest.children p (forest.children p ++ [m])
  mem_children := by
    intro q x
    have hOld := forest.mem_children q x
    by_cases hNode : x = m
    · subst hNode
      rw [hFree] at hOld
      rw [Function.update_self]
      by_cases hParent : q = p
      · subst hParent
        simp
      · simp [Function.update_of_ne hParent, hOld, Ne.symm hParent]
    · rw [Function.update_of_ne hNode]
      by_cases hParent : q = p
      · subst hParent
        simp [hOld, hNode]
      · rw [Function.update_of_ne hParent]
        exact hOld
  nodup := by
    intro q
    by_cases hParent : q = p
    · subst hParent
      rw [Function.update_self, ← List.concat_eq_append]
      apply List.Nodup.concat _ (forest.nodup q)
      rw [forest.mem_children, hFree]
      rintro ⟨⟩
    · rw [Function.update_of_ne hParent]
      exact forest.nodup q
  ranked := by
    rcases forest.ranked with ⟨rank, hFalls⟩
    refine ⟨fun x =>
      if forest.Above m x then rank x + (rank p + 1)
      else rank x, ?_⟩
    intro x y hParent
    by_cases hNode : x = m
    · subst hNode
      rw [Function.update_self] at hParent
      cases hParent
      simp only [if_neg hAbove, if_pos (Above.refl forest x)]
      omega
    · rw [Function.update_of_ne hNode] at hParent
      have hLess := hFalls x y hParent
      by_cases hUpper : forest.Above m y
      · simp only [if_pos hUpper, if_pos (hUpper.parent hParent)]
        omega
      · have hNotUpper : ¬ forest.Above m x := by
          intro hOver
          rcases hOver.cases with hSame | ⟨q, hUp, hRest⟩
          · exact hNode hSame.symm
          · rw [hParent] at hUp
            cases hUp
            exact hUpper hRest
        simp only [if_neg hUpper, if_neg hNotUpper]
        exact hLess

/- Take `m` out of the children of its parent `p`. -/
def unlink (forest : Forest α) (m p : α) (hParent : forest.parent m = some p) : Forest α where
  parent := Function.update forest.parent m none
  children :=
    Function.update forest.children p ((forest.children p).erase m)
  mem_children := by
    intro q x
    have hOld := forest.mem_children q x
    by_cases hUnder : q = p
    · subst hUnder
      rw [Function.update_self, (forest.nodup q).mem_erase_iff]
      by_cases hNode : x = m
      · subst hNode
        simp
      · rw [Function.update_of_ne hNode, hOld]
        exact and_iff_right hNode
    · rw [Function.update_of_ne hUnder]
      by_cases hNode : x = m
      · subst hNode
        rw [Function.update_self, hOld, hParent]
        simp [Ne.symm hUnder]
      · rw [Function.update_of_ne hNode]
        exact hOld
  nodup := by
    intro q
    by_cases hUnder : q = p
    · subst hUnder
      rw [Function.update_self]
      exact (forest.nodup q).erase m
    · rw [Function.update_of_ne hUnder]
      exact forest.nodup q
  ranked := by
    rcases forest.ranked with ⟨rank, hFalls⟩
    refine ⟨rank, ?_⟩
    intro x y hUp
    by_cases hNode : x = m
    · subst hNode
      rw [Function.update_self] at hUp
      cases hUp
    · rw [Function.update_of_ne hNode] at hUp
      exact hFalls x y hUp

@[simp]
theorem parent_link (forest : Forest α) (m p : α) (hFree : forest.parent m = none)
    (hAbove : ¬ forest.Above m p) :
    (forest.link m p hFree hAbove).parent = Function.update forest.parent m (some p) :=
  rfl

@[simp]
theorem children_link (forest : Forest α) (m p : α) (hFree : forest.parent m = none)
    (hAbove : ¬ forest.Above m p) :
    (forest.link m p hFree hAbove).children =
      Function.update forest.children p (forest.children p ++ [m]) :=
  rfl

@[simp]
theorem parent_unlink (forest : Forest α) (m p : α) (hParent : forest.parent m = some p) :
    (forest.unlink m p hParent).parent = Function.update forest.parent m none :=
  rfl

@[simp]
theorem children_unlink (forest : Forest α) (m p : α) (hParent : forest.parent m = some p) :
    (forest.unlink m p hParent).children =
      Function.update forest.children p ((forest.children p).erase m) :=
  rfl

/- Where the ancestors of a node may come from. -/
theorem above_link {m p a x : α} {hFree : forest.parent m = none} {hNotAbove : ¬ forest.Above m p}
    (hAbove : (forest.link m p hFree hNotAbove).Above a x) :
    forest.Above a x ∨ forest.Above m x ∧ forest.Above a p := by
  induction hAbove with
  | refl => exact Or.inl (Above.refl forest x)
  | @tail b c _hPath hStep ih =>
    have hParent : Function.update forest.parent m (some p) b = some c := hStep
    by_cases hNode : b = m
    · subst hNode
      rw [Function.update_self] at hParent
      cases hParent
      rcases ih with hOld | ⟨_, hBelow⟩
      · exact Or.inr ⟨hOld, Above.refl forest p⟩
      · exact absurd hBelow hNotAbove
    · rw [Function.update_of_ne hNode] at hParent
      have hUp : forest.Above c b := (Above.refl forest c).parent hParent
      rcases ih with hOld | ⟨hNew, hOld⟩
      · exact Or.inl (hUp.trans hOld)
      · exact Or.inr ⟨hNew, hUp.trans hOld⟩

theorem above_of_unlink {m p a x : α} {hParent : forest.parent m = some p}
    (hAbove : (forest.unlink m p hParent).Above a x) : forest.Above a x := by
  refine Relation.ReflTransGen.mono ?_ _ _ hAbove
  intro b c hStep
  have hUp : Function.update forest.parent m none b = some c := hStep
  by_cases hNode : b = m
  · subst hNode
    rw [Function.update_self] at hUp
    cases hUp
  · rw [Function.update_of_ne hNode] at hUp
    exact hUp

end Forest

/- The pointers of every node. -/
@[ext]
structure Pointers (α : Type) where
  parent : α → Option α
  firstchild : α → Option α
  lastchild : α → Option α
  prevsib : α → Option α
  nextsib : α → Option α

/-
  The pointers represent the forest.  What a node without a
  parent has for its siblings does not matter.
-/
structure Represents (links : Pointers α) (forest : Forest α) : Prop where
  parent : ∀ m, links.parent m = forest.parent m
  first : ∀ p, links.firstchild p = (forest.children p).head?
  last : ∀ p, links.lastchild p = (forest.children p).getLast?
  next : ∀ p front m back, forest.children p = front ++ m :: back → links.nextsib m = back.head?
  prev : ∀ p front m back, forest.children p = front ++ m :: back → links.prevsib m = front.getLast?

/- The forest with the children in the opposite order. -/
def Forest.flip (forest : Forest α) : Forest α where
  parent := forest.parent
  children := fun p => (forest.children p).reverse
  mem_children := by
    intro p m
    rw [List.mem_reverse]
    exact forest.mem_children p m
  nodup := by
    intro p
    exact List.nodup_reverse.mpr (forest.nodup p)
  ranked := forest.ranked

namespace Pointers

/- The pointers in the opposite order. -/
def flip (links : Pointers α) : Pointers α :=
  { parent := links.parent
    firstchild := links.lastchild
    lastchild := links.firstchild
    prevsib := links.nextsib
    nextsib := links.prevsib }

variable [DecidableEq α]

/- Append `m` to the children of `p`. -/
def link (links : Pointers α) (m p : α) : Pointers α :=
  { parent := Function.update links.parent m (some p)
    firstchild :=
      if links.lastchild p = none then
        Function.update links.firstchild p (some m)
      else
        links.firstchild
    lastchild := Function.update links.lastchild p (some m)
    prevsib :=
      Function.update links.prevsib m (links.lastchild p)
    nextsib :=
      Function.update (match links.lastchild p with
          | some sib => Function.update links.nextsib sib (some m)
          | none => links.nextsib) m none }

/- Take `m` out of the children of `p`. -/
def unlink (links : Pointers α) (m p : α) : Pointers α :=
  { parent := Function.update links.parent m none
    firstchild :=
      if links.prevsib m = none then
        Function.update links.firstchild p (links.nextsib m)
      else
        links.firstchild
    lastchild :=
      if links.nextsib m = none then
        Function.update links.lastchild p (links.prevsib m)
      else
        links.lastchild
    prevsib :=
      match links.nextsib m with
      | some sib => Function.update links.prevsib sib (links.prevsib m)
      | none => links.prevsib
    nextsib :=
      match links.prevsib m with
      | some sib => Function.update links.nextsib sib (links.nextsib m)
      | none => links.nextsib }

end Pointers

------------
-- The Pointers Represent The Forest
------------

namespace Represents

variable {links : Pointers α} {forest : Forest α}

/- The siblings around a child. -/
theorem split (_hLinks : Represents links forest) {m p : α} (hParent : forest.parent m = some p) :
    ∃ front back, forest.children p = front ++ m :: back :=
  List.append_of_mem ((forest.mem_children p m).mpr hParent)

theorem lastchild_eq_none (hLinks : Represents links forest) (p : α) :
    links.lastchild p = none ↔ forest.children p = [] := by
  rw [hLinks.last]
  exact List.getLast?_eq_none_iff

variable {l front back : List α}

/- The siblings of a node in a list with a new last node. -/
theorem split_concat {m x : α} (hSplit : l ++ [m] = front ++ x :: back) :
    (back = [] ∧ x = m ∧ front = l) ∨ ∃ rest, back = rest ++ [m] ∧ l = front ++ x :: rest := by
  induction back using List.reverseRecOn with
  | nil =>
    rcases List.append_inj' hSplit rfl with ⟨hFront, hNode⟩
    cases hNode
    exact Or.inl ⟨rfl, rfl, hFront.symm⟩
  | append_singleton rest y _ih =>
    rw [← List.cons_append, ← List.append_assoc] at hSplit
    rcases List.append_inj' hSplit rfl with ⟨hOld, hNode⟩
    cases hNode
    exact Or.inr ⟨rest, rfl, hOld⟩

theorem mem_of_split {x : α} (hSplit : l = front ++ x :: back) : x ∈ l := by
  rw [hSplit]
  exact List.mem_append_right _ List.mem_cons_self

/- A node in front of others is not the last one. -/
theorem getLast?_ne_of_split {x y : α} (hNodup : l.Nodup)
    (hSplit : l = front ++ x :: y :: back) : l.getLast? ≠ some x := by
  intro hLast
  rw [hSplit] at hNodup hLast
  have hApart := (List.nodup_append.mp hNodup).2.1
  rw [List.getLast?_append_of_ne_nil _ (List.cons_ne_nil _ _), List.getLast?_cons_cons] at hLast
  exact (List.nodup_cons.mp hApart).1 (List.mem_of_getLast? hLast)

theorem not_mem_children {m : α} (hFree : forest.parent m = none) (q : α) :
    m ∉ forest.children q := by
  intro hMem
  cases hFree.symm.trans ((forest.mem_children q m).mp hMem)

section Link

variable [DecidableEq α] {m p : α}

theorem link_firstchild (hLinks : Represents links forest) (q : α) : (links.link m p).firstchild q =
      (Function.update forest.children p (forest.children p ++ [m]) q).head? := by
  unfold Pointers.link
  by_cases hParent : q = p
  · subst hParent
    rw [Function.update_self]
    by_cases hEmpty : forest.children q = []
    · simp [(hLinks.lastchild_eq_none q).mpr hEmpty, hEmpty]
    · have hLast : links.lastchild q ≠ none := fun hNone =>
        hEmpty ((hLinks.lastchild_eq_none q).mp hNone)
      simp only [if_neg hLast]
      rw [hLinks.first, List.head?_append_of_ne_nil _ hEmpty]
  · rw [Function.update_of_ne hParent, ← hLinks.first]
    by_cases hLast : links.lastchild p = none
    · simp only [if_pos hLast]
      exact Function.update_of_ne hParent _ _
    · simp only [if_neg hLast]

theorem link_lastchild (hLinks : Represents links forest) (q : α) : (links.link m p).lastchild q =
      (Function.update forest.children p (forest.children p ++ [m]) q).getLast? := by
  show Function.update links.lastchild p (some m) q = _
  by_cases hParent : q = p
  · subst hParent
    rw [Function.update_self, Function.update_self, List.getLast?_concat]
  · rw [Function.update_of_ne hParent, Function.update_of_ne hParent]
    exact hLinks.last q

/- Only `m` and the last child before it get a sibling. -/
theorem link_nextsib {x : α} (hNode : x ≠ m) (hNotLast : links.lastchild p ≠ some x) :
    (links.link m p).nextsib x = links.nextsib x := by
  unfold Pointers.link
  simp only []
  rw [Function.update_of_ne hNode]
  cases hLast : links.lastchild p with
  | none => rfl
  | some sib =>
    have hSib : x ≠ sib := by
      rintro rfl
      exact hNotLast hLast
    exact Function.update_of_ne hSib _ _

theorem link_nextsib_last {x : α} (hNode : x ≠ m) (hLast : links.lastchild p = some x) :
    (links.link m p).nextsib x = some m := by
  unfold Pointers.link
  simp only [hLast]
  rw [Function.update_of_ne hNode, Function.update_self]

theorem link (hLinks : Represents links forest) (hFree : forest.parent m = none)
    (hAbove : ¬ forest.Above m p) :
    Represents (links.link m p) (forest.link m p hFree hAbove) := by
  have hNotMem := not_mem_children hFree
  constructor
  · intro x
    show Function.update links.parent m (some p) x = Function.update forest.parent m (some p) x
    rw [funext hLinks.parent]
  · exact hLinks.link_firstchild
  · exact hLinks.link_lastchild
  · intro q front x back hSplit
    replace hSplit : Function.update forest.children p (forest.children p ++ [m]) q =
            front ++ x :: back := hSplit
    by_cases hParent : q = p
    · subst hParent
      rw [Function.update_self] at hSplit
      rcases split_concat hSplit with ⟨rfl, rfl, _⟩ | ⟨rest, rfl, hOld⟩
      · exact Function.update_self _ _ _
      · have hNode : x ≠ m := by
          rintro rfl
          exact hNotMem q (mem_of_split hOld)
        cases rest with
        | nil =>
          apply link_nextsib_last hNode
          rw [hLinks.last, hOld, List.getLast?_concat]
        | cons y more =>
          have hNotLast : links.lastchild q ≠ some x := by
            rw [hLinks.last]
            exact getLast?_ne_of_split (forest.nodup q) hOld
          rw [link_nextsib hNode hNotLast]
          exact hLinks.next q front x (y :: more) hOld
    · rw [Function.update_of_ne hParent] at hSplit
      have hMem := mem_of_split hSplit
      have hUnder := (forest.mem_children q x).mp hMem
      rw [link_nextsib]
      · exact hLinks.next q front x back hSplit
      · rintro rfl
        exact hNotMem q hMem
      · rw [hLinks.last]
        intro hLast
        have hOver := (forest.mem_children p x).mp (List.mem_of_getLast? hLast)
        exact hParent (Option.some.inj (hUnder.symm.trans hOver))
  · intro q front x back hSplit
    replace hSplit : Function.update forest.children p (forest.children p ++ [m]) q =
            front ++ x :: back := hSplit
    have hOld : x ≠ m → (links.link m p).prevsib x = links.prevsib x :=
      fun hNode => Function.update_of_ne hNode _ _
    by_cases hParent : q = p
    · subst hParent
      rw [Function.update_self] at hSplit
      rcases split_concat hSplit with ⟨rfl, rfl, rfl⟩ | ⟨rest, rfl, hRest⟩
      · rw [← hLinks.last]
        exact Function.update_self _ _ _
      · rw [hOld]
        · exact hLinks.prev q front x _ hRest
        · rintro rfl
          exact hNotMem q (mem_of_split hRest)
    · rw [Function.update_of_ne hParent] at hSplit
      rw [hOld]
      · exact hLinks.prev q front x back hSplit
      · rintro rfl
        exact hNotMem q (mem_of_split hSplit)

end Link

/-
  Read from the other end, pointers and forest still match:
  what holds of `nextsib` holds of `prevsib`.
-/
theorem flip (hLinks : Represents links forest) : Represents links.flip forest.flip := by
  constructor
  · exact hLinks.parent
  · intro p
    rw [Forest.flip, List.head?_reverse]
    exact hLinks.last p
  · intro p
    rw [Forest.flip, List.getLast?_reverse]
    exact hLinks.first p
  · intro p front m back hSplit
    have hOld : forest.children p = back.reverse ++ m :: front.reverse := by
      rw [← List.reverse_reverse (forest.children p)]
      show (forest.flip.children p).reverse = _
      rw [hSplit, List.reverse_append, List.reverse_cons, List.append_assoc, List.singleton_append]
    have hPrev := hLinks.prev p _ m _ hOld
    rw [List.getLast?_reverse] at hPrev
    exact hPrev
  · intro p front m back hSplit
    have hOld : forest.children p = back.reverse ++ m :: front.reverse := by
      rw [← List.reverse_reverse (forest.children p)]
      show (forest.flip.children p).reverse = _
      rw [hSplit, List.reverse_append, List.reverse_cons, List.append_assoc, List.singleton_append]
    have hNext := hLinks.next p _ m _ hOld
    rw [List.head?_reverse] at hNext
    exact hNext

section Unlink

variable [DecidableEq α] {m p : α}

/- The list without `m`, split at another node. -/
theorem split_erase {l front back : List α} {x : α} (hNodup : l.Nodup) (hMem : m ∈ l)
    (hSplit : l.erase m = front ++ x :: back) :
    (∃ rest after, l = front ++ x :: (rest ++ m :: after) ∧ back = rest ++ after) ∨
      ∃ before rest, l = before ++ m :: (rest ++ x :: back) ∧ front = before ++ rest := by
  rcases List.append_of_mem hMem with ⟨before, after, rfl⟩
  have hFresh : m ∉ before := by
    intro hIn
    exact (List.nodup_append.mp hNodup).2.2 m hIn m List.mem_cons_self rfl
  rw [List.erase_append_right _ hFresh, List.erase_cons_head] at hSplit
  rcases List.append_eq_append_iff.mp hSplit with ⟨rest, hFront, hAfter⟩ | ⟨rest, hBefore, hBack⟩
  · right
    exact ⟨before, rest, by rw [hAfter], hFront⟩
  · cases rest with
    | nil =>
      right
      refine ⟨before, [], ?_, ?_⟩
      · rw [List.nil_append, hBack]
        rfl
      · rw [hBefore, List.append_nil, List.append_nil]
    | cons y more =>
      left
      rw [List.cons_append] at hBack
      cases hBack
      refine ⟨more, after, ?_, rfl⟩
      rw [hBefore, List.append_assoc]
      rfl

theorem unlink_firstchild (hLinks : Represents links forest)
    (hParent : forest.parent m = some p) (q : α) :
    (links.unlink m p).firstchild q =
      (Function.update forest.children p ((forest.children p).erase m) q).head? := by
  rcases hLinks.split hParent with ⟨front, back, hSplit⟩
  have hPrev := hLinks.prev p front m back hSplit
  have hNext := hLinks.next p front m back hSplit
  unfold Pointers.unlink
  by_cases hUnder : q = p
  · subst hUnder
    have hFresh : m ∉ front := by
      have hNodup := forest.nodup q
      rw [hSplit] at hNodup
      intro hIn
      exact (List.nodup_append.mp hNodup).2.2 m hIn m List.mem_cons_self rfl
    rw [Function.update_self, hSplit, List.erase_append_right _ hFresh, List.erase_cons_head]
    cases front with
    | nil =>
      have hNone : links.prevsib m = none := hPrev
      simp only [if_pos hNone, Function.update_self]
      exact hNext
    | cons y more =>
      have hSome : links.prevsib m ≠ none := by
        rw [hPrev]
        simp
      simp only [if_neg hSome]
      rw [hLinks.first, hSplit]
      rfl
  · rw [Function.update_of_ne hUnder, ← hLinks.first]
    by_cases hNone : links.prevsib m = none
    · simp only [if_pos hNone]
      exact Function.update_of_ne hUnder _ _
    · simp only [if_neg hNone]

/- Only the sibling before `m` gets another one. -/
theorem unlink_nextsib {x : α} (hNotPrev : links.prevsib m ≠ some x) :
    (links.unlink m p).nextsib x = links.nextsib x := by
  unfold Pointers.unlink
  cases hPrev : links.prevsib m with
  | none => rfl
  | some sib =>
    have hSib : x ≠ sib := by
      rintro rfl
      exact hNotPrev hPrev
    exact Function.update_of_ne hSib _ _

theorem unlink_next (hLinks : Represents links forest) (hParent : forest.parent m = some p)
    (q : α) (front : List α) (x : α) (back : List α)
    (hSplit :
      Function.update forest.children p ((forest.children p).erase m) q = front ++ x :: back) :
    (links.unlink m p).nextsib x = back.head? := by
  have hMem := (forest.mem_children p m).mpr hParent
  have hPrevMem : ∀ y, links.prevsib m = some y → ∃ before after,
          forest.children p = before ++ y :: m :: after := by
    intro y hPrev
    rcases hLinks.split hParent with ⟨before, after, hOld⟩
    rw [hLinks.prev p before m after hOld] at hPrev
    rcases List.getLast?_eq_some_iff.mp hPrev with ⟨ys, rfl⟩
    refine ⟨ys, after, ?_⟩
    rw [hOld, List.append_assoc, List.singleton_append]
  by_cases hUnder : q = p
  · subst hUnder
    rw [Function.update_self] at hSplit
    rcases split_erase (forest.nodup q) hMem hSplit with
      ⟨rest, after, hOld, rfl⟩ | ⟨before, rest, hOld, rfl⟩
    · cases rest with
      | nil =>
        -- `x` stands directly before `m`
        have hPrev : links.prevsib m = some x := by
          rw [hLinks.prev q (front ++ [x]) m after]
          · exact List.getLast?_concat
          · rw [hOld, List.append_assoc]
            rfl
        have hNext : links.nextsib m = after.head? := by
          apply hLinks.next q (front ++ [x]) m after
          rw [hOld, List.append_assoc]
          rfl
        unfold Pointers.unlink
        simp only [hPrev, Function.update_self]
        exact hNext
      | cons y more =>
        rw [unlink_nextsib, hLinks.next q front x _ hOld]
        · rfl
        · intro hPrev
          have hX := hLinks.next q front x _ hOld
          rcases hPrevMem x hPrev with ⟨b, a, hThere⟩
          rw [hLinks.next q b x _ hThere] at hX
          have hSame : m = y := Option.some.inj hX
          have hNodup := forest.nodup q
          rw [hOld, hSame] at hNodup
          have hTail := (List.nodup_append.mp hNodup).2.1
          rw [List.cons_append, List.nodup_cons, List.nodup_cons] at hTail
          exact hTail.2.1 (List.mem_append_right _ List.mem_cons_self)
    · rw [unlink_nextsib]
      · apply hLinks.next q (before ++ m :: rest) x back
        rw [hOld, List.append_assoc]
        rfl
      · intro hPrev
        rcases hPrevMem x hPrev with ⟨b, a, hThere⟩
        have hFront := hLinks.prev q before m _ hOld
        rw [hPrev] at hFront
        have hIn : x ∈ before := List.mem_of_getLast? hFront.symm
        have hNodup := forest.nodup q
        rw [hOld] at hNodup
        exact (List.nodup_append.mp hNodup).2.2 x hIn x (List.mem_cons_of_mem m
            (List.mem_append_right _ List.mem_cons_self)) rfl
  · rw [Function.update_of_ne hUnder] at hSplit
    rw [unlink_nextsib]
    · exact hLinks.next q front x back hSplit
    · intro hPrev
      rcases hPrevMem x hPrev with ⟨b, a, hThere⟩
      have hX := (forest.mem_children q x).mp (mem_of_split hSplit)
      have hY := (forest.mem_children p x).mp (mem_of_split hThere)
      exact hUnder (Option.some.inj (hX.symm.trans hY))

theorem unlink (hLinks : Represents links forest) (hParent : forest.parent m = some p) :
    Represents (links.unlink m p) (forest.unlink m p hParent) := by
  -- the children read from the other end
  have hFlip : ∀ q, Function.update forest.flip.children p ((forest.flip.children p).erase m) q =
        (Function.update forest.children p ((forest.children p).erase m) q).reverse := by
    intro q
    by_cases hUnder : q = p
    · subst hUnder
      rw [Function.update_self, Function.update_self, (forest.flip.nodup q).erase_eq_filter,
        (forest.nodup q).erase_eq_filter]
      exact List.filter_reverse
    · rw [Function.update_of_ne hUnder, Function.update_of_ne hUnder]
      rfl
  constructor
  · intro x
    show Function.update links.parent m none x = Function.update forest.parent m none x
    rw [funext hLinks.parent]
  · exact hLinks.unlink_firstchild hParent
  · intro q
    have hFirst := hLinks.flip.unlink_firstchild hParent q
    rw [hFlip, List.head?_reverse] at hFirst
    exact hFirst
  · exact hLinks.unlink_next hParent
  · intro q front x back hSplit
    have hNext := hLinks.flip.unlink_next hParent q back.reverse x front.reverse
    rw [List.head?_reverse] at hNext
    apply hNext
    rw [hFlip]
    show ((forest.unlink m p hParent).children q).reverse = _
    rw [hSplit, List.reverse_append, List.reverse_cons, List.append_assoc, List.singleton_append]

end Unlink

end Represents

end Wmail
