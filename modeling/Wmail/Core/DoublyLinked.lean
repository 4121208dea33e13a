import Mathlib.Data.List.Basic
import Mathlib.Data.List.Nodup
import Mathlib.Logic.Function.Basic

/-
  Doubly linked lists in memory.

  The cells have addresses, and every assignment changes one
  pointer.  `Represents` says which list of addresses the
  pointers stand for; what an operation does to them is what
  it does to that list.

  Key theorems include:
    * `Represents.unlink_linkLast`
    * `Represents.raise_lower`, `Represents.lower_raise`
-/

------------
-- Pointers
------------

namespace Wmail

/- The two ends, the pointers of the cells, and their data. -/
@[ext]
structure DoublyLinked (α β : Type) where
  first : Option α
  last : Option α
  next : α → Option α
  prev : α → Option α
  data : α → Option β

namespace DoublyLinked

variable {α β : Type}

/- Nothing is allocated. -/
def empty : DoublyLinked α β where
  first := none
  last := none
  next := fun _ => none
  prev := fun _ => none
  data := fun _ => none

/- The same list from its other end. -/
def mirror (d : DoublyLinked α β) : DoublyLinked α β where
  first := d.last
  last := d.first
  next := d.prev
  prev := d.next
  data := d.data

@[simp] theorem mirror_mirror (d : DoublyLinked α β) : d.mirror.mirror = d :=
  rfl

@[simp] theorem mirror_next (d : DoublyLinked α β) : d.mirror.next = d.prev :=
  rfl

@[simp] theorem mirror_prev (d : DoublyLinked α β) : d.mirror.prev = d.next :=
  rfl

section

variable [DecidableEq α]

/- `p->next=q`. -/
def setNext (d : DoublyLinked α β) (p : α) (q : Option α) : DoublyLinked α β :=
  { d with next := Function.update d.next p q }

/- `p->prev=q`. -/
def setPrev (d : DoublyLinked α β) (p : α) (q : Option α) : DoublyLinked α β :=
  { d with prev := Function.update d.prev p q }

/- `if (p) p->next=q; else first=q;`. -/
def setNextOf (d : DoublyLinked α β) (p q : Option α) : DoublyLinked α β :=
  match p with
  | some p => d.setNext p q
  | none => { d with first := q }

/- `if (p) p->prev=q; else last=q;`. -/
def setPrevOf (d : DoublyLinked α β) (p q : Option α) : DoublyLinked α β :=
  match p with
  | some p => d.setPrev p q
  | none => { d with last := q }

/- Assign to the data of a cell. -/
def setData (d : DoublyLinked α β) (p : α) (x : Option β) : DoublyLinked α β :=
  { d with data := Function.update d.data p x }

/- A new cell becomes the last one. -/
def linkLast (d : DoublyLinked α β) (p : α) (x : β) : DoublyLinked α β :=
  let d := ((d.setData p (some x)).setNext p none).setPrev p d.last
  { d.setNextOf (d.prev p) (some p) with last := some p }

/- A cell is taken out, and freed. -/
def unlink (d : DoublyLinked α β) (p : α) : DoublyLinked α β :=
  let d := d.setNextOf (d.prev p) (d.next p)
  let d := d.setPrevOf (d.next p) (d.prev p)
  ((d.setData p none).setNext p none).setPrev p none

/- A cell is taken out; its own pointers stay. -/
def takeOut (d : DoublyLinked α β) (p : α) : DoublyLinked α β :=
  let d := d.setNextOf (d.prev p) (d.next p)
  d.setPrevOf (d.next p) (d.prev p)

/- A cell is put before another one, or at the end. -/
def linkBefore (d : DoublyLinked α β) (p : α) (q : Option α) : DoublyLinked α β :=
  let d := d.setPrev p (match q with | none => d.last | some q => d.prev q)
  let d := d.setNextOf (d.prev p) (some p)
  (d.setNext p q).setPrevOf q (some p)

/- A cell changes places with the one before it. -/
def raise (d : DoublyLinked α β) (p : α) : DoublyLinked α β :=
  match d.prev p with
  | none => d
  | some q =>
    let d := d.setNext q (d.next p)
    let d := d.setPrevOf (d.next p) (some q)
    let d := d.setPrev p (d.prev q)
    let d := d.setNextOf (d.prev p) (some p)
    (d.setNext p (some q)).setPrev q (some p)

/- A cell changes places with the one behind it. -/
def lower (d : DoublyLinked α β) (p : α) : DoublyLinked α β :=
  match d.next p with
  | none => d
  | some q =>
    let d := d.setPrev q (d.prev p)
    let d := d.setNextOf (d.prev q) (some q)
    let d := d.setNext p (d.next q)
    let d := d.setPrevOf (d.next p) (some p)
    (d.setPrev p (some q)).setNext q (some p)

section

variable (d : DoublyLinked α β)

@[simp] theorem next_setNext (p k : α) (q : Option α) :
    (d.setNext p q).next k = if k = p then q else d.next k :=
  Function.update_apply d.next p q k

@[simp] theorem prev_setNext (p : α) (q : Option α) : (d.setNext p q).prev = d.prev :=
  rfl

@[simp] theorem prev_setPrev (p k : α) (q : Option α) :
    (d.setPrev p q).prev k = if k = p then q else d.prev k :=
  Function.update_apply d.prev p q k

@[simp] theorem next_setPrev (p : α) (q : Option α) : (d.setPrev p q).next = d.next :=
  rfl

theorem data_setData (p k : α) (x : Option β) :
    (d.setData p x).data k = if k = p then x else d.data k :=
  Function.update_apply d.data p x k

@[simp] theorem next_setNextOf (p q : Option α) (k : α) : (d.setNextOf p q).next k =
      if p = some k then q else d.next k := by
  cases p with
  | none => rfl
  | some p => simp only [setNextOf, next_setNext, Option.some.injEq, eq_comm]

@[simp] theorem prev_setNextOf (p q : Option α) : (d.setNextOf p q).prev = d.prev := by
  cases p with
  | none => rfl
  | some p => rfl

@[simp] theorem prev_setPrevOf (p q : Option α) (k : α) : (d.setPrevOf p q).prev k =
      if p = some k then q else d.prev k := by
  cases p with
  | none => rfl
  | some p => simp only [setPrevOf, prev_setPrev, Option.some.injEq, eq_comm]

@[simp] theorem next_setPrevOf (p q : Option α) : (d.setPrevOf p q).next = d.next := by
  cases p with
  | none => rfl
  | some p => rfl

@[simp] theorem ends_setNextOf (p q : Option α) :
    (d.setNextOf p q).first = (if p = none then q else d.first) ∧
      (d.setNextOf p q).last = d.last ∧ (d.setNextOf p q).data = d.data := by
  cases p with
  | none => exact ⟨rfl, rfl, rfl⟩
  | some p => exact ⟨rfl, rfl, rfl⟩

@[simp] theorem ends_setPrevOf (p q : Option α) :
    (d.setPrevOf p q).last = (if p = none then q else d.last) ∧
      (d.setPrevOf p q).first = d.first ∧ (d.setPrevOf p q).data = d.data := by
  cases p with
  | none => exact ⟨rfl, rfl, rfl⟩
  | some p => exact ⟨rfl, rfl, rfl⟩

end

end

section

variable [DecidableEq α] (d : DoublyLinked α β)

@[simp] theorem mirror_setNext (p : α) (q : Option α) :
    d.mirror.setNext p q = (d.setPrev p q).mirror :=
  rfl

@[simp] theorem mirror_setPrev (p : α) (q : Option α) :
    d.mirror.setPrev p q = (d.setNext p q).mirror :=
  rfl

@[simp] theorem mirror_setNextOf (p q : Option α) :
    d.mirror.setNextOf p q = (d.setPrevOf p q).mirror := by
  cases p with
  | none => rfl
  | some p => rfl

@[simp] theorem mirror_setPrevOf (p q : Option α) :
    d.mirror.setPrevOf p q = (d.setNextOf p q).mirror := by
  cases p with
  | none => rfl
  | some p => rfl

/- Moving down is moving up from the other end. -/
theorem lower_eq_mirror (p : α) : d.lower p = (d.mirror.raise p).mirror := by
  unfold lower raise
  rw [mirror_prev]
  cases d.next p with
  | none => rfl
  | some q =>
    have hSame : (d.setPrev q (d.prev p)).prev p = (d.setPrev q (d.prev p)).prev q := by simp
    simp only [mirror_next, mirror_prev, mirror_setNext, mirror_setPrev, mirror_setNextOf,
      mirror_setPrevOf, mirror_mirror, hSame]

end

/-
  The cells follow each other, with the cell `before` them and
  the cell `after` them.
-/
def Seg (d : DoublyLinked α β) : Option α → List α → Option α → Prop
  | _, [], _ => True
  | before, i :: rest, after =>
    d.prev i = before ∧ d.next i = rest.head?.or after ∧ Seg d (some i) rest after

theorem seg_append (d : DoublyLinked α β) (before : Option α) (front back : List α)
    (after : Option α) :
    d.Seg before (front ++ back) after ↔ d.Seg before front (back.head?.or after) ∧
        d.Seg (front.getLast?.or before) back after := by
  induction front generalizing before with
  | nil => exact ⟨fun hSeg => ⟨trivial, hSeg⟩, And.right⟩
  | cons i front ih =>
    have hHead : ((front ++ back).head?).or after = front.head?.or (back.head?.or after) := by
      rw [List.head?_append, Option.or_assoc]
    have hLast : (front.getLast?).or (some i) = ((i :: front).getLast?).or before := by
      cases front with
      | nil => rfl
      | cons j rest =>
        rw [List.getLast?_cons_cons, List.getLast?_eq_some_getLast (List.cons_ne_nil j rest)]
        rfl
    rw [List.cons_append, Seg, Seg, ih, hHead, hLast, and_assoc, and_assoc]

variable {d e : DoublyLinked α β} {before after : Option α} {l : List α}

/-
  Between its ends a segment is as it was; its first and last
  cell may get other neighbours.
-/
theorem Seg.change (hSeg : d.Seg before l after) {other behind : Option α}
    (hPrev : ∀ i, i ∈ l → l.head? ≠ some i → e.prev i = d.prev i)
    (hNext : ∀ i, i ∈ l → l.getLast? ≠ some i → e.next i = d.next i)
    (hHead : ∀ i, l.head? = some i → e.prev i = other)
    (hLast : ∀ i, l.getLast? = some i → e.next i = behind) (hNodup : l.Nodup) :
    e.Seg other l behind := by
  induction l generalizing before other with
  | nil => trivial
  | cons i rest ih =>
    rcases hSeg with ⟨hFirst, hSecond, hRest⟩
    rcases List.nodup_cons.mp hNodup with ⟨hNew, hOthers⟩
    refine ⟨hHead i rfl, ?_, ?_⟩
    · cases rest with
      | nil => exact hLast i rfl
      | cons j more =>
        rw [hNext i List.mem_cons_self, hSecond]
        · rfl
        · intro hSame
          apply hNew
          rw [List.getLast?_cons_cons] at hSame
          exact List.mem_of_getLast? hSame
    · apply ih hRest ?_ ?_ ?_ ?_ hOthers
      · intro k hMem _hOther
        apply hPrev k (List.mem_cons_of_mem i hMem)
        intro hSame
        rw [Option.some.inj hSame] at hNew
        exact hNew hMem
      · intro k hMem hOther
        apply hNext k (List.mem_cons_of_mem i hMem)
        intro hSame
        apply hOther
        cases rest with
        | nil => cases hMem
        | cons j more =>
          rw [List.getLast?_cons_cons] at hSame
          exact hSame
      · intro k hSame
        cases rest with
        | nil => cases hSame
        | cons j more =>
          cases hSame
          rw [hPrev k (List.mem_cons_of_mem i List.mem_cons_self)]
          · exact hRest.1
          · intro hHere
            apply hNew
            rw [Option.some.inj hHere]
            exact List.mem_cons_self
      · intro k hSame
        apply hLast k
        cases rest with
        | nil => cases hSame
        | cons j more =>
          rw [List.getLast?_cons_cons]
          exact hSame

theorem Seg.before_eq {d : DoublyLinked α β} (hSeg : d.Seg before l after) {i : α}
    (hHead : l.head? = some i) : d.prev i = before := by
  cases l with
  | nil => cases hHead
  | cons j rest =>
    cases hHead
    exact hSeg.1

theorem Seg.after_eq {d : DoublyLinked α β} (hSeg : d.Seg before l after) {i : α}
    (hLast : l.getLast? = some i) : d.next i = after := by
  rcases List.getLast?_eq_some_iff.mp hLast with ⟨front, rfl⟩
  exact ((d.seg_append _ _ _ _).mp hSeg).2.2.1

/- Only the last cell gets another neighbour. -/
theorem Seg.change_last [DecidableEq α] {before after behind : Option α}
    (hSeg : d.Seg before l after) (hPrev : ∀ i, i ∈ l → e.prev i = d.prev i)
    (hNext :
      ∀ i, i ∈ l → e.next i =
          if l.getLast? = some i then behind else d.next i) (hNodup : l.Nodup) :
    e.Seg before l behind := by
  apply hSeg.change _ _ _ _ hNodup
  · intro i hMem _hOther
    exact hPrev i hMem
  · intro i hMem hOther
    rw [hNext i hMem, if_neg hOther]
  · intro i hHead
    rw [hPrev i (List.mem_of_mem_head? hHead)]
    exact hSeg.before_eq hHead
  · intro i hLast
    rw [hNext i (List.mem_of_getLast? hLast), if_pos hLast]

/- Only the first cell gets another neighbour. -/
theorem Seg.change_head [DecidableEq α] {before after other : Option α}
    (hSeg : d.Seg before l after)
    (hPrev : ∀ i, i ∈ l → e.prev i = if l.head? = some i then other else d.prev i)
    (hNext : ∀ i, i ∈ l → e.next i = d.next i) (hNodup : l.Nodup) :
    e.Seg other l after := by
  apply hSeg.change _ _ _ _ hNodup
  · intro i hMem hOther
    rw [hPrev i hMem, if_neg hOther]
  · intro i hMem _hOther
    exact hNext i hMem
  · intro i hHead
    rw [hPrev i (List.mem_of_mem_head? hHead), if_pos hHead]
  · intro i hLast
    rw [hNext i (List.mem_of_getLast? hLast)]
    exact hSeg.after_eq hLast

/- From the other end the segment is reversed. -/
theorem Seg.mirror {d : DoublyLinked α β} (hSeg : d.Seg before l after) :
    d.mirror.Seg after l.reverse before := by
  induction l generalizing before with
  | nil => trivial
  | cons i rest ih =>
    rcases hSeg with ⟨hPrev, hNext, hRest⟩
    rw [List.reverse_cons, seg_append]
    refine ⟨ih hRest, ?_, hPrev, trivial⟩
    rw [List.getLast?_reverse]
    exact hNext

------------
-- Lists
------------

/- The pointers of the cells of a list; the others may be any. -/
structure Linked (d : DoublyLinked α β) (l : List α) : Prop where
  nodup : l.Nodup
  first : d.first = l.head?
  last : d.last = l.getLast?
  seg : d.Seg none l none

namespace Linked

variable {d e : DoublyLinked α β} {l front back : List α} {p : α}

theorem congr (hList : d.Linked l) (hFirst : e.first = d.first) (hLast : e.last = d.last)
    (hSame : ∀ i ∈ l, e.next i = d.next i ∧ e.prev i = d.prev i) : e.Linked l := by
  refine ⟨hList.nodup, hFirst.trans hList.first, hLast.trans hList.last, ?_⟩
  apply hList.seg.change _ _ _ _ hList.nodup
  · exact fun i hMem _ => (hSame i hMem).2
  · exact fun i hMem _ => (hSame i hMem).1
  · intro i hHead
    exact (hSame i (List.mem_of_mem_head? hHead)).2.trans (hList.seg.before_eq hHead)
  · intro i hEnd
    exact (hSame i (List.mem_of_getLast? hEnd)).1.trans (hList.seg.after_eq hEnd)

theorem around (hList : d.Linked (front ++ p :: back)) :
    d.prev p = front.getLast? ∧ d.next p = back.head? := by
  rcases (d.seg_append _ _ _ _).mp hList.seg with ⟨_, hPrev, hNext, _⟩
  rw [Option.or_none] at hPrev hNext
  exact ⟨hPrev, hNext⟩

/- A cell between two parts of a list, which are apart. -/
theorem apart_of_nodup (hNodup : (front ++ p :: back).Nodup) :
    front.Nodup ∧ back.Nodup ∧ p ∉ front ∧ p ∉ back ∧
      (∀ i ∈ front, back.head? ≠ some i) ∧ ∀ i ∈ back, front.getLast? ≠ some i := by
  rw [List.nodup_append] at hNodup
  rcases hNodup with ⟨hFront, hBack, hApart⟩
  rcases List.nodup_cons.mp hBack with ⟨hNot, hRest⟩
  have hCross : ∀ i ∈ front, i ∉ back :=
    fun i hMem hIn => hApart i hMem i (List.mem_cons_of_mem p hIn) rfl
  exact ⟨hFront, hRest, fun hMem => hApart p hMem p List.mem_cons_self rfl, hNot,
    fun i hMem hSame => hCross i hMem (List.mem_of_mem_head? hSame),
    fun i hMem hSame => hCross i (List.mem_of_getLast? hSame) hMem⟩

variable [DecidableEq α]

theorem takeOut (hList : d.Linked (front ++ p :: back)) : (d.takeOut p).Linked (front ++ back) := by
  rcases hList.around with ⟨hBefore, hAfter⟩
  rcases apart_of_nodup hList.nodup with ⟨hFront, hBack, hNotFront, _, hNotHead, hNotLast⟩
  have hNotBefore : front.getLast? ≠ some p := fun hSame => hNotFront (List.mem_of_getLast? hSame)
  have hNext : ∀ k, (d.takeOut p).next k =
      if front.getLast? = some k then back.head? else d.next k := by
    intro k
    simp [DoublyLinked.takeOut, hBefore, hAfter]
  have hPrev : ∀ k, (d.takeOut p).prev k =
      if back.head? = some k then front.getLast? else d.prev k := by
    intro k
    simp [DoublyLinked.takeOut, hBefore, hAfter, hNotBefore]
  have hEnds : (d.takeOut p).first = (if front.getLast? = none then back.head? else d.first) ∧
      (d.takeOut p).last = (if back.head? = none then front.getLast? else d.last) := by
    simp [DoublyLinked.takeOut, hBefore, hAfter, hNotBefore]
  have hSegs := (d.seg_append _ _ _ _).mp hList.seg
  refine ⟨hList.nodup.sublist ((List.sublist_cons_self p back).append_left front), ?_, ?_, ?_⟩
  · rw [hEnds.1, hList.first]
    cases front with
    | nil => rfl
    | cons i more =>
      rw [if_neg (by simp)]
      rfl
  · rw [hEnds.2, hList.last]
    cases back with
    | nil =>
      rw [List.append_nil]
      exact if_pos rfl
    | cons i more =>
      rw [if_neg (by simp), List.getLast?_append, List.getLast?_append, List.getLast?_cons_cons]
  · rw [seg_append, Option.or_none, Option.or_none]
    constructor
    · apply hSegs.1.change_last _ _ hFront
      · exact fun i hMem => by rw [hPrev, if_neg (hNotHead i hMem)]
      · exact fun i _ => hNext i
    · apply hSegs.2.2.2.change_head _ _ hBack
      · exact fun i _ => hPrev i
      · exact fun i hMem => by rw [hNext, if_neg (hNotLast i hMem)]

theorem linkBefore (hList : d.Linked (front ++ back)) (hNew : p ∉ front ++ back) :
    (d.linkBefore p back.head?).Linked (front ++ p :: back) := by
  have hNodup : (front ++ p :: back).Nodup :=
    List.nodup_middle.mpr (List.nodup_cons.mpr ⟨hNew, hList.nodup⟩)
  rcases apart_of_nodup hNodup with ⟨hFront, hBack, hNotFront, hNotBack, hNotHead, hNotLast⟩
  have hSegs := (d.seg_append _ _ _ _).mp hList.seg
  rw [Option.or_none, Option.or_none] at hSegs
  have hBefore : (match back.head? with | none => d.last | some q => d.prev q) =
      front.getLast? := by
    cases back with
    | nil => simpa using hList.last
    | cons q more => exact hSegs.2.1
  have hNotSelf : back.head? ≠ some p := fun hSame => hNotBack (List.mem_of_mem_head? hSame)
  have hNext : ∀ k, (d.linkBefore p back.head?).next k =
      if k = p then back.head? else if front.getLast? = some k then some p else d.next k := by
    intro k
    simp [DoublyLinked.linkBefore, hBefore]
  have hPrev : ∀ k, (d.linkBefore p back.head?).prev k =
      if back.head? = some k then some p else if k = p then front.getLast? else d.prev k := by
    intro k
    simp [DoublyLinked.linkBefore, hBefore]
  have hEnds : (d.linkBefore p back.head?).first =
        (if front.getLast? = none then some p else d.first) ∧
      (d.linkBefore p back.head?).last = (if back.head? = none then some p else d.last) := by
    simp [DoublyLinked.linkBefore, hBefore, DoublyLinked.setNext, DoublyLinked.setPrev]
  refine ⟨hNodup, ?_, ?_, ?_⟩
  · rw [hEnds.1, hList.first]
    cases front with
    | nil => rfl
    | cons i more =>
      rw [if_neg (by simp)]
      rfl
  · rw [hEnds.2, hList.last]
    cases back with
    | nil => exact (if_pos rfl).trans (List.getLast?_concat).symm
    | cons i more =>
      rw [if_neg (by simp), List.getLast?_append, List.getLast?_append, List.getLast?_cons_cons]
  · rw [seg_append]
    refine ⟨hSegs.1.change_last ?_ ?_ hFront, ?_, ?_, hSegs.2.change_head ?_ ?_ hBack⟩
    · intro i hMem
      rw [hPrev, if_neg (hNotHead i hMem), if_neg (ne_of_mem_of_not_mem hMem hNotFront)]
    · intro i hMem
      rw [hNext, if_neg (ne_of_mem_of_not_mem hMem hNotFront)]
      rfl
    · rw [hPrev, if_neg hNotSelf, if_pos rfl, Option.or_none]
    · rw [hNext, if_pos rfl, Option.or_none]
    · intro i hMem
      rw [hPrev, if_neg (ne_of_mem_of_not_mem hMem hNotBack)]
    · intro i hMem
      rw [hNext, if_neg (ne_of_mem_of_not_mem hMem hNotBack), if_neg (hNotLast i hMem)]

end Linked

/-
  The pointers stand for this list, and only its cells are
  allocated.
-/
structure Represents (d : DoublyLinked α β) (l : List α) : Prop where
  nodup : l.Nodup
  first : d.first = l.head?
  last : d.last = l.getLast?
  seg : d.Seg none l none
  inside : ∀ i, i ∈ l → (d.data i).isSome = true
  outside : ∀ i, i ∉ l → d.next i = none ∧ d.prev i = none ∧ d.data i = none

theorem empty_represents : (empty : DoublyLinked α β).Represents [] where
  nodup := List.nodup_nil
  first := rfl
  last := rfl
  seg := trivial
  inside := nofun
  outside := fun _ _ => ⟨rfl, rfl, rfl⟩

namespace Represents

variable {d e : DoublyLinked α β} {l : List α}

theorem mirror (hList : d.Represents l) : d.mirror.Represents l.reverse where
  nodup := List.nodup_reverse.mpr hList.nodup
  first := by
    rw [List.head?_reverse]
    exact hList.last
  last := by
    rw [List.getLast?_reverse]
    exact hList.first
  seg := hList.seg.mirror
  inside := fun i hMem => hList.inside i (List.mem_reverse.mp hMem)
  outside := by
    intro i hMem
    have hOutside := hList.outside i fun hIn => hMem (List.mem_reverse.mpr hIn)
    exact ⟨hOutside.2.1, hOutside.1, hOutside.2.2⟩

variable {front back : List α} {p : α}

theorem linked (hList : d.Represents l) : d.Linked l :=
  ⟨hList.nodup, hList.first, hList.last, hList.seg⟩

/- The neighbours of a cell in the list. -/
theorem around (hList : d.Represents (front ++ p :: back)) :
    d.prev p = front.getLast? ∧ d.next p = back.head? :=
  hList.linked.around

/- The list and the data determine the pointers. -/
theorem unique (hList : d.Represents l) (hOther : e.Represents l)
    (hData : d.data = e.data) : d = e := by
  have hAround : ∀ i, d.next i = e.next i ∧ d.prev i = e.prev i := by
    intro i
    by_cases hMem : i ∈ l
    · rcases List.append_of_mem hMem with ⟨front, back, rfl⟩
      have hHere := hList.around
      have hThere := hOther.around
      exact ⟨hHere.2.trans hThere.2.symm, hHere.1.trans hThere.1.symm⟩
    · have hHere := hList.outside i hMem
      have hThere := hOther.outside i hMem
      exact ⟨hHere.1.trans hThere.1.symm, hHere.2.1.trans hThere.2.1.symm⟩
  apply DoublyLinked.ext
  · exact hList.first.trans hOther.first.symm
  · exact hList.last.trans hOther.last.symm
  · exact funext fun i => (hAround i).1
  · exact funext fun i => (hAround i).2
  · exact hData

------------
-- Operations
------------

variable [DecidableEq α]

theorem linkLast (hList : d.Represents l) (hNew : p ∉ l) (x : β) :
    (d.linkLast p x).Represents (l ++ [p]) := by
  have hLast : d.last ≠ some p :=
    fun hSame => hNew (List.mem_of_getLast? (hList.last.symm.trans hSame))
  have hAppended : d.linkLast p x = (d.linkBefore p none).setData p (some x) := by
    apply DoublyLinked.ext
    · simp [DoublyLinked.linkLast, DoublyLinked.linkBefore, setData, setNext, setPrev]
    · simp [DoublyLinked.linkLast, DoublyLinked.linkBefore, setData, setPrevOf]
    · funext k
      by_cases hSelf : k = p
      · subst hSelf
        simp [DoublyLinked.linkLast, DoublyLinked.linkBefore, setData, hLast]
      · simp [DoublyLinked.linkLast, DoublyLinked.linkBefore, setData, hSelf]
    · funext k
      simp [DoublyLinked.linkLast, DoublyLinked.linkBefore, setData]
    · simp [DoublyLinked.linkLast, DoublyLinked.linkBefore, setData, setNext, setPrev]
  have hOld : d.Linked (l ++ []) := by
    rw [List.append_nil]
    exact hList.linked
  have hLinked : ((d.linkBefore p none).setData p (some x)).Linked (l ++ [p]) :=
    (hOld.linkBefore (by rwa [List.append_nil])).congr rfl rfl fun _ _ => ⟨rfl, rfl⟩
  have hData : (d.linkBefore p none).data = d.data := by
    simp [DoublyLinked.linkBefore, setNext, setPrev]
  rw [hAppended]
  refine ⟨hLinked.nodup, hLinked.first, hLinked.last, hLinked.seg, ?_, ?_⟩
  · intro i hMem
    rw [data_setData, hData]
    split
    · rfl
    · rename_i hOther
      apply hList.inside
      exact (List.mem_append.mp hMem).resolve_right fun hIn => hOther (List.mem_singleton.mp hIn)
  · intro i hMem
    have hOther : i ≠ p := fun hSame => hMem (hSame ▸ List.mem_append_right l List.mem_cons_self)
    have hOut : i ∉ l := fun hIn => hMem (List.mem_append_left _ hIn)
    have hNotLast : d.last ≠ some i :=
      fun hSame => hOut (List.mem_of_getLast? (hList.last.symm.trans hSame))
    rw [data_setData, if_neg hOther, hData]
    simpa [DoublyLinked.linkBefore, setData, hOther, hNotLast] using hList.outside i hOut

theorem unlink (hList : d.Represents (front ++ p :: back)) :
    (d.unlink p).Represents (front ++ back) := by
  have hIn : ∀ i, i ∈ front ++ p :: back ↔ i = p ∨ i ∈ front ++ back := by
    intro i
    rw [List.mem_append, List.mem_append, List.mem_cons, or_left_comm]
  have hNot : p ∉ front ++ back := (List.nodup_cons.mp (List.nodup_middle.mp hList.nodup)).1
  have hCells : ∀ k, (d.unlink p).next k = (if k = p then none else (d.takeOut p).next k) ∧
      (d.unlink p).prev k = (if k = p then none else (d.takeOut p).prev k) ∧
      (d.unlink p).data k = (if k = p then none else d.data k) := by
    intro k
    simp [DoublyLinked.unlink, DoublyLinked.takeOut, setData, setNext, setPrev,
      Function.update_apply]
  have hLinked : (d.unlink p).Linked (front ++ back) := by
    refine hList.linked.takeOut.congr rfl rfl fun i hMem => ?_
    have hOther := ne_of_mem_of_not_mem hMem hNot
    rw [(hCells i).1, (hCells i).2.1, if_neg hOther, if_neg hOther]
    exact ⟨rfl, rfl⟩
  refine ⟨hLinked.nodup, hLinked.first, hLinked.last, hLinked.seg, ?_, ?_⟩
  · intro i hMem
    rw [(hCells i).2.2, if_neg (ne_of_mem_of_not_mem hMem hNot)]
    exact hList.inside i ((hIn i).mpr (Or.inr hMem))
  · intro i hMem
    rw [(hCells i).1, (hCells i).2.1, (hCells i).2.2]
    by_cases hSelf : i = p
    · rw [if_pos hSelf, if_pos hSelf, if_pos hSelf]
      exact ⟨rfl, rfl, rfl⟩
    · have hNoLast : front.getLast? ≠ some i :=
        fun hSame => hMem (List.mem_append_left _ (List.mem_of_getLast? hSame))
      have hNoHead : back.head? ≠ some i :=
        fun hSame => hMem (List.mem_append_right _ (List.mem_of_mem_head? hSame))
      rw [if_neg hSelf, if_neg hSelf, if_neg hSelf]
      simpa [DoublyLinked.takeOut, hList.around, hNoLast, hNoHead, Ne.symm hSelf] using
        hList.outside i fun hHere => ((hIn i).mp hHere).elim hSelf hMem

theorem data_raise (p : α) : (d.raise p).data = d.data := by
  unfold DoublyLinked.raise
  cases d.prev p with
  | none => rfl
  | some q => simp [setNext, setPrev]

/- The cell and the one before it change places. -/
theorem raise {p q : α} (hList : d.Represents (front ++ q :: p :: back)) :
    (d.raise p).Represents (front ++ p :: q :: back) := by
  have hOrder : front ++ q :: p :: back = (front ++ [q]) ++ p :: back :=
    List.append_cons front q (p :: back)
  have hAroundQ := hList.around
  have hAroundP := (hOrder ▸ hList).around
  rw [List.getLast?_concat] at hAroundP
  have hMoved : d.raise p = (d.takeOut p).linkBefore p (some q) := by
    simp [DoublyLinked.raise, DoublyLinked.takeOut, DoublyLinked.linkBefore, hAroundP.1,
      setNextOf, setPrevOf]
  have hOut : (d.takeOut p).Linked (front ++ q :: back) := by
    rw [List.append_cons]
    exact (hOrder ▸ hList).linked.takeOut
  have hNew : p ∉ front ++ q :: back := by
    rw [List.append_cons]
    exact (List.nodup_cons.mp (List.nodup_middle.mp (hOrder ▸ hList.nodup))).1
  have hMembers : ∀ i, i ∈ front ++ p :: q :: back ↔ i ∈ front ++ q :: p :: back :=
    fun i => (List.Perm.append_left front (List.Perm.swap q p back)).mem_iff
  have hLinked := hOut.linkBefore hNew
  rw [List.head?_cons, ← hMoved] at hLinked
  refine ⟨hLinked.nodup, hLinked.first, hLinked.last, hLinked.seg, ?_, ?_⟩
  · intro i hMem
    rw [data_raise]
    exact hList.inside i ((hMembers i).mp hMem)
  · intro i hMem
    have hOld := hList.outside i fun hIn => hMem ((hMembers i).mpr hIn)
    have hOther : i ≠ p ∧ i ≠ q ∧ front.getLast? ≠ some i ∧ back.head? ≠ some i := by
      refine ⟨?_, ?_, ?_, ?_⟩
      · rintro rfl
        exact hMem (List.mem_append_right _ List.mem_cons_self)
      · rintro rfl
        exact hMem ((hMembers i).mpr (List.mem_append_right _ List.mem_cons_self))
      · exact fun hSame => hMem (List.mem_append_left _ (List.mem_of_getLast? hSame))
      · exact fun hSame => hMem (List.mem_append_right _
          (List.mem_cons_of_mem p (List.mem_cons_of_mem q (List.mem_of_mem_head? hSame))))
    have hNotQ := (List.nodup_cons.mp (List.nodup_append.mp hList.nodup).2.1).1
    have hHeadQ : back.head? ≠ some q :=
      fun hSame => hNotQ (List.mem_cons_of_mem p (List.mem_of_mem_head? hSame))
    rw [data_raise]
    simpa [DoublyLinked.raise, hAroundP, hAroundQ, hOther, hHeadQ] using hOld

/- The first cell stays where it is. -/
theorem raise_first {back : List α} (hList : d.Represents (p :: back)) : d.raise p = d := by
  have hPrev : d.prev p = none := hList.seg.1
  unfold DoublyLinked.raise
  rw [hPrev]

/- The cell and the one behind it change places. -/
theorem lower {p q : α} (hList : d.Represents (front ++ p :: q :: back)) :
    (d.lower p).Represents (front ++ q :: p :: back) := by
  have hMirror : d.mirror.Represents (back.reverse ++ q :: p :: front.reverse) := by
    have hThere := hList.mirror
    simpa using hThere
  have hBack := hMirror.raise.mirror
  simpa [lower_eq_mirror] using hBack

/- The last cell stays where it is. -/
theorem lower_last {front : List α} (hList : d.Represents (front ++ [p])) : d.lower p = d := by
  have hNext : d.next p = none := hList.around.2
  unfold DoublyLinked.lower
  rw [hNext]

theorem data_lower (p : α) : (d.lower p).data = d.data := by
  rw [lower_eq_mirror]
  exact data_raise (d := d.mirror) p

/- The data of a cell may change. -/
theorem setData (hList : d.Represents l) (hMem : p ∈ l) (x : β) :
    (d.setData p (some x)).Represents l where
  nodup := hList.nodup
  first := hList.first
  last := hList.last
  seg := hList.seg.change (fun _ _ _ => rfl)
    (fun _ _ _ => rfl) (fun _ hHead => hList.seg.before_eq hHead)
    (fun _ hLast => hList.seg.after_eq hLast) hList.nodup
  inside := by
    intro i hIn
    simp only [DoublyLinked.setData, Function.update_apply]
    split
    · rfl
    · exact hList.inside i hIn
  outside := by
    intro i hOut
    have hOther : i ≠ p := fun hSame => hOut (hSame ▸ hMem)
    simp only [DoublyLinked.setData, Function.update_of_ne hOther]
    exact hList.outside i hOut

/- Adding a cell and taking it out again changes nothing. -/
theorem unlink_linkLast (hList : d.Represents l) (hNew : p ∉ l) (x : β) :
    (d.linkLast p x).unlink p = d := by
  have hBack := (hList.linkLast hNew x).unlink
  rw [List.append_nil] at hBack
  apply hBack.unique hList
  funext k
  have hOld := (hList.outside p hNew).2.2
  simp only [DoublyLinked.unlink, DoublyLinked.linkLast, DoublyLinked.setData, setNext, setPrev,
    ends_setNextOf, ends_setPrevOf, Function.update_apply]
  split
  · rename_i hSame
    rw [hSame, hOld]
  · rfl

/- Moving a cell up and down again changes nothing. -/
theorem lower_raise {p q : α} (hList : d.Represents (front ++ q :: p :: back)) :
    (d.raise p).lower p = d := by
  apply hList.raise.lower.unique hList
  rw [data_lower, data_raise]

/- Moving a cell down and up again changes nothing. -/
theorem raise_lower {p q : α} (hList : d.Represents (front ++ p :: q :: back)) :
    (d.lower p).raise p = d := by
  apply hList.lower.raise.unique hList
  rw [data_raise, data_lower]

end Represents

end DoublyLinked

end Wmail
