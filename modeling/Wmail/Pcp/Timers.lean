import Wmail.Core.DoublyLinked
import Mathlib.Data.List.TakeWhile

/-
  The timers of the calendar server (pcpdtimer.c).

  A timer is installed when its alarm is not 0.  It keeps its
  pointers when it is triggered.

  Key theorems include:
    * `TimersHold.step`
    * `runTimers_holds`
-/

namespace Wmail.Pcp

variable {α : Type}

/- `p->alarm`, 0 after `pcpdtimer_init`. -/
def alarm (d : DoublyLinked α Int) (p : α) : Int :=
  (d.data p).getD 0

/-
  The search of `pcpdtimer_install`: the first timer that is
  later; none where the fuel is too small for the loop.
-/
def laterTimer (d : DoublyLinked α Int) (time : Int) : Nat → Option α → Option (Option α)
  | _, none => some none
  | 0, some _ => none
  | fuel + 1, some q =>
    if time < alarm d q then some (some q) else laterTimer d time fuel (d.next q)

variable [DecidableEq α]

/- `pcpdtimer_install`, at the time `now`. -/
def pcpdtimerInstall (fuel : Nat) (d : DoublyLinked α Int) (p : α) (now nseconds : Int) :
    Option (DoublyLinked α Int) :=
  let d := if alarm d p ≠ 0 then d.takeOut p else d
  let d := d.setData p (some (now + nseconds))
  (laterTimer d (alarm d p) fuel d.first).map (d.linkBefore p)

/- `pcpdtimer_triggered`. -/
def pcpdtimerTriggered (d : DoublyLinked α Int) (p : α) : DoublyLinked α Int :=
  if alarm d p = 0 then d else (d.takeOut p).setData p (some 0)

/- A call. -/
inductive TimerCall (α : Type) where
  | install (p : α) (now nseconds : Int)
  | triggered (p : α)

def TimerCall.run (fuel : Nat) (d : DoublyLinked α Int) : TimerCall α → Option (DoublyLinked α Int)
  | install p now nseconds => pcpdtimerInstall fuel d p now nseconds
  | triggered p => some (pcpdtimerTriggered d p)

/- Calls, at first with no timer. -/
def runTimers (fuel : Nat) (calls : List (TimerCall α)) : Option (DoublyLinked α Int) :=
  calls.foldlM (TimerCall.run fuel) .empty

/- The alarm times of the timers that are installed. -/
def TimerCall.apply (times : α → Option Int) : TimerCall α → α → Option Int
  | install p now nseconds => Function.update times p (some (now + nseconds))
  | triggered p => Function.update times p none

def installed (calls : List (TimerCall α)) : α → Option Int :=
  calls.foldl TimerCall.apply fun _ => none

/- The alarm time is not 0, which would be none. -/
def TimerCall.Timed : TimerCall α → Prop
  | install _ now nseconds => now + nseconds ≠ 0
  | triggered _ => True

/- The list has the timers that are installed, in order. -/
structure TimersHold (d : DoublyLinked α Int) (times : α → Option Int) (l : List α) : Prop where
  linked : d.Linked l
  mem : ∀ p, p ∈ l ↔ (times p).isSome = true
  time : ∀ p, alarm d p = (times p).getD 0
  timed : ∀ p, times p ≠ some 0
  sorted : l.Pairwise fun p q => alarm d p ≤ alarm d q

section Hold

variable {d : DoublyLinked α Int} {times : α → Option Int} {l front back : List α} {p : α}

theorem alarm_setData (t : Int) (q : α) :
    alarm (d.setData p (some t)) q = if q = p then t else alarm d q := by
  unfold alarm
  rw [DoublyLinked.data_setData]
  split
  · rfl
  · rfl

theorem alarm_takeOut (q : α) : alarm (d.takeOut p) q = alarm d q := by
  simp [alarm, DoublyLinked.takeOut]

theorem alarm_linkBefore (before : Option α) (q : α) :
    alarm (d.linkBefore p before) q = alarm d q := by
  simp [alarm, DoublyLinked.linkBefore, DoublyLinked.setNext, DoublyLinked.setPrev]

omit [DecidableEq α] in
/- The search stops where the later timers begin. -/
theorem laterTimer_eq {before : Option α} (hSeg : d.Seg before l none) (time : Int) {fuel : Nat}
    (hFuel : l.length ≤ fuel) :
    laterTimer d time fuel l.head? = some (l.dropWhile (alarm d · ≤ time)).head? := by
  induction l generalizing before fuel with
  | nil =>
    cases fuel with
    | zero => rfl
    | succ fuel => rfl
  | cons q l ih =>
    cases fuel with
    | zero => cases hFuel
    | succ fuel =>
      rw [List.head?_cons, laterTimer, List.dropWhile_cons]
      by_cases hLater : time < alarm d q
      · rw [if_pos hLater, if_neg (by simpa using hLater)]
        rfl
      · rw [if_neg hLater, if_pos (by simpa using hLater), hSeg.2.1, Option.or_none]
        exact ih hSeg.2.2 (Nat.le_of_succ_le_succ hFuel)

omit [DecidableEq α] in
theorem lt_of_mem_dropWhile (hSorted : l.Pairwise fun p q => alarm d p ≤ alarm d q) (time : Int) :
    ∀ q ∈ l.dropWhile (alarm d · ≤ time), time < alarm d q := by
  induction l with
  | nil => nofun
  | cons p l ih =>
    rcases List.pairwise_cons.mp hSorted with ⟨hFirst, hRest⟩
    rw [List.dropWhile_cons]
    split
    · exact ih hRest
    · rename_i hLater
      intro q hMem
      have hP : time < alarm d p := by simpa using hLater
      rcases List.mem_cons.mp hMem with rfl | hIn
      · exact hP
      · exact Int.lt_of_lt_of_le hP (hFirst q hIn)

/- A timer is not in the list; its alarm time may be set. -/
theorem TimersHold.takeOut (hHold : TimersHold d times l) (p : α) (t : Int) :
    ∃ others, others.length ≤ l.length ∧ p ∉ others ∧
      ((if alarm d p ≠ 0 then d.takeOut p else d).setData p (some t)).Linked others ∧
      (∀ q, q ∈ others ↔ q ≠ p ∧ (times q).isSome = true) ∧
      others.Pairwise fun q r => alarm d q ≤ alarm d r := by
  have hTime := hHold.time p
  have hData : ∀ {e : DoublyLinked α Int} {l}, e.Linked l → (e.setData p (some t)).Linked l :=
    fun hList => hList.congr rfl rfl fun i _ => ⟨rfl, rfl⟩
  cases hHere : times p with
  | none =>
    have hNot : p ∉ l := by
      rw [hHold.mem, hHere]
      exact Bool.false_ne_true
    have hZero : alarm d p = 0 := by
      rw [hTime, hHere]
      rfl
    rw [if_neg (not_not.mpr hZero)]
    refine ⟨l, Nat.le_refl _, hNot, hData hHold.linked, fun q => ?_, hHold.sorted⟩
    rw [← hHold.mem]
    exact ⟨fun hIn => ⟨ne_of_mem_of_not_mem hIn hNot, hIn⟩, And.right⟩
  | some time =>
    have hNe : alarm d p ≠ 0 := by
      intro hZero
      rw [hTime, hHere] at hZero
      exact hHold.timed p (hHere.trans (congrArg some hZero))
    have hIn : p ∈ l := by
      rw [hHold.mem, hHere]
      rfl
    rcases List.append_of_mem hIn with ⟨front, back, rfl⟩
    have hNot := (List.nodup_cons.mp (List.nodup_middle.mp hHold.linked.nodup)).1
    rw [if_pos hNe]
    refine ⟨front ++ back, by simp, hNot, hData hHold.linked.takeOut, fun q => ?_, ?_⟩
    · have hMem : q ∈ front ++ p :: back ↔ q = p ∨ q ∈ front ++ back := by
        rw [List.mem_append, List.mem_append, List.mem_cons, or_left_comm]
      rw [← hHold.mem, hMem]
      exact ⟨fun hHas => ⟨ne_of_mem_of_not_mem hHas hNot, Or.inr hHas⟩,
        fun hBoth => hBoth.2.resolve_left hBoth.1⟩
    · exact hHold.sorted.sublist ((List.sublist_cons_self p back).append_left front)

theorem TimersHold.triggered (hHold : TimersHold d times l) (p : α) :
    ∃ others, others.length ≤ l.length ∧
      TimersHold (pcpdtimerTriggered d p) (Function.update times p none) others := by
  rcases hHold.takeOut p 0 with ⟨others, hLength, hNot, hLinked, hMem, hSorted⟩
  have hAlarm : ∀ q, alarm (pcpdtimerTriggered d p) q = if q = p then 0 else alarm d q := by
    intro q
    unfold pcpdtimerTriggered
    split
    · rename_i hZero
      split
      · rename_i hSame
        rw [hSame, hZero]
      · rfl
    · rw [alarm_setData, alarm_takeOut]
  refine ⟨others, hLength, ?_, fun q => ?_, fun q => ?_, fun q => ?_, ?_⟩
  · unfold pcpdtimerTriggered
    split
    · rename_i hZero
      rw [if_neg (not_not.mpr hZero)] at hLinked
      exact hLinked.congr rfl rfl fun i _ => ⟨rfl, rfl⟩
    · rename_i hNe
      rwa [if_pos hNe] at hLinked
  · rw [hMem, Function.update_apply]
    split
    · simp [*]
    · simp [*]
  · rw [hAlarm, Function.update_apply]
    split
    · rfl
    · exact hHold.time q
  · rw [Function.update_apply]
    split
    · exact nofun
    · exact hHold.timed q
  · refine hSorted.imp_of_mem fun hQ hR hLe => ?_
    rw [hAlarm, hAlarm, if_neg (ne_of_mem_of_not_mem hQ hNot),
      if_neg (ne_of_mem_of_not_mem hR hNot)]
    exact hLe

theorem TimersHold.install (hHold : TimersHold d times l) (p : α) {now nseconds : Int}
    (hTimed : now + nseconds ≠ 0) {fuel : Nat} (hFuel : l.length ≤ fuel) :
    ∃ e others, pcpdtimerInstall fuel d p now nseconds = some e ∧ others.length ≤ l.length + 1 ∧
      TimersHold e (Function.update times p (some (now + nseconds))) others := by
  rcases hHold.takeOut p (now + nseconds) with ⟨others, hLength, hNot, hLinked, hMem, hSorted⟩
  unfold pcpdtimerInstall
  generalize hE : (if alarm d p ≠ 0 then d.takeOut p else d).setData p (some (now + nseconds)) = e
    at hLinked
  have hAlarm : ∀ q, alarm e q = if q = p then now + nseconds else alarm d q := by
    intro q
    rw [← hE, alarm_setData]
    split
    · rfl
    · split
      · exact alarm_takeOut q
      · rfl
  have hOrder : others.Pairwise fun q r => alarm e q ≤ alarm e r := by
    refine hSorted.imp_of_mem fun hQ hR hLe => ?_
    rw [hAlarm, hAlarm, if_neg (ne_of_mem_of_not_mem hQ hNot),
      if_neg (ne_of_mem_of_not_mem hR hNot)]
    exact hLe
  have hP : alarm e p = now + nseconds := (hAlarm p).trans (if_pos rfl)
  have hLater := lt_of_mem_dropWhile hOrder (alarm e p)
  have hUpTo : ∀ q ∈ others.takeWhile (alarm e · ≤ alarm e p), alarm e q ≤ alarm e p :=
    fun q hQ => of_decide_eq_true (List.mem_takeWhile_imp (p := (alarm e · ≤ alarm e p)) hQ)
  have hSplit := List.takeWhile_append_dropWhile (p := (alarm e · ≤ alarm e p)) (l := others)
  have hSearch := laterTimer_eq hLinked.seg (alarm e p) (Nat.le_trans hLength hFuel)
  dsimp only
  rw [hE, hLinked.first, hSearch, Option.map_some]
  generalize others.takeWhile (alarm e · ≤ alarm e p) = front at hSplit hUpTo
  generalize others.dropWhile (alarm e · ≤ alarm e p) = back at hSplit hLater
  subst hSplit
  refine ⟨_, front ++ p :: back, rfl, ?_, hLinked.linkBefore hNot, fun q => ?_, fun q => ?_,
    fun q => ?_, ?_⟩
  · rw [List.perm_middle.length_eq]
    exact Nat.succ_le_succ hLength
  · rw [Function.update_apply, List.mem_append, List.mem_cons, or_left_comm, ← List.mem_append,
      hMem]
    split
    · simp [*]
    · simp [*]
  · rw [alarm_linkBefore, hAlarm, Function.update_apply]
    split
    · rfl
    · exact hHold.time q
  · rw [Function.update_apply]
    split
    · simpa using hTimed
    · exact hHold.timed q
  · simp only [alarm_linkBefore]
    rcases List.pairwise_append.mp hOrder with ⟨hFront, hBack, hCross⟩
    rw [List.pairwise_append, List.pairwise_cons]
    refine ⟨hFront, ⟨fun q hQ => Int.le_of_lt (hLater q hQ), hBack⟩, fun q hQ r hR => ?_⟩
    rcases List.mem_cons.mp hR with rfl | hIn
    · exact hUpTo q hQ
    · exact hCross q hQ r hIn

/- One call. -/
theorem TimersHold.step (hHold : TimersHold d times l) {call : TimerCall α}
    (hTimed : call.Timed) {fuel : Nat} (hFuel : l.length ≤ fuel) :
    ∃ e others, call.run fuel d = some e ∧ others.length ≤ l.length + 1 ∧
      TimersHold e (call.apply times) others := by
  cases call with
  | install p now nseconds => exact hHold.install p hTimed hFuel
  | triggered p =>
    rcases hHold.triggered p with ⟨others, hLength, hAfter⟩
    exact ⟨_, others, rfl, Nat.le_succ_of_le hLength, hAfter⟩

/- All calls. -/
theorem TimersHold.run {calls : List (TimerCall α)} (hTimed : ∀ call ∈ calls, call.Timed)
    (hHold : TimersHold d times l) {fuel : Nat} (hFuel : l.length + calls.length ≤ fuel) :
    ∃ e others, calls.foldlM (TimerCall.run fuel) d = some e ∧
      TimersHold e (calls.foldl TimerCall.apply times) others := by
  induction calls generalizing d times l with
  | nil => exact ⟨d, l, rfl, hHold⟩
  | cons call calls ih =>
    rw [List.length_cons] at hFuel
    rcases hHold.step (hTimed call List.mem_cons_self) (by omega : l.length ≤ fuel) with
      ⟨e, others, hRun, hLength, hNext⟩
    rw [List.foldlM_cons, hRun]
    exact ih (fun c hC => hTimed c (List.mem_cons_of_mem _ hC)) hNext (by omega)

end Hold

/-
  The list is linked both ways and has the timers that are
  installed, each once and in the order of their alarm times.
-/
theorem runTimers_holds {calls : List (TimerCall α)} (hTimed : ∀ call ∈ calls, call.Timed)
    {fuel : Nat} (hFuel : calls.length ≤ fuel) :
    ∃ d l, runTimers fuel calls = some d ∧ d.Linked l ∧
      (∀ p, p ∈ l ↔ (installed calls p).isSome = true) ∧
      (∀ p ∈ l, installed calls p = some (alarm d p)) ∧
      l.Pairwise fun p q => alarm d p ≤ alarm d q := by
  have hStart : TimersHold (α := α) .empty (fun _ => none) [] :=
    ⟨⟨List.nodup_nil, rfl, rfl, trivial⟩, by simp, fun _ => rfl, nofun, List.Pairwise.nil⟩
  rcases hStart.run hTimed (by simpa using hFuel) with ⟨d, l, hRun, hHold⟩
  refine ⟨d, l, hRun, hHold.linked, hHold.mem, fun p hIn => ?_, hHold.sorted⟩
  rcases Option.isSome_iff_exists.mp ((hHold.mem p).mp hIn) with ⟨t, hT⟩
  have hTime := hHold.time p
  rw [hT] at hTime
  exact hT.trans (congrArg some hTime.symm)

theorem runTimers_three : ∃ d l,
    runTimers 4 [.install 1 10 300, .install 2 20 5, .install 1 30 2, .triggered 2] = some d ∧
      d.Linked l ∧ (∀ p, p ∈ l ↔ (installed [.install 1 10 300, .install 2 20 5,
        .install 1 30 2, .triggered 2] p).isSome = true) ∧
      (∀ p ∈ l, installed [.install 1 10 300, .install 2 20 5,
        .install 1 30 2, .triggered 2] p = some (alarm d p)) ∧
      l.Pairwise fun p q : Nat => alarm d p ≤ alarm d q :=
  runTimers_holds (by simp [TimerCall.Timed]) (Nat.le_refl 4)

/- With the alarm time 0 a timer is in the list for good. -/
theorem not_runTimers_zero : ∃ d, runTimers 2 [.install 0 5 (-5), .triggered 0] = some d ∧
    ¬ ∃ l : List Nat, d.Linked l ∧
      ∀ p, p ∈ l ↔ (installed [.install 0 5 (-5), .triggered 0] p).isSome = true := by
  refine ⟨_, rfl, ?_⟩
  rintro ⟨l, hLinked, hMem⟩
  have hFirst : l.head? = some 0 := hLinked.first.symm
  exact absurd ((hMem 0).mp (List.mem_of_mem_head? hFirst)) (by decide)

end Wmail.Pcp
