import Wmail.Core.DoublyLinked
import Wmail.Maildir.FilterReload
import Mathlib.Tactic.IntervalCases

/-
  The rules of a filter are cells of a doubly linked list.
  A rule is checked before anything of it is stored, and one
  that is refused is unlinked again.

  Key theorems include:
    * `Filter.step_represents`
    * `filter_run_represents`
-/

------------
-- Updating
------------

namespace Wmail.Maildir

/- The type that a number stands for. -/
def FilterType.ofCode (code : UInt32) : Option FilterType :=
  (typelist[code.toNat]?).map Prod.fst

/- The number of a type. -/
def FilterType.code (type : FilterType) : UInt32 :=
  type.ctorIdx.toUInt32

theorem FilterType.ofCode_code (type : FilterType) : FilterType.ofCode type.code = some type := by
  cases type with
  | startswith => rfl
  | endswith => rfl
  | contains => rfl
  | hasrecipient => rfl
  | mimemultipart => rfl
  | textplain => rfl
  | islargerthan => rfl

variable {type : FilterType}

theorem FilterType.code_of_ofCode {code : UInt32}
    (hType : FilterType.ofCode code = some type) : type.code = code := by
  have hKnown : code.toNat < 7 := by
    rcases Option.map_eq_some_iff.mp hType with ⟨entry, hAt, _⟩
    exact (List.getElem?_eq_some_iff.mp hAt).1
  have hCode : code = UInt32.ofNat code.toNat := UInt32.ofNat_toNat.symm
  unfold ofCode at hType
  generalize code.toNat = n at hKnown hCode hType
  subst hCode
  interval_cases n <;> (cases hType; rfl)

/-
  What a `struct maildirfilterrule` holds besides its links;
  a null pointer is `none`.
-/
structure RuleCell where
  rulename : Option (List Byte)
  type : UInt32
  flags : UInt32
  fieldname : Option (List Byte)
  fieldvalue : Option (List Byte)
  tofolder : Option (List Byte)
  fromhdr : Option (List Byte)
deriving DecidableEq

/- After `memset`. -/
def RuleCell.zero : RuleCell where
  rulename := none
  type := 0
  flags := 0
  fieldname := none
  fieldvalue := none
  tofolder := none
  fromhdr := none

/- The cell that holds a rule. -/
def Rule.cell (p : Rule) : RuleCell where
  rulename := some p.rulename
  type := p.type.code
  flags := p.flags
  fieldname := some p.fieldname
  fieldvalue := some p.fieldvalue
  tofolder := some p.tofolder
  fromhdr := some p.fromhdr

/- The arguments of `maildir_filter_ruleupdate`. -/
structure RuleArgs where
  name : Option (List Byte)
  type : UInt32
  flags : UInt32
  header : Option (List Byte)
  value : Option (List Byte)
  folder : Option (List Byte)
  fromhdr : Option (List Byte)
deriving DecidableEq

/-
  The checks on the header and the value, for a number that
  may stand for no type.  Where a switch lists the types, one
  that is not listed needs the text; the loop over a pattern
  only asks for types that are none of it.
-/
def checkHeaderCode (type flags : UInt32) (header : List Byte) : Bool :=
  match FilterType.ofCode type with
  | some type => checkHeader type flags header
  | none => header ≠ [] && checkHeader .contains flags header

def checkValueCode (type flags : UInt32) (value : List Byte) : Bool :=
  match FilterType.ofCode type with
  | some type => checkValue type flags value
  | none => checkValue .contains flags value

/-
  `maildir_filter_ruleupdate` up to the first store: the new
  contents of the rule.  The address for automatic replies is
  read through a null pointer, which is `none`.
-/
def RuleArgs.checked (a : RuleArgs) : Option (Except FilterError RuleCell) :=
  if !checkRulename (a.name.getD []) then
    some (.error .badRuleName)
  -- an unknown type only sets `*errcode`, and goes on
  else if !checkHeaderCode a.type a.flags (a.header.getD [])
  then
    some (.error .badRuleHeader)
  else if !checkValueCode a.type a.flags (a.value.getD []) then
    some (.error .badRuleValue)
  else
    match a.fromhdr with
    | none => none
    | some fromhdr =>
      let fromhdr := fromhdr.dropWhile isspace
      if !checkFromhdr fromhdr then
        some (.error .badFromHdr)
      else
        match a.folder with
        | none => some (.error .badRuleFolder)
        | some folder =>
          if !checkFolder folder then
            some (.error .badRuleFolder)
          else
            some (.ok
              { rulename := some (a.name.getD [])
                type := a.type
                flags := a.flags
                fieldname := some (a.header.getD [])
                fieldvalue := some (a.value.getD [])
                tofolder := some (dotFolder folder)
                fromhdr := some fromhdr })

variable {a : RuleArgs}

/- For a known type it is the update of a `Rule`. -/
theorem checked_known {fromhdr : List Byte} (hType : FilterType.ofCode a.type = some type)
    (hFrom : a.fromhdr = some fromhdr) :
    a.checked = some ((ruleupdate a.name type a.flags a.header a.value
        a.folder fromhdr).map Rule.cell) := by
  have hCode := FilterType.code_of_ofCode hType
  simp only [RuleArgs.checked, ruleupdate, checkHeaderCode, checkValueCode, hType, hFrom]
  cases a.folder with
  | none =>
    simp only
    repeat' split
    all_goals rfl
  | some folder =>
    simp only
    repeat' split
    all_goals
      simp only [Except.map, Rule.cell, hCode]

/- Every check but the one on the type lets the rule pass. -/
structure RuleArgs.OthersPass (a : RuleArgs) : Prop where
  rulename : checkRulename (a.name.getD []) = true
  header : checkHeaderCode a.type a.flags (a.header.getD []) = true
  value : checkValueCode a.type a.flags (a.value.getD []) = true
  fromhdr : ∃ fromhdr, a.fromhdr = some fromhdr ∧ checkFromhdr (fromhdr.dropWhile isspace) = true
  folder : ∃ folder, a.folder = some folder ∧ checkFolder folder = true

theorem RuleArgs.OthersPass.checked (hPass : a.OthersPass) :
    ∃ cell, a.checked = some (.ok cell) := by
  rcases hPass.fromhdr with ⟨fromhdr, hFrom, hFromFine⟩
  rcases hPass.folder with ⟨folder, hFolder, hFolderFine⟩
  unfold RuleArgs.checked
  rw [hPass.rulename, hPass.header, hPass.value, hFrom, hFolder]
  simp [hFromFine, hFolderFine]

variable {cell : RuleCell}

theorem checked_othersPass (hChecked : a.checked = some (.ok cell)) : a.OthersPass := by
  unfold RuleArgs.checked at hChecked
  split at hChecked
  · cases hChecked
  rename_i hName
  split at hChecked
  · cases hChecked
  rename_i hHeader
  split at hChecked
  · cases hChecked
  rename_i hValue
  cases hFrom : a.fromhdr with
  | none =>
    rw [hFrom] at hChecked
    cases hChecked
  | some fromhdr =>
    rw [hFrom] at hChecked
    simp only at hChecked
    split at hChecked
    · cases hChecked
    rename_i hFromFine
    cases hFolder : a.folder with
    | none =>
      rw [hFolder] at hChecked
      cases hChecked
    | some folder =>
      rw [hFolder] at hChecked
      simp only at hChecked
      split at hChecked
      · cases hChecked
      rename_i hFolderFine
      simp only [Bool.not_eq_true', Bool.not_eq_false] at hName hHeader hValue hFromFine hFolderFine
      exact ⟨hName, hHeader, hValue, ⟨fromhdr, hFrom, hFromFine⟩, ⟨folder, hFolder, hFolderFine⟩⟩

theorem checked_type (hChecked : a.checked = some (.ok cell)) : cell.type = a.type := by
  have hPass := checked_othersPass hChecked
  rcases hPass.fromhdr with ⟨fromhdr, hFrom, hFromFine⟩
  rcases hPass.folder with ⟨folder, hFolder, hFolderFine⟩
  simp [RuleArgs.checked, hPass.rulename, hPass.header,
    hPass.value, hFrom, hFromFine, hFolder, hFolderFine]
    at hChecked
  rw [← hChecked]

/- What is stored for a known type is a valid rule. -/
theorem checked_valid (hType : FilterType.ofCode a.type = some type)
    (hChecked : a.checked = some (.ok cell)) : ∃ p : Rule, cell = p.cell ∧ p.Valid := by
  rcases (checked_othersPass hChecked).fromhdr with ⟨fromhdr, hFrom, _⟩
  rw [checked_known hType hFrom] at hChecked
  have hMapped := Option.some.inj hChecked
  cases hUpdate : ruleupdate a.name type a.flags a.header a.value a.folder fromhdr with
  | error errcode =>
    rw [hUpdate] at hMapped
    cases hMapped
  | ok p =>
    rw [hUpdate] at hMapped
    have hCell : p.cell = cell := Except.ok.inj hMapped
    rcases ruleupdate_ok hUpdate with ⟨_, _, _, _, _, _, _, hStored⟩
    refine ⟨p, hCell.symm, Accepted.valid ⟨[], a.name, a.header, a.value, a.folder, fromhdr, ?_⟩⟩
    have hSame : p.type = type ∧ p.flags = a.flags := by
      rw [hStored]
      exact ⟨rfl, rfl⟩
    unfold appendrule
    rw [hSame.1, hSame.2, hUpdate]

/- `struct maildirfilter`, with the addresses of its rules. -/
abbrev Filter : Type :=
  DoublyLinked Nat RuleCell

/-
  `maildir_filter_ruleupdate`: the code, if it fails, and the
  filter afterwards.
-/
def Filter.ruleupdate (r : Filter) (p : Nat) (a : RuleArgs) :
    Option (Option FilterError × Filter) :=
  match a.checked with
  | none => none
  | some (.error errcode) => some (some errcode, r)
  | some (.ok cell) => some (none, r.setData p (some cell))

/- `maildir_filter_ruledel`. -/
def Filter.ruledel (r : Filter) (p : Nat) : Filter :=
  r.unlink p

/- `maildir_filter_appendrule`; `malloc` returns `p`. -/
def Filter.appendrule (r : Filter) (p : Nat) (a : RuleArgs) :
    Option (Option FilterError × Filter) :=
  let r : Filter := r.linkLast p RuleCell.zero
  match r.ruleupdate p a with
  | none => none
  | some (some errcode, r) => some (some errcode, r.ruledel p)
  | some (none, r) => some (none, r)

/- `maildir_filter_ruleup`. -/
def Filter.ruleup (r : Filter) (p : Nat) : Filter :=
  r.raise p

/- `maildir_filter_ruledown`. -/
def Filter.ruledown (r : Filter) (p : Nat) : Filter :=
  r.lower p

------------
-- Refused Rules
------------

/-
  What an update is to have done: a code leaves the filter
  alone, and no code means that a valid rule is stored.
-/
structure Filter.UpdateFine (r r' : Filter) (p : Nat) (code : Option FilterError) : Prop where
  refused : code ≠ none → r' = r
  accepted : code = none → ∃ rule : Rule, r'.data p = some rule.cell ∧ rule.Valid

/- `maildir_filter_ruleupdate` ends as it is to. -/
def Filter.UpdateAtomic (r : Filter) (p : Nat) (a : RuleArgs) : Prop :=
  ∀ code r', r.ruleupdate p a = some (code, r') → r.UpdateFine r' p code

/- `maildir_filter_appendrule` ends as it is to. -/
def Filter.AppendAtomic (r : Filter) (p : Nat) (a : RuleArgs) : Prop :=
  ∀ code r', r.appendrule p a = some (code, r') → r.UpdateFine r' p code

variable {r r' : Filter} {p : Nat}

/- A rule that is refused is as it was. -/
theorem ruleupdate_refused {errcode : FilterError}
    (hUpdate : r.ruleupdate p a = some (some errcode, r')) : r' = r := by
  unfold Filter.ruleupdate at hUpdate
  split at hUpdate
  · cases hUpdate
  · cases hUpdate
    rfl
  · cases hUpdate

/- A rule that was checked is stored. -/
theorem ruleupdate_checked (hChecked : a.checked = some (.ok cell)) (r : Filter) (p : Nat) :
    r.ruleupdate p a = some (none, r.setData p (some cell)) := by
  unfold Filter.ruleupdate
  rw [hChecked]

/- A rule that is stored was checked. -/
theorem ruleupdate_stored (hUpdate : r.ruleupdate p a = some (none, r')) :
    ∃ cell, a.checked = some (.ok cell) ∧ r' = r.setData p (some cell) := by
  unfold Filter.ruleupdate at hUpdate
  split at hUpdate
  · cases hUpdate
  · cases hUpdate
  · rename_i cell hChecked
    cases hUpdate
    exact ⟨cell, hChecked, rfl⟩

/- A rule that is accepted stays where it was linked. -/
theorem appendrule_stored {a : RuleArgs} : r.appendrule p a = some (none, r') ↔
      Filter.ruleupdate (r.linkLast p RuleCell.zero) p a = some (none, r') := by
  cases hUpdate : Filter.ruleupdate (r.linkLast p RuleCell.zero) p a with
  | none => simp only [Filter.appendrule, hUpdate]
  | some result =>
    rcases result with ⟨code, stored⟩
    cases code with
    | none => simp only [Filter.appendrule, hUpdate]
    | some errcode =>
      simp only [Filter.appendrule, hUpdate]
      constructor
      · exact nofun
      · exact nofun

variable {l : List Nat}

/- A rule that is refused is not in the list any more. -/
theorem appendrule_refused (hList : r.Represents l) (hNew : p ∉ l) {errcode : FilterError}
    (hAppend : r.appendrule p a = some (some errcode, r')) : r' = r := by
  cases hUpdate : Filter.ruleupdate (r.linkLast p RuleCell.zero) p a with
  | none =>
    simp only [Filter.appendrule, hUpdate] at hAppend
    cases hAppend
  | some result =>
    rcases result with ⟨code, stored⟩
    simp only [Filter.appendrule, hUpdate] at hAppend
    cases code with
    | none => cases hAppend
    | some code =>
      cases hAppend
      rw [ruleupdate_refused hUpdate]
      exact hList.unlink_linkLast hNew RuleCell.zero

/-
  An update that is not refused is fine for a known type, and
  never for another one.
-/
theorem stored_valid_iff (hUpdate : r.ruleupdate p a = some (none, r')) :
    (∃ rule : Rule, r'.data p = some rule.cell ∧ rule.Valid) ↔
      FilterType.ofCode a.type ≠ none := by
  rcases ruleupdate_stored hUpdate with ⟨cell, hChecked, hData⟩
  have hCell : r'.data p = some cell := by rw [hData, DoublyLinked.data_setData, if_pos rfl]
  constructor
  · rintro ⟨rule, hStored, _⟩ hType
    have hSame : rule.cell = cell := Option.some.inj (hStored.symm.trans hCell)
    have hCode : rule.type.code = a.type := by
      rw [← checked_type hChecked, ← hSame]
      rfl
    have hKnown := FilterType.ofCode_code rule.type
    rw [hCode, hType] at hKnown
    cases hKnown
  · intro hType
    rcases Option.ne_none_iff_exists'.mp hType with ⟨type, hSome⟩
    rcases checked_valid hSome hChecked with ⟨rule, hSame, hValid⟩
    exact ⟨rule, hSame ▸ hCell, hValid⟩

/-
  The updates of a rule in the list and of a new one are safe
  for the known types, and when a rule of no type is refused
  for another reason.
-/
theorem filter_atomic_iff {r : Filter} {l : List Nat} (hList : r.Represents l) (p : Nat)
    {q : Nat} (hNew : q ∉ l) (a : RuleArgs) :
    (r.UpdateAtomic p a ↔ (FilterType.ofCode a.type ≠ none ∨ ¬a.OthersPass)) ∧
    (r.AppendAtomic q a ↔ (FilterType.ofCode a.type ≠ none ∨ ¬a.OthersPass)) := by
  -- what is not refused was known or would have been refused
  have hStored : ∀ {s s' : Filter} {k : Nat}, (FilterType.ofCode a.type ≠ none ∨ ¬a.OthersPass) →
        s.ruleupdate k a = some (none, s') → ∃ rule : Rule,
            s'.data k = some rule.cell ∧ rule.Valid := by
    rintro s s' k (hType | hPass) hUpdate
    · exact (stored_valid_iff hUpdate).mpr hType
    · rcases ruleupdate_stored hUpdate with ⟨cell, hChecked, _⟩
      exact absurd (checked_othersPass hChecked) hPass
  have hUnknown : ∀ (s : Filter) (k : Nat), ¬(FilterType.ofCode a.type ≠ none ∨ ¬a.OthersPass) →
        ∃ s', s.ruleupdate k a = some (none, s') ∧ ¬∃ rule : Rule,
            s'.data k = some rule.cell ∧ rule.Valid := by
    intro s k hNot
    rw [not_or, not_not, not_not] at hNot
    rcases hNot.2.checked with ⟨cell, hChecked⟩
    have hUpdate := ruleupdate_checked hChecked s k
    refine ⟨_, hUpdate, fun hRule => ?_⟩
    exact (stored_valid_iff hUpdate).mp hRule hNot.1
  constructor
  · constructor
    · intro hFine
      by_contra hNot
      rcases hUnknown r p hNot with ⟨r', hUpdate, hBad⟩
      exact hBad ((hFine none r' hUpdate).accepted rfl)
    · intro hCond code r' hUpdate
      cases code with
      | some errcode => exact ⟨fun _ => ruleupdate_refused hUpdate, nofun⟩
      | none => exact ⟨fun hCode => absurd rfl hCode, fun _ => hStored hCond hUpdate⟩
  · constructor
    · intro hFine
      by_contra hNot
      rcases hUnknown (r.linkLast q RuleCell.zero) q hNot with ⟨r', hUpdate, hBad⟩
      have hAppend := appendrule_stored.mpr hUpdate
      exact hBad ((hFine none r' hAppend).accepted rfl)
    · intro hCond code r' hAppend
      cases code with
      | some errcode => exact ⟨fun _ => appendrule_refused hList hNew hAppend, nofun⟩
      | none =>
        exact ⟨fun hCode => absurd rfl hCode, fun _ =>
          hStored hCond (appendrule_stored.mp hAppend)⟩

/- A rule whose type is the first number behind the types. -/
def strangerArgs : RuleArgs where
  name := some (bytes "r")
  type := 7
  flags := MFR_PLAINSTRING
  header := some (bytes "Subject")
  value := some (bytes "x")
  folder := some (bytes "Junk")
  fromhdr := some []

theorem filter_atomic_stranger : (Filter.UpdateAtomic .empty 1 strangerArgs ↔
      (FilterType.ofCode 7 ≠ none ∨ ¬strangerArgs.OthersPass)) ∧
    (Filter.AppendAtomic .empty 2 strangerArgs ↔
      (FilterType.ofCode 7 ≠ none ∨ ¬strangerArgs.OthersPass)) :=
  filter_atomic_iff DoublyLinked.empty_represents 1 List.not_mem_nil strangerArgs

/- It is stored in a filter that had no rule. -/
theorem not_filter_atomic : ¬Filter.AppendAtomic .empty 1 strangerArgs := by
  intro hFine
  have hPass : strangerArgs.OthersPass :=
    ⟨by decide, by decide, by decide, ⟨[], rfl, by decide⟩, ⟨bytes "Junk", rfl, by decide⟩⟩
  rcases hPass.checked with ⟨cell, hChecked⟩
  have hLinked := ruleupdate_checked hChecked (DoublyLinked.linkLast .empty 1 RuleCell.zero) 1
  have hStored := hFine none _ (appendrule_stored.mpr hLinked)
  exact (stored_valid_iff hLinked).mp (hStored.accepted rfl) rfl

------------
-- Sequences of Operations
------------

/- Whether a new rule with these arguments is stored. -/
def RuleArgs.accepted (a : RuleArgs) : Bool :=
  match a.checked with
  | some (.ok _) => true
  | _ => false

/- What is called for a filter and one of its rules. -/
inductive FilterOp where
  | append (p : Nat) (a : RuleArgs)
  | update (p : Nat) (a : RuleArgs)
  | up (p : Nat)
  | down (p : Nat)
  | delete (p : Nat)

/-
  A call on a rule of the filter, or with an address that no
  rule has; there is no other step.
-/
def Filter.step (r : Filter) : FilterOp → Option Filter
  | .append p a =>
    if (r.data p).isSome then none else (r.appendrule p a).map Prod.snd
  | .update p a =>
    if (r.data p).isSome then (r.ruleupdate p a).map Prod.snd else none
  | .up p => if (r.data p).isSome then some (r.ruleup p) else none
  | .down p => if (r.data p).isSome then some (r.ruledown p) else none
  | .delete p => if (r.data p).isSome then some (r.ruledel p) else none

def Filter.run (ops : List FilterOp) : Option Filter :=
  ops.foldlM Filter.step .empty

/- A rule goes in front of the one before it. -/
def moveUp (p : Nat) : List Nat → List Nat
  | q :: k :: rest =>
    if k = p then k :: q :: rest else q :: moveUp p (k :: rest)
  | l => l

/- A rule goes behind the one after it. -/
def moveDown (p : Nat) : List Nat → List Nat
  | k :: q :: rest =>
    if k = p then q :: k :: rest else k :: moveDown p (q :: rest)
  | l => l

/- The order of the rules after a call. -/
def orderStep (l : List Nat) : FilterOp → List Nat
  | .append p a => if a.accepted then l ++ [p] else l
  | .update _ _ => l
  | .up p => moveUp p l
  | .down p => moveDown p l
  | .delete p => l.erase p

/- The rule was appended and not deleted since then. -/
def Kept (ops : List FilterOp) (p : Nat) : Prop :=
  ∃ before a after, ops = before ++ .append p a :: after ∧
      a.accepted = true ∧ FilterOp.delete p ∉ after

theorem moveUp_split (front : List Nat) {p q : Nat} (back : List Nat) (hFront : p ∉ front)
    (hOther : q ≠ p) : moveUp p (front ++ q :: p :: back) = front ++ p :: q :: back := by
  induction front with
  | nil => exact if_pos rfl
  | cons i rest ih =>
    rw [List.mem_cons, not_or] at hFront
    rcases hFront with ⟨_, hRest⟩
    cases rest with
    | nil => exact (if_neg hOther).trans (congrArg (i :: ·) (ih hRest))
    | cons j more =>
      have hNext : j ≠ p := fun hSame => hRest (hSame ▸ List.mem_cons_self)
      exact (if_neg hNext).trans (congrArg (i :: ·) (ih hRest))

/- Where no rule stands before it, nothing is moved. -/
theorem moveUp_head (back : List Nat) (hBack : p ∉ back) : moveUp p (p :: back) = p :: back := by
  have hTail : ∀ (l : List Nat), p ∉ l → ∀ q, moveUp p (q :: l) = q :: l := by
    intro l
    induction l with
    | nil => exact fun _ _ => rfl
    | cons k rest ih =>
      intro hOut q
      rw [List.mem_cons, not_or] at hOut
      rcases hOut with ⟨hOther, hRest⟩
      exact (if_neg (Ne.symm hOther)).trans (congrArg (q :: ·) (ih hRest k))
  exact hTail back hBack p

theorem moveDown_split (front : List Nat) {p q : Nat} (back : List Nat) (hFront : p ∉ front) :
    moveDown p (front ++ p :: q :: back) = front ++ q :: p :: back := by
  induction front with
  | nil => exact if_pos rfl
  | cons i rest ih =>
    rw [List.mem_cons, not_or] at hFront
    rcases hFront with ⟨hOther, hRest⟩
    cases rest with
    | nil => exact (if_neg (Ne.symm hOther)).trans (congrArg (i :: ·) (ih hRest))
    | cons j more => exact (if_neg (Ne.symm hOther)).trans (congrArg (i :: ·) (ih hRest))

theorem moveDown_last (front : List Nat) (hFront : p ∉ front) :
    moveDown p (front ++ [p]) = front ++ [p] := by
  induction front with
  | nil => rfl
  | cons i rest ih =>
    rw [List.mem_cons, not_or] at hFront
    rcases hFront with ⟨hOther, hRest⟩
    cases rest with
    | nil => exact (if_neg (Ne.symm hOther)).trans (congrArg (i :: ·) (ih hRest))
    | cons j more => exact (if_neg (Ne.symm hOther)).trans (congrArg (i :: ·) (ih hRest))

/- A rule is where its data is. -/
theorem mem_of_data {r : Filter} (hList : r.Represents l)
    (hData : (r.data p).isSome = true) : p ∈ l := by
  by_contra hOut
  rw [(hList.outside p hOut).2.2] at hData
  cases hData

theorem ruleup_represents {r : Filter} (hList : r.Represents l) (hMem : p ∈ l) :
    (r.ruleup p).Represents (moveUp p l) := by
  rcases List.append_of_mem hMem with ⟨front, back, rfl⟩
  have hNodup := hList.nodup
  rcases List.eq_nil_or_concat' front with rfl | ⟨more, q, rfl⟩
  · have hHead := moveUp_head back (List.nodup_cons.mp hNodup).1
    have hSame : r.ruleup p = r := hList.raise_first
    rw [List.nil_append, hHead, hSame]
    exact hList
  · rw [List.append_assoc] at hNodup hList ⊢
    have hApart := List.nodup_append.mp hNodup
    have hOut : p ∉ more := fun hIn =>
      hApart.2.2 p hIn p (List.mem_cons_of_mem q List.mem_cons_self) rfl
    have hOther : q ≠ p := fun hSame =>
      (List.nodup_cons.mp hApart.2.1).1 (hSame ▸ List.mem_cons_self)
    have hMoved := moveUp_split more back hOut hOther
    rw [List.cons_append, List.nil_append, hMoved]
    exact hList.raise

theorem ruledown_represents {r : Filter} (hList : r.Represents l) (hMem : p ∈ l) :
    (r.ruledown p).Represents (moveDown p l) := by
  rcases List.append_of_mem hMem with ⟨front, back, rfl⟩
  have hOut : p ∉ front := fun hIn =>
    (List.nodup_append.mp hList.nodup).2.2 p hIn p List.mem_cons_self rfl
  cases back with
  | nil =>
    have hSame : r.ruledown p = r := hList.lower_last
    rw [moveDown_last front hOut, hSame]
    exact hList
  | cons q back =>
    rw [moveDown_split front back hOut]
    exact hList.lower

theorem ruledel_represents {r : Filter} (hList : r.Represents l) (hMem : p ∈ l) :
    (r.ruledel p).Represents (l.erase p) := by
  rcases List.append_of_mem hMem with ⟨front, back, rfl⟩
  have hOut : p ∉ front := fun hIn =>
    (List.nodup_append.mp hList.nodup).2.2 p hIn p List.mem_cons_self rfl
  rw [List.erase_append_right _ hOut, List.erase_cons_head]
  exact hList.unlink

theorem ruleupdate_represents (hList : r.Represents l) (hMem : p ∈ l)
    {code : Option FilterError} (hUpdate : r.ruleupdate p a = some (code, r')) :
    r'.Represents l := by
  cases code with
  | some errcode =>
    rw [ruleupdate_refused hUpdate]
    exact hList
  | none =>
    rcases ruleupdate_stored hUpdate with ⟨cell, _, hSet⟩
    rw [hSet]
    exact hList.setData hMem cell

theorem accepted_iff {a : RuleArgs} : a.accepted = true ↔ ∃ cell, a.checked = some (.ok cell) := by
  unfold RuleArgs.accepted
  split
  · rename_i cell hChecked
    exact iff_of_true rfl ⟨cell, hChecked⟩
  · rename_i hNot
    exact iff_of_false nofun fun ⟨cell, hChecked⟩ => hNot cell hChecked

theorem appendrule_represents (hList : r.Represents l) (hNew : p ∉ l)
    {code : Option FilterError} (hAppend : r.appendrule p a = some (code, r')) :
    r'.Represents (if a.accepted then l ++ [p] else l) := by
  cases code with
  | some errcode =>
    rw [if_neg, appendrule_refused hList hNew hAppend]
    · exact hList
    · intro hAccepted
      rcases accepted_iff.mp hAccepted with ⟨cell, hChecked⟩
      have hStored := appendrule_stored.mpr (ruleupdate_checked hChecked
          (r.linkLast p RuleCell.zero) p)
      rw [hAppend] at hStored
      cases hStored
  | none =>
    have hUpdate := appendrule_stored.mp hAppend
    rcases ruleupdate_stored hUpdate with ⟨cell, hChecked, _⟩
    rw [if_pos (accepted_iff.mpr ⟨cell, hChecked⟩)]
    exact ruleupdate_represents (hList.linkLast hNew RuleCell.zero)
      (List.mem_append_right l List.mem_cons_self) hUpdate

/- A call does to the list what it does to the order. -/
theorem Filter.step_represents (hList : r.Represents l) {op : FilterOp}
    (hStep : r.step op = some r') : r'.Represents (orderStep l op) := by
  cases op with
  | append p a =>
    simp only [Filter.step] at hStep
    split at hStep
    · cases hStep
    rename_i hFree
    rcases Option.map_eq_some_iff.mp hStep with ⟨⟨code, stored⟩, hAppend, rfl⟩
    apply appendrule_represents hList _ hAppend
    exact fun hMem => hFree (hList.inside p hMem)
  | update p a =>
    simp only [Filter.step] at hStep
    split at hStep
    · rename_i hData
      rcases Option.map_eq_some_iff.mp hStep with ⟨⟨code, stored⟩, hUpdate, rfl⟩
      exact ruleupdate_represents hList (mem_of_data hList hData) hUpdate
    · cases hStep
  | up p =>
    simp only [Filter.step] at hStep
    split at hStep
    · rename_i hData
      cases hStep
      exact ruleup_represents hList (mem_of_data hList hData)
    · cases hStep
  | down p =>
    simp only [Filter.step] at hStep
    split at hStep
    · rename_i hData
      cases hStep
      exact ruledown_represents hList (mem_of_data hList hData)
    · cases hStep
  | delete p =>
    simp only [Filter.step] at hStep
    split at hStep
    · rename_i hData
      cases hStep
      exact ruledel_represents hList (mem_of_data hList hData)
    · cases hStep

theorem moveUp_perm (p : Nat) (l : List Nat) : (moveUp p l).Perm l := by
  fun_induction moveUp p l with
  | case1 q rest => exact List.Perm.swap q p rest
  | case2 q k rest hOther ih => exact ih.cons q
  | case3 l hShort => exact List.Perm.refl l

theorem moveDown_perm (p : Nat) (l : List Nat) : (moveDown p l).Perm l := by
  fun_induction moveDown p l with
  | case1 q rest => exact List.Perm.swap p q rest
  | case2 k q rest hOther ih => exact ih.cons k
  | case3 l hShort => exact List.Perm.refl l

/- What one more call does to the rules that are kept. -/
theorem kept_append (ops : List FilterOp) (op : FilterOp) (p : Nat) :
    Kept (ops ++ [op]) p ↔ (Kept ops p ∧ op ≠ .delete p) ∨
        ∃ a, op = .append p a ∧ a.accepted = true := by
  constructor
  · rintro ⟨before, a, after, hSplit, hAccepted, hNot⟩
    rcases List.eq_nil_or_concat' after with rfl | ⟨after, last, rfl⟩
    · have hLast := (List.append_inj' hSplit rfl).2
      exact Or.inr ⟨a, List.head_eq_of_cons_eq hLast, hAccepted⟩
    · rw [← List.cons_append, ← List.append_assoc] at hSplit
      have hParts := List.append_inj' hSplit rfl
      have hLast := List.head_eq_of_cons_eq hParts.2
      refine Or.inl ⟨⟨before, a, after, hParts.1, hAccepted,
        fun hMem => hNot (List.mem_append_left _ hMem)⟩, ?_⟩
      rintro rfl
      exact hNot (hLast ▸ List.mem_append_right after List.mem_cons_self)
  · rintro (⟨⟨before, a, after, rfl, hAccepted, hNot⟩, hOp⟩ | ⟨a, rfl, hAccepted⟩)
    · refine ⟨before, a, after ++ [op], by simp, hAccepted, ?_⟩
      intro hMem
      rcases List.mem_append.mp hMem with hOld | hNew
      · exact hNot hOld
      · exact hOp (List.mem_singleton.mp hNew).symm
    · exact ⟨ops, a, [], rfl, hAccepted, List.not_mem_nil⟩

theorem mem_orderStep (hNodup : l.Nodup) (op : FilterOp) (p : Nat) :
    p ∈ orderStep l op ↔ (p ∈ l ∧ op ≠ .delete p) ∨ ∃ a, op = .append p a ∧ a.accepted = true := by
  cases op with
  | append q a =>
    simp only [orderStep]
    split
    · rename_i hAccepted
      simp only [List.mem_append, List.mem_singleton, ne_eq, reduceCtorEq, not_false_eq_true,
        and_true, FilterOp.append.injEq]
      constructor
      · rintro (hOld | rfl)
        · exact Or.inl hOld
        · exact Or.inr ⟨a, ⟨rfl, rfl⟩, hAccepted⟩
      · rintro (hOld | ⟨_, ⟨rfl, rfl⟩, _⟩)
        · exact Or.inl hOld
        · exact Or.inr rfl
    · rename_i hRefused
      simp only [ne_eq, reduceCtorEq, not_false_eq_true, and_true, FilterOp.append.injEq]
      constructor
      · exact Or.inl
      · rintro (hOld | ⟨_, ⟨rfl, rfl⟩, hAccepted⟩)
        · exact hOld
        · exact absurd hAccepted hRefused
  | update q a => simp [orderStep]
  | up q => simp [orderStep, (moveUp_perm q l).mem_iff]
  | down q => simp [orderStep, (moveDown_perm q l).mem_iff]
  | delete q =>
    simp only [orderStep, hNodup.mem_erase_iff, ne_eq, FilterOp.delete.injEq, reduceCtorEq,
      false_and, exists_false, or_false]
    rw [and_comm, eq_comm (a := p)]

/- The rules in their order, after any sequence of calls. -/
theorem Filter.run_represents {ops : List FilterOp} {r : Filter}
    (hRun : Filter.run ops = some r) :
    r.Represents (ops.foldl orderStep []) ∧ ∀ p, p ∈ ops.foldl orderStep [] ↔ Kept ops p := by
  induction ops using List.reverseRecOn generalizing r with
  | nil =>
    cases hRun
    refine ⟨DoublyLinked.empty_represents, fun p => ?_⟩
    refine iff_of_false List.not_mem_nil ?_
    rintro ⟨before, a, after, hSplit, _⟩
    exact absurd hSplit.symm (by simp)
  | append_singleton ops op ih =>
    unfold Filter.run at hRun
    rw [List.foldlM_append] at hRun
    rcases Option.bind_eq_some_iff.mp hRun with ⟨before, hBefore, hLast⟩
    have hStep : before.step op = some r := by simpa using hLast
    rcases ih hBefore with ⟨hList, hKept⟩
    rw [List.foldl_append]
    refine ⟨Filter.step_represents hList hStep, fun p => ?_⟩
    rw [kept_append, ← hKept p]
    exact mem_orderStep hList.nodup op p

/-
  After any sequence of calls the links are those of a list of
  the rules that are kept.  Moving a rule exchanges it with
  its neighbour, does nothing at an end, and is undone by
  moving it back.
-/
theorem filter_run_represents {ops : List FilterOp} {r : Filter}
    (hRun : Filter.run ops = some r) :
    ∃ l, r.Represents l ∧ (∀ p, p ∈ l ↔ Kept ops p) ∧
      (∀ front q p back, l = front ++ q :: p :: back →
        (r.ruleup p).Represents (front ++ p :: q :: back) ∧
        (r.ruledown q).Represents (front ++ p :: q :: back) ∧
        (r.ruleup p).ruledown p = r ∧
        (r.ruledown q).ruleup q = r) ∧
      (∀ p, l.head? = some p → r.ruleup p = r) ∧
      (∀ p, l.getLast? = some p → r.ruledown p = r) := by
  rcases Filter.run_represents hRun with ⟨hList, hKept⟩
  refine ⟨_, hList, hKept, ?_, ?_, ?_⟩
  · intro front q p back hSplit
    rw [hSplit] at hList
    exact ⟨hList.raise, hList.lower, hList.lower_raise, hList.raise_lower⟩
  · intro p hHead
    rcases List.head?_eq_some_iff.mp hHead with ⟨back, hSplit⟩
    rw [hSplit] at hList
    exact hList.raise_first
  · intro p hLast
    rcases List.getLast?_eq_some_iff.mp hLast with ⟨front, hSplit⟩
    rw [hSplit] at hList
    exact hList.lower_last

/- Two rules, of which the second is moved up. -/
theorem filter_run_two : ∃ r, Filter.run
        [.append 1 { strangerArgs with type := 2 },
          .append 2 { strangerArgs with type := 5 },
          .up 2, .delete 1] = some r ∧
      ∃ l, r.Represents l ∧ (∀ p, p ∈ l ↔ Kept
          [.append 1 { strangerArgs with type := 2 },
            .append 2 { strangerArgs with type := 5 },
            .up 2, .delete 1] p) ∧
        (∀ front q p back, l = front ++ q :: p :: back →
          (r.ruleup p).Represents (front ++ p :: q :: back) ∧
          (r.ruledown q).Represents
            (front ++ p :: q :: back) ∧
          (r.ruleup p).ruledown p = r ∧
          (r.ruledown q).ruleup q = r) ∧
        (∀ p, l.head? = some p → r.ruleup p = r) ∧
        (∀ p, l.getLast? = some p → r.ruledown p = r) := by
  have hSome : (Filter.run
      [.append 1 { strangerArgs with type := 2 },
        .append 2 { strangerArgs with type := 5 },
        .up 2, .delete 1]).isSome = true := by
    decide
  rcases Option.isSome_iff_exists.mp hSome with ⟨r, hRun⟩
  exact ⟨r, hRun, filter_run_represents hRun⟩

end Wmail.Maildir
