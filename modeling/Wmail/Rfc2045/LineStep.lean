import Wmail.Rfc2045.PartTree

/-
  What the processing of one line does to the tree of parts.

  Key theorems include:
    * `locate_found`
    * `locate_congr`
-/

namespace Wmail.Rfc2045

open Links

/- The same links, and the same places in the message. -/
abbrev SamePlaces (s t : St) : Prop :=
  Keeps (fun p => (p.toPartLinks, p.toPartCounts)) s t

namespace Keeps

theorem toSameLinks {s t : St} (hSame : SamePlaces s t) : SameLinks s t :=
  hSame.map Prod.fst

theorem counts {s t : St} (hSame : SamePlaces s t) (k : Nat) :
    (t.part k).toPartCounts = (s.part k).toPartCounts :=
  congrArg Prod.snd (hSame.same k)

variable {α : Type} {v : Part → α}

/- A step keeps every view that ignores what it sets. -/
theorem updateCounts (s : St) (i newcnt newendcnt nlines : Nat)
    (hCounts : ∀ p counts, v { p with toPartCounts := counts } = v p) :
    Keeps v s (updateCounts s i newcnt newendcnt nlines) :=
  setUpward s i fun p => hCounts p (p.count newcnt newendcnt nlines).toPartCounts

theorem sectionContents (s : St) (c : List Byte)
    (hScan : ∀ p scan, v { p with toPartScan := scan } = v p) :
    Keeps v s (sectionContents s c) := by
  unfold Rfc2045.sectionContents
  rcases s.rfc2045acptr with _ | ⟨_ | i, pos, state, char⟩
  · exact refl s
  · exact refl s
  · have hStore : ∀ (r : Scan) (p : Part), v (r.store p) = v p := by
      intro r p
      exact hScan p (r.store p).toPartScan
    exact (setPart s i (hStore _)).trans (of_parts_eq rfl)

theorem startSection (s : St) (p : Nat) : Keeps v s (startSection s p) :=
  of_parts_eq rfl

theorem dolineDoHeader (s : St) (p : Nat)
    (hInfo : ∀ p info, v { p with toMimeInfo := info } = v p)
    (hViolation : ∀ p flags, v { p with rfcviolation := flags } = v p) :
    Keeps v s (dolineDoHeader s p) := by
  unfold Rfc2045.dolineDoHeader
  simp only []
  split
  · refine trans (setPart s p ?_) (setPart _ 0 ?_)
    · exact fun q => hInfo q _
    · exact fun q => hViolation q _
  · exact setPart s p fun q => hInfo q _

theorem flagContent (s : St) (bit8 : Bool) (p : Nat)
    (hViolation : ∀ p flags, v { p with rfcviolation := flags } = v p) :
    Keeps v s (flagContent s bit8 p) := by
  unfold Rfc2045.flagContent
  split
  · exact setUpward s p fun q => hViolation q _
  · exact refl s

theorem flagHeader (s : St) (bit8 : Bool) (p : Nat)
    (hViolation : ∀ p flags, v { p with rfcviolation := flags } = v p) :
    Keeps v s (flagHeader s bit8 p) := by
  unfold Rfc2045.flagHeader
  split
  · exact setUpward s p fun q => hViolation q _
  · exact refl s

theorem scanBody (s : St) (c : List Byte) (p : Nat)
    (hScan : ∀ p scan, v { p with toPartScan := scan } = v p) : Keeps v s (scanBody s c p) := by
  unfold Rfc2045.scanBody
  split
  · exact refl s
  · exact sectionContents s c hScan

theorem scanPartial (s : St) (p l : Nat)
    (hScan : ∀ p scan, v { p with toPartScan := scan } = v p) :
    Keeps v s (scanPartial s p l) := by
  unfold Rfc2045.scanPartial
  split
  · exact sectionContents s _ hScan
  · exact refl s

theorem collectHeader (s : St) (c : List Byte) (p : Nat)
    (hInfo : ∀ p info, v { p with toMimeInfo := info } = v p)
    (hViolation : ∀ p flags, v { p with rfcviolation := flags } = v p)
    (hHeader : ∀ p line, v { p with header := line } = v p) :
    Keeps v s (collectHeader s c p) := by
  unfold Rfc2045.collectHeader
  simp only []
  split
  · exact setPart s p fun q => hHeader q _
  · exact (dolineDoHeader s p hInfo hViolation).trans (setPart _ p fun q => hHeader q _)

theorem start (s : St) (hFlag : ∀ p flag, v { p with informdata := flag } = v p) :
    Keeps v s s.start.1 := by
  unfold St.start
  rcases lookAhead s s.openPath with _ | _ | ⟨p, rest⟩
  · exact refl s
  · exact refl s
  · exact setPart s p fun q => hFlag q _

theorem parsePartial (s : St) (hCounts : ∀ p counts, v { p with toPartCounts := counts } = v p)
    (hScan : ∀ p scan, v { p with toPartScan := scan } = v p)
    (hFlag : ∀ p flag, v { p with informdata := flag } = v p) :
    Keeps v s (parsePartial s) := by
  unfold Rfc2045.parsePartial
  split
  · exact refl s
  · exact (scanPartial s _ _ hScan).trans ((updateCounts _ _ _ _ 0 hCounts).trans
        ((setPart _ _ fun q => hFlag q true).trans (of_parts_eq rfl)))

end Keeps

/- A boundary line keeps what no new part and no count changes. -/
theorem agree_append {α : Type} {v : Part → α} {s : St} {p : Nat}
    (hLess : p < s.parts.length) (startpos : Nat) (hNew : v (newPart s p startpos) = v Part.alloc)
    (hLinks : ∀ q links, v { q with toPartLinks := links } = v q) (k : Nat) :
    v ((appendPartNoinherit s p startpos).part k) = v (s.part k) := by
  rw [part_appendPartNoinherit hLess]
  by_cases hFresh : k = s.parts.length
  · rw [if_pos hFresh, hNew, St.part_of_length_le (Nat.le_of_eq hFresh.symm)]
  · rw [if_neg hFresh]
    split
    · exact hLinks (s.part k)
        { (s.part k).toPartLinks with
            lastpart := some s.parts.length }
    · rfl

theorem parent_append {s : St} {p : Nat} (hLess : p < s.parts.length) (startpos : Nat)
    {k : Nat} (hOld : k < s.parts.length) :
    ((appendPartNoinherit s p startpos).part k).parent = (s.part k).parent := by
  rw [part_appendPartNoinherit hLess, if_neg (Nat.ne_of_lt hOld)]
  split <;> rfl

theorem links_dolineLeftover (s : St) (c : List Byte) (p : Nat) :
    SameLinks s (dolineLeftover s c p) :=
  Keeps.updateCounts s p _ _ 1 fun _ _ => rfl

theorem links_dolineBody (s : St) (c : List Byte) (bit8 : Bool) (p : Nat) :
    SameLinks s (dolineBody s c bit8 p) := by
  refine (Keeps.flagContent s bit8 p ?_).trans ((Keeps.scanBody _ c p ?_).trans
      (Keeps.updateCounts _ p _ _ 1 ?_))
  all_goals exact fun _ _ => rfl

theorem links_dolineHeader (s : St) (c : List Byte) (p : Nat) :
    SameLinks s (dolineHeader s c p) := by
  refine (Keeps.updateCounts s p _ _ 1 ?_).trans (Keeps.collectHeader _ c p ?_ ?_ ?_)
  all_goals exact fun _ _ => rfl

/- The links of a part whose body starts. -/
theorem links_startBody (s : St) (c : List Byte) (p : Nat) : SameLinks s (startBody s c p) := by
  refine (Keeps.setPart s p ?_).trans ((Keeps.updateCounts _ p _ _ 1 ?_).trans
      (Keeps.setPart _ p ?_))
  · exact fun _ => rfl
  · exact fun _ _ => rfl
  · exact fun _ => rfl

/-
  The look-ahead clears a flag, and goes on from some part of
  the open path.
-/
theorem lookAhead_suffix (s : St) {path tail : List Nat}
    (hAhead : lookAhead s path = some tail) : tail <:+ path ∧ tail ≠ [] := by
  induction path with
  | nil => cases hAhead
  | cons newp rest ih =>
    cases rest with
    | nil => cases hAhead
    | cons last others =>
      unfold lookAhead at hAhead
      split at hAhead
      · rcases ih hAhead with ⟨hSuffix, hNe⟩
        exact ⟨hSuffix.trans (List.suffix_cons _ _), hNe⟩
      · split at hAhead
        · cases hAhead
          exact ⟨List.suffix_cons _ _, List.cons_ne_nil _ _⟩
        · rcases ih hAhead with ⟨hSuffix, hNe⟩
          exact ⟨hSuffix.trans (List.suffix_cons _ _), hNe⟩

theorem start_path (s : St) (hPath : s.openPath ≠ []) :
    s.start.2 <:+ s.openPath ∧ s.start.2 ≠ [] := by
  unfold St.start
  cases hAhead : lookAhead s s.openPath with
  | none => exact ⟨List.suffix_refl _, hPath⟩
  | some tail =>
    have hSuffix := lookAhead_suffix s hAhead
    cases tail with
    | nil => exact ⟨List.suffix_refl _, hPath⟩
    | cons p rest => exact hSuffix

/- What the drill down finds on a path. -/
def Found (s : St) (c : List Byte) (path : List Nat) : Place → Prop
  | .leftover p =>
    (∃ front, path = front ++ [p]) ∧ (s.part p).lastpart ≠ none
  | .section p =>
    (∃ front, path = front ++ [p]) ∧ (s.part p).lastpart = none
  | .boundary p last final =>
    (∃ front back, path = front ++ p :: last :: back) ∧
      (∃ cb, (s.part p).boundary = some cb ∧
        isBoundary cb c ∧ final = isLastBoundary cb c) ∧
        (s.part p).workinheader = false

theorem Found.cons {s : St} {c : List Byte} {path : List Nat} {place : Place}
    (hFound : Found s c path place) (p : Nat) : Found s c (p :: path) place := by
  cases place with
  | leftover q =>
    rcases hFound with ⟨⟨front, rfl⟩, hRest⟩
    exact ⟨⟨p :: front, rfl⟩, hRest⟩
  | boundary q last final =>
    rcases hFound with ⟨⟨front, back, rfl⟩, hRest⟩
    exact ⟨⟨p :: front, back, rfl⟩, hRest⟩
  | «section» q =>
    rcases hFound with ⟨⟨front, rfl⟩, hRest⟩
    exact ⟨⟨p :: front, rfl⟩, hRest⟩

theorem Found.of_suffix {s : St} {c : List Byte} {path tail : List Nat} {place : Place}
    (hFound : Found s c tail place) (hSuffix : tail <:+ path) : Found s c path place := by
  rcases hSuffix with ⟨front, rfl⟩
  induction front with
  | nil => exact hFound
  | cons p rest ih => exact ih.cons p

theorem locate_found (s : St) (c : List Byte) {path : List Nat} (hPath : path ≠ []) :
    Found s c path (locate s c path) := by
  induction path with
  | nil => exact absurd rfl hPath
  | cons p rest ih =>
    cases rest with
    | nil =>
      unfold locate
      cases hLast : (s.part p).lastpart with
      | none => exact ⟨⟨[], rfl⟩, hLast⟩
      | some last =>
        refine ⟨⟨[], rfl⟩, ?_⟩
        rw [hLast]
        exact Option.some_ne_none last
    | cons last others =>
      have hRest := (ih (List.cons_ne_nil _ _)).cons p
      unfold locate
      cases hBoundary : (s.part p).boundary with
      | none => exact hRest
      | some cb =>
        simp only []
        split
        · rename_i hMatch
          exact ⟨⟨[], others, rfl⟩, ⟨cb, hBoundary, hMatch.2, rfl⟩, hMatch.1⟩
        · exact hRest

/- What the drill down depends on. -/
theorem locate_congr {s t : St} (hLast : ∀ k, (t.part k).lastpart = (s.part k).lastpart)
    (hBoundary : ∀ k, (t.part k).boundary = (s.part k).boundary)
    (hHeader :
      ∀ k, (t.part k).workinheader = (s.part k).workinheader) (c : List Byte) (path : List Nat) :
    locate t c path = locate s c path := by
  induction path with
  | nil => rfl
  | cons p rest ih =>
    cases rest with
    | nil =>
      unfold locate
      rw [hLast]
    | cons last others =>
      unfold locate
      rw [hBoundary, hHeader, ih]

end Wmail.Rfc2045
