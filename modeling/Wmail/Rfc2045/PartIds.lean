import Wmail.Core.Decimal
import Wmail.Core.NumberedTree
import Wmail.Rfc2045.Inert
import Wmail.Rfc2045.TreeShape

/-
  The ids of the parts of a message (rfc2045decode.c), and
  the search for a part by its id (rfc2045find.c).

  Key theorems include:
    * `Sized.runCalls`
    * `rfc2045Decode_ids`
-/

namespace Wmail.Rfc2045

open NumberedTree

/- `for (r=r->firstpart; r; r=r->next)`. -/
def St.subparts (s : St) (r : Nat) : List Nat :=
  (List.range s.parts.length).filter fun i => (s.part i).parent = some r

/-
  The first number inside a part: the pseudo-section that
  comes first in a multipart gets no id.
-/
def St.firstIdnum (s : St) (r : Nat) : Nat :=
  match (s.part r).contentType with
  | none => 1
  | some t => if (bytes "multipart/").isPrefixOf t then 0 else 1

/-
  `decode`, at most `depth` levels deep.  The callback gets
  the part and the numbers of its id, from `topid` on.
-/
def decode {σ : Type} (s : St) (func : σ → Nat → List Nat → σ) : Nat → List Nat → Nat → σ → σ
  | 0, _, _, ptr => ptr
  | depth + 1, id, r, ptr =>
    ((s.subparts r).zipIdx (s.firstIdnum r)).foldl
      (fun ptr c =>
        if c.2 = 0 then ptr else decode s func depth (id ++ [c.2]) c.1 ptr)
      (func ptr r id)

/- `rfc2045_decode`. -/
def rfc2045Decode {σ : Type} (s : St) (func : σ → Nat → List Nat → σ) (ptr : σ) : σ :=
  decode s func s.parts.length [1] 0 ptr

/- The calls of the callback: every part, with its id. -/
def partIds (s : St) : List (Nat × List Nat) :=
  rfc2045Decode s (fun found p id => found ++ [(p, id)]) []

/- The range of an `unsigned`. -/
def unsignedRange : Nat :=
  2 ^ 32

/-
  The loop of `do_decode`: the numbers of the text are those
  of the id, and there is nothing behind them.
-/
def idMatches : List Nat → List Byte → Bool
  | [], partnum => partnum.isEmpty
  | idnum :: id, partnum =>
    match scanDigits partnum with
    | none => false
    | some (n, []) => n % unsignedRange = idnum % unsignedRange && idMatches id []
    | some (n, c :: rest) =>
      c = chr '.' && (n % unsignedRange = idnum % unsignedRange && idMatches id rest)

/- `rfc2045_find`: the last part whose id matches. -/
def rfc2045Find (s : St) (str : List Byte) : Option Nat :=
  rfc2045Decode s (fun ptr p id => if idMatches id str then some p else ptr) none

/- `"%d"` for each number, with dots in between. -/
def dotted : List Nat → List Byte
  | [] => []
  | [idnum] => decimalDigits 10 idnum
  | idnum :: id => decimalDigits 10 idnum ++ chr '.' :: dotted id

------------
-- Ids
------------

/- The callback is called for one visit after the other. -/
theorem decode_eq {σ : Type} (s : St) (func : σ → Nat → List Nat → σ) (depth : Nat)
    (id : List Nat) (r : Nat) (ptr : σ) :
    decode s func depth id r ptr = (visits s.subparts s.firstIdnum depth id r).foldl
        (fun ptr v => func ptr v.1 v.2) ptr := by
  induction depth generalizing id r ptr with
  | zero => rfl
  | succ depth ih =>
    rw [decode, visits, List.foldl_cons, List.foldl_flatMap]
    congr 1
    funext ptr c
    split
    · rfl
    · exact ih _ _ _

theorem partIds_eq (s : St) : partIds s = visits s.subparts s.firstIdnum s.parts.length [1] 0 := by
  unfold partIds rfc2045Decode
  rw [decode_eq]
  generalize visits s.subparts s.firstIdnum s.parts.length [1] 0 = found
  have hFold : ∀ front : List (Nat × List Nat),
      found.foldl (fun ptr v => ptr ++ [(v.1, v.2)]) front = front ++ found := by
    induction found with
    | nil =>
      intro front
      exact (List.append_nil front).symm
    | cons v rest ih =>
      intro front
      rw [List.foldl_cons, ih, List.append_assoc]
      rfl
  exact hFold []

theorem scanDigits_decimalDigits {k : Nat} (hLess : k < unsignedRange) {rest : List Byte}
    (hRest : ∀ b, rest.head? = some b → isdigit b = false) :
    scanDigits (decimalDigits 10 k ++ rest) = some (k, rest) := by
  have hRoom : k < 10 ^ 10 := by
    unfold unsignedRange at hLess
    omega
  rw [scanDigits_append (fun b => isdigit_decimalDigits) (decimalDigits_ne_nil 9 k) hRest,
    decimalValue_decimalDigits hRoom]

theorem dotted_ne_nil {id : List Nat} (hId : id ≠ []) : dotted id ≠ [] := by
  cases id with
  | nil => exact absurd rfl hId
  | cons k rest =>
    cases rest with
    | nil => exact decimalDigits_ne_nil 9 k
    | cons l more => exact List.append_ne_nil_of_left_ne_nil (decimalDigits_ne_nil 9 k) _

/- A text matches the id that it was printed from. -/
theorem idMatches_dotted {id found : List Nat} (hId : ∀ k, k ∈ id → k < unsignedRange)
    (hFound : ∀ k, k ∈ found → k < unsignedRange) (hSome : found ≠ []) :
    idMatches id (dotted found) = true ↔ id = found := by
  induction id generalizing found with
  | nil =>
    apply iff_of_false
    · intro hEmpty
      exact dotted_ne_nil hSome (List.isEmpty_iff.mp hEmpty)
    · exact hSome.symm
  | cons k id ih =>
    have hMod : k % unsignedRange = k := Nat.mod_eq_of_lt (hId k List.mem_cons_self)
    cases found with
    | nil => exact absurd rfl hSome
    | cons l rest =>
      have hLess := hFound l List.mem_cons_self
      have hLast : l % unsignedRange = l := Nat.mod_eq_of_lt hLess
      cases rest with
      | nil =>
        have hScan := @scanDigits_decimalDigits l hLess [] nofun
        rw [List.append_nil] at hScan
        have hEnd : idMatches id [] = true ↔ id = [] := by
          cases id with
          | nil => exact iff_of_true rfl rfl
          | cons m more => exact iff_of_false Bool.false_ne_true (List.cons_ne_nil m more)
        simp only [dotted, idMatches, hScan, hMod, hLast, Bool.and_eq_true, decide_eq_true_eq, hEnd,
          List.cons.injEq]
        exact and_congr_left' eq_comm
      | cons m more =>
        have hDot : ∀ b, (chr '.' :: dotted (m :: more)).head? = some b → isdigit b = false := by
          intro b hHead
          cases hHead
          decide
        have hRest := @ih (m :: more) (fun n hMem => hId n (List.mem_cons_of_mem k hMem))
          (fun n hMem => hFound n (List.mem_cons_of_mem l hMem))
          (List.cons_ne_nil m more)
        simp only [dotted, idMatches, scanDigits_decimalDigits hLess hDot, hMod, hLast, decide_true,
          Bool.true_and, Bool.and_eq_true, decide_eq_true_eq, hRest, List.cons.injEq]
        exact and_congr_left' eq_comm

/-
  A fold that keeps what matched last keeps the only element
  that matches.
-/
theorem foldl_match {α β : Type} {l : List (α × β)} {m : β → Bool}
    (hNodup : (l.map Prod.snd).Nodup) {v : α × β} (hMem : v ∈ l)
    (hOnly : ∀ w, w ∈ l → (m w.2 = true ↔ w.2 = v.2)) :
    l.foldl (fun ptr w => if m w.2 then some w.1 else ptr) none = some v.1 := by
  rcases List.append_of_mem hMem with ⟨before, after, rfl⟩
  have hKeep : ∀ ptr : Option α, after.foldl (fun ptr w => if m w.2 then some w.1 else ptr) ptr =
          ptr := by
    rw [List.map_append, List.map_cons] at hNodup
    have hApart := (List.nodup_cons.mp (List.nodup_append.mp hNodup).2.1).1
    have hNone : ∀ w, w ∈ after → m w.2 = false := by
      intro w hAfter
      have hIff := hOnly w (List.mem_append_right _ (List.mem_cons_of_mem v hAfter))
      cases hCase : m w.2 with
      | false => rfl
      | true =>
        apply absurd _ hApart
        rw [← hIff.mp hCase]
        exact List.mem_map_of_mem hAfter
    clear hNodup hApart hOnly hMem
    intro ptr
    induction after with
    | nil => rfl
    | cons w rest ih =>
      have hFirst := hNone w List.mem_cons_self
      rw [List.foldl_cons, hFirst, if_neg Bool.false_ne_true]
      exact ih fun x hRest => hNone x (List.mem_cons_of_mem w hRest)
  have hHere := (hOnly v hMem).mpr rfl
  rw [List.foldl_append, List.foldl_cons, hKeep, if_pos hHere]

theorem partIds_nodup (s : St) : ((partIds s).map Prod.snd).Nodup := by
  rw [partIds_eq]
  exact nodup_ids _ _ _

variable {s : St} {v : Nat × List Nat}

/- The numbers of a tree that is not too large. -/
theorem partIds_lt (hSize : s.parts.length + 1 < unsignedRange) (hVisit : v ∈ partIds s) :
    ∀ k, k ∈ v.2 → k < unsignedRange := by
  rw [partIds_eq] at hVisit
  apply number_lt _ _ hVisit
  · intro r
    have hInner : (s.subparts r).length ≤ s.parts.length := by
      have hFilter := List.length_filter_le (fun i => decide ((s.part i).parent = some r))
        (List.range s.parts.length)
      rw [List.length_range] at hFilter
      exact hFilter
    have hFirst : s.firstIdnum r ≤ 1 := by
      unfold St.firstIdnum
      split
      · exact Nat.le_refl 1
      · split
        · exact Nat.zero_le 1
        · exact Nat.le_refl 1
    omega
  · intro k hMem
    rw [List.mem_singleton.mp hMem]
    decide

theorem partIds_ne_nil (hVisit : v ∈ partIds s) : v.2 ≠ [] := by
  rw [partIds_eq] at hVisit
  have hPrefix := prefix_of_mem hVisit
  intro hNil
  rw [hNil] at hPrefix
  exact List.cons_ne_nil 1 [] (List.prefix_nil.mp hPrefix)

/- The search finds what was visited with the id. -/
theorem rfc2045Find_dotted (hSize : s.parts.length + 1 < unsignedRange)
    (hVisit : v ∈ partIds s) : rfc2045Find s (dotted v.2) = some v.1 := by
  have hTest : ∀ w, w ∈ partIds s → (idMatches w.2 (dotted v.2) = true ↔ w.2 = v.2) := by
    intro w hOther
    exact idMatches_dotted (partIds_lt hSize hOther)
      (partIds_lt hSize hVisit) (partIds_ne_nil hVisit)
  unfold rfc2045Find rfc2045Decode
  rw [decode_eq, ← partIds_eq]
  exact foldl_match (m := fun id => idMatches id (dotted v.2)) (partIds_nodup s) hVisit hTest

/- Different ids are printed differently. -/
theorem dotted_nodup (hSize : s.parts.length + 1 < unsignedRange) :
    ((partIds s).map fun v => dotted v.2).Nodup := by
  have hIds := partIds_nodup s
  apply List.Nodup.map_on _ (List.Nodup.of_map _ hIds)
  intro v hVisit w hOther hSame
  have hMatch := (idMatches_dotted (partIds_lt hSize hVisit) (partIds_lt hSize hVisit)
    (partIds_ne_nil hVisit)).mpr rfl
  rw [hSame] at hMatch
  apply List.inj_on_of_nodup_map hIds hVisit hOther
  exact (idMatches_dotted (partIds_lt hSize hVisit) (partIds_lt hSize hOther)
    (partIds_ne_nil hOther)).mp hMatch

/- A depth of as many levels as there are parts is enough. -/
theorem decode_enough {σ : Type} (hTree : Tree s) (func : σ → Nat → List Nat → σ)
    {depth : Nat} (hDepth : s.parts.length ≤ depth) (ptr : σ) :
    decode s func depth [1] 0 ptr = rfc2045Decode s func ptr := by
  have hFalls : ∀ r c, c ∈ s.subparts r → s.parts.length - 1 - c < s.parts.length - 1 - r := by
    intro r c hMem
    rcases List.mem_filter.mp hMem with ⟨hRange, hParent⟩
    have hLess := List.mem_range.mp hRange
    have hUp := hTree.parent_lt c r (of_decide_eq_true hParent)
    omega
  have hRoot := hTree.root_lt
  unfold rfc2045Decode
  rw [decode_eq, decode_eq]
  congr 1
  apply visits_enough hFalls _ hDepth
  omega

------------
-- Number Of Parts
------------

/- As many new parts, and counted as such. -/
structure Grows (n : Nat) (s t : St) : Prop where
  length : t.parts.length = s.parts.length + n
  numparts : t.numparts = s.numparts + n

namespace Grows

variable {m n : Nat} {s t u : St}

theorem refl (s : St) : Grows 0 s s :=
  ⟨rfl, rfl⟩

theorem trans (hFirst : Grows m s t) (hSecond : Grows n t u) : Grows (m + n) s u where
  length := by
    rw [hSecond.length, hFirst.length, Nat.add_assoc]
  numparts := by
    rw [hSecond.numparts, hFirst.numparts, Nat.add_assoc]

/- Behind a step that makes no parts. -/
theorem after (hSecond : Grows n t u) (hFirst : Grows 0 s t) : Grows n s u := by
  have hBoth := hFirst.trans hSecond
  rw [Nat.zero_add] at hBoth
  exact hBoth

theorem setPart (s : St) (i : Nat) (f : Part → Part) : Grows 0 s (s.setPart i f) :=
  ⟨St.length_setPart s i f, rfl⟩

theorem setUpward (s : St) (i : Nat) (f : Part → Part) : Grows 0 s (s.setUpward i f) :=
  ⟨St.length_setUpward s i f, St.numparts_setUpward s i f⟩

theorem updateCounts (s : St) (i newcnt newendcnt nlines : Nat) :
    Grows 0 s (updateCounts s i newcnt newendcnt nlines) :=
  setUpward s i _

theorem sectionContents (s : St) (c : List Byte) : Grows 0 s (sectionContents s c) where
  length := (Keeps.sectionContents (v := fun _ => ()) s c fun _ _ => rfl).length
  numparts := numparts_sectionContents s c

theorem appendPartNoinherit (s : St) (p startpos : Nat) :
    Grows 1 s (appendPartNoinherit s p startpos) :=
  ⟨length_appendPartNoinherit s p startpos, rfl⟩

theorem appendPart (s : St) (p startpos : Nat) : Grows 1 s (appendPart s p startpos) :=
  (appendPartNoinherit s p startpos).trans (setPart _ _ _)

theorem flagHeader (s : St) (bit8 : Bool) (p : Nat) : Grows 0 s (flagHeader s bit8 p) := by
  unfold Rfc2045.flagHeader
  split
  · exact setUpward s p _
  · exact refl s

theorem dolineBody (s : St) (c : List Byte) (bit8 : Bool) (p : Nat) :
    Grows 0 s (dolineBody s c bit8 p) := by
  have hFlag : Grows 0 s (flagContent s bit8 p) := by
    unfold flagContent
    split
    · exact setUpward s p _
    · exact refl s
  have hScan : Grows 0 (flagContent s bit8 p) (scanBody (flagContent s bit8 p) c p) := by
    unfold scanBody
    split
    · exact refl _
    · exact sectionContents _ c
  exact ((updateCounts _ p _ _ 1).after hScan).after hFlag

theorem dolineDoHeader (s : St) (p : Nat) : Grows 0 s (dolineDoHeader s p) := by
  unfold Rfc2045.dolineDoHeader
  simp only []
  split
  · exact (setPart s p _).trans (setPart _ 0 _)
  · exact setPart s p _

theorem dolineHeader (s : St) (c : List Byte) (p : Nat) : Grows 0 s (dolineHeader s c p) := by
  unfold Rfc2045.dolineHeader collectHeader
  simp only []
  split
  · exact (setPart _ p _).after (updateCounts s p _ _ 1)
  · exact ((setPart _ p _).after (dolineDoHeader _ p)).after (updateCounts s p _ _ 1)

theorem startBody (s : St) (c : List Byte) (p : Nat) : Grows 0 s (startBody s c p) :=
  ((setPart _ p _).after (updateCounts _ p _ _ 1)).after (setPart s p _)

/- The start of a body makes one part, or none. -/
theorem enterBody (s : St) (p : Nat) : ∃ n, n ≤ 1 ∧ Grows n s (enterBody s p) := by
  unfold Rfc2045.enterBody
  split
  · exact ⟨1, Nat.le_refl 1, appendPartNoinherit s p _⟩
  · split
    · exact ⟨1, Nat.le_refl 1, (appendPart s p _).trans (setPart _ _ _)⟩
    · exact ⟨0, Nat.zero_le 1, ⟨rfl, rfl⟩⟩

/- So does a line. -/
theorem dolineAt (s : St) (c : List Byte) (bit8 : Bool) (place : Place) :
    ∃ n, n ≤ 1 ∧ Grows n s (dolineAt s c bit8 place) := by
  cases place with
  | leftover p => exact ⟨0, Nat.zero_le 1, updateCounts s p _ _ 1⟩
  | boundary p last final =>
    cases final with
    | true => exact ⟨0, Nat.zero_le 1, (updateCounts _ p _ _ 1).after (setPart s last _)⟩
    | false =>
      exact ⟨1, Nat.le_refl 1, (appendPart s p _).trans
          ((setPart _ _ _).after (updateCounts _ p _ _ 1))⟩
  | «section» p =>
    have hFlag := flagHeader s bit8 p
    simp only [Rfc2045.dolineAt, dolineSection]
    split
    · split
      · have hBegun := ((startBody _ c p).after (dolineDoHeader _ p)).after hFlag
        rcases enterBody (Rfc2045.startBody (Rfc2045.dolineDoHeader
            (Rfc2045.flagHeader s bit8 p) p) c p) p with
          ⟨n, hOne, hGrows⟩
        exact ⟨n, hOne, hGrows.after hBegun⟩
      · exact ⟨0, Nat.zero_le 1, (dolineHeader _ c p).after hFlag⟩
    · exact ⟨0, Nat.zero_le 1, dolineBody s c bit8 p⟩

theorem start (s : St) : Grows 0 s s.start.1 := by
  unfold St.start
  rcases lookAhead s s.openPath with _ | _ | ⟨p, rest⟩
  · exact refl s
  · exact refl s
  · exact setPart s p _

end Grows

/- The parts are counted, and not many more than `MAXPARTS`. -/
structure Sized (s : St) : Prop where
  counted : s.parts.length = s.numparts + 1
  bounded : s.numparts ≤ maxParts + 1

namespace Sized

variable {s t : St}

theorem keep (hSized : Sized s) (hGrows : Grows 0 s t) : Sized t where
  counted := by
    rw [hGrows.length, hGrows.numparts]
    exact hSized.counted
  bounded := by
    rw [hGrows.numparts]
    exact hSized.bounded

theorem doline (hSized : Sized s) : Sized (doline s) := by
  unfold Rfc2045.doline
  split
  · exact hSized.keep (Grows.setPart s 0 _)
  · rename_i hFew
    rcases Grows.dolineAt s.start.1 (cleanLine s.workbuf) (s.workbuf.any fun b => 128 ≤ b)
      (locate s.start.1 (cleanLine s.workbuf) s.start.2) with
      ⟨n, hOne, hStep⟩
    have hGrows := hStep.after (Grows.start s)
    have hCounted := hSized.counted
    constructor
    · exact hGrows.length.trans (by
        rw [hCounted]
        exact (Nat.add_right_comm _ 1 n).trans (congrArg (· + 1) hGrows.numparts.symm))
    · rw [show _ = s.numparts + n from hGrows.numparts]
      omega

theorem parsePartial (hSized : Sized s) : Sized (parsePartial s) where
  counted := by
    rw [numparts_parsePartial]
    exact (Keeps.parsePartial (v := fun _ => ()) s (fun _ _ => rfl) (fun _ _ => rfl)
      fun _ _ => rfl).length.trans hSized.counted
  bounded := by
    rw [numparts_parsePartial]
    exact hSized.bounded

theorem parseByte (hSized : Sized s) (b : Byte) : Sized (parseByte s b) := by
  have hAdded : Sized { s with workbuf := s.workbuf ++ [b] } := hSized.keep ⟨rfl, rfl⟩
  unfold Rfc2045.parseByte
  simp only []
  split
  · exact hAdded.doline.keep ⟨rfl, rfl⟩
  · exact hAdded

theorem kept : Kept fun _ s => Sized s where
  byte := parseByte
  rest := parsePartial

theorem runCalls (hSized : Sized s) (calls : List Call) : Sized (runCalls s calls) :=
  kept.runCalls [] hSized calls

theorem newParser (rewriting inReformime : Bool) : Sized (newParser rewriting inReformime) := by
  cases rewriting <;> exact ⟨rfl, Nat.zero_le _⟩

end Sized

/-
  The ids of a message are different from each other, and
  the search finds the part that was visited with an id.
-/
theorem partIds_identify (rewriting inReformime : Bool) (calls : List Call) :
    ((partIds (runCalls (newParser rewriting inReformime)
        calls)).map fun v => dotted v.2).Nodup ∧
      ∀ v, v ∈ partIds (runCalls (newParser rewriting inReformime) calls) →
        rfc2045Find (runCalls (newParser rewriting inReformime) calls) (dotted v.2) =
          some v.1 := by
  have hSized := (Sized.newParser rewriting inReformime).runCalls calls
  have hCounted := hSized.counted
  have hBounded := hSized.bounded
  have hSize : (runCalls (newParser rewriting inReformime)
      calls).parts.length + 1 < unsignedRange := by
    unfold unsignedRange
    unfold maxParts at hBounded
    omega
  exact ⟨dotted_nodup hSize, fun v => rfc2045Find_dotted hSize⟩

end Wmail.Rfc2045
