import Wmail.Rfc2045.QpStream

/-
  The fragments in which `decode_qp` decodes its input.

  The cuts depend on the bytes only, so they are the same
  for elements that carry a byte with something else.

  Key theorems include:
    * `QpCut.mem_fragments`
    * `cdecoder_fragments`
-/

namespace Wmail.Rfc2045

namespace QpCut

variable {α : Type}

/- What is kept back, from an `=` near the end on. -/
def held (val : α → Byte) (w : List α) : List α :=
  (w.drop (w.length - 5)).dropWhile (val · ≠ chr '=')

/- The fragment before it. -/
def front (val : α → Byte) (w : List α) : List α :=
  w.take (w.length - (held val w).length)

/- A full buffer: its fragment, and what stays in the buffer. -/
def cutFull (val : α → Byte) (w : List α) : List (List α) × List α :=
  if w.length > 1024 then ([front val w], (held val w).takeWhile (val · ≠ 0)) else ([], w)

/- The fragments of one call, and what stays in the buffer. -/
def cutLoop (val : α → Byte) (w start : List α) : List α → List (List α) × List α
  | [] => if start.isEmpty then ([], w) else cutFull val (w ++ start)
  | c :: rest =>
    if val c ≠ nl then
      cutLoop val w (start ++ [c]) rest
    else
      let out := cutLoop val [] [] rest
      ((w ++ start ++ [c]) :: out.1, out.2)

/- The fragments of all the calls, up to the last one. -/
def fragments (val : α → Byte) (w : List α) : List (List α) → List (List α)
  | [] => [w]
  | piece :: more => (cutLoop val w [] piece).1 ++ fragments val (cutLoop val w [] piece).2 more

section Bytes

variable {β : Type} (val : β → Byte) (f : α → β)

theorem held_map (w : List α) : held val (w.map f) = (held (val ∘ f) w).map f := by
  unfold held
  rw [List.length_map, ← List.map_drop, List.dropWhile_map]
  rfl

theorem front_map (w : List α) : front val (w.map f) = (front (val ∘ f) w).map f := by
  unfold front
  rw [held_map, List.length_map, List.length_map, List.map_take]

theorem cutFull_map (w : List α) : cutFull val (w.map f) =
      ((cutFull (val ∘ f) w).1.map (List.map f), (cutFull (val ∘ f) w).2.map f) := by
  unfold cutFull
  rw [List.length_map]
  split
  · rw [front_map, held_map, List.takeWhile_map]
    rfl
  · rfl

theorem cutLoop_map (w start s : List α) : cutLoop val (w.map f) (start.map f) (s.map f) =
      ((cutLoop (val ∘ f) w start s).1.map (List.map f),
        (cutLoop (val ∘ f) w start s).2.map f) := by
  induction s generalizing w start with
  | nil =>
    rw [List.map_nil, cutLoop, cutLoop, List.isEmpty_map]
    split
    · rfl
    · rw [← List.map_append, cutFull_map]
  | cons c rest ih =>
    rw [List.map_cons, cutLoop, cutLoop]
    by_cases hMore : val (f c) ≠ nl
    · have hSame : (val ∘ f) c ≠ nl := hMore
      have hNext := ih w (start ++ [c])
      rw [List.map_append] at hNext
      rw [if_pos hMore, if_pos hSame]
      exact hNext
    · have hSame : ¬ (val ∘ f) c ≠ nl := hMore
      have hNext := ih [] []
      rw [if_neg hMore, if_neg hSame]
      simp only [List.map_nil] at hNext
      simp only [hNext, List.map_cons, List.map_append, List.map_nil]

theorem fragments_map (w : List α) (pieces : List (List α)) :
    fragments val (w.map f) (pieces.map (List.map f)) =
      (fragments (val ∘ f) w pieces).map (List.map f) := by
  induction pieces generalizing w with
  | nil => rfl
  | cons piece more ih =>
    have hLoop := cutLoop_map val f w [] piece
    rw [List.map_nil] at hLoop
    rw [List.map_cons, fragments, fragments, hLoop, ih, List.map_append]

end Bytes

variable {val : α → Byte}

theorem mem_cutFull {w : List α} {x : α}
    (hMem : (∃ part, part ∈ (cutFull val w).1 ∧ x ∈ part) ∨ x ∈ (cutFull val w).2) : x ∈ w := by
  unfold cutFull at hMem
  split at hMem
  · rcases hMem with ⟨part, hPart, hIn⟩ | hKept
    · rw [List.mem_singleton.mp hPart] at hIn
      exact List.mem_of_mem_take hIn
    · have hHeld := (List.takeWhile_prefix _).subset hKept
      exact List.mem_of_mem_drop ((List.dropWhile_suffix _).subset hHeld)
  · rcases hMem with ⟨part, hPart, _⟩ | hKept
    · cases hPart
    · exact hKept

theorem mem_cutLoop {w start s : List α} {x : α}
    (hMem : (∃ part, part ∈ (cutLoop val w start s).1 ∧ x ∈ part) ∨
      x ∈ (cutLoop val w start s).2) : x ∈ w ∨ x ∈ start ∨ x ∈ s := by
  induction s generalizing w start with
  | nil =>
    rw [cutLoop] at hMem
    split at hMem
    · rcases hMem with ⟨part, hPart, _⟩ | hKept
      · cases hPart
      · exact Or.inl hKept
    · rcases List.mem_append.mp (mem_cutFull hMem) with hIn | hIn
      · exact Or.inl hIn
      · exact Or.inr (Or.inl hIn)
  | cons c rest ih =>
    rw [cutLoop] at hMem
    split at hMem
    · rcases ih hMem with hIn | hIn | hIn
      · exact Or.inl hIn
      · rcases List.mem_append.mp hIn with hStart | hHere
        · exact Or.inr (Or.inl hStart)
        · rw [List.mem_singleton.mp hHere]
          exact Or.inr (Or.inr List.mem_cons_self)
      · exact Or.inr (Or.inr (List.mem_cons_of_mem c hIn))
    · have hLater (hRest : (∃ part, part ∈ (cutLoop val [] [] rest).1 ∧ x ∈ part) ∨
          x ∈ (cutLoop val [] [] rest).2) :
          x ∈ w ∨ x ∈ start ∨ x ∈ c :: rest := by
        rcases ih hRest with hIn | hIn | hIn
        · cases hIn
        · cases hIn
        · exact Or.inr (Or.inr (List.mem_cons_of_mem c hIn))
      rcases hMem with ⟨part, hPart, hIn⟩ | hKept
      · rcases List.mem_cons.mp hPart with rfl | hNext
        · rw [List.mem_append, List.mem_append, List.mem_singleton] at hIn
          rcases hIn with (hBuf | hStart) | rfl
          · exact Or.inl hBuf
          · exact Or.inr (Or.inl hStart)
          · exact Or.inr (Or.inr List.mem_cons_self)
        · exact hLater (Or.inl ⟨part, hNext, hIn⟩)
      · exact hLater (Or.inr hKept)

/- What is decoded came in. -/
theorem mem_fragments {w : List α} {pieces : List (List α)} {part : List α} {x : α}
    (hPart : part ∈ fragments val w pieces) (hMem : x ∈ part) : x ∈ w ∨ x ∈ pieces.flatten := by
  induction pieces generalizing w with
  | nil =>
    rw [fragments, List.mem_singleton] at hPart
    rw [hPart] at hMem
    exact Or.inl hMem
  | cons piece more ih =>
    have hFirst (hIn : (∃ part, part ∈ (cutLoop val w [] piece).1 ∧ x ∈ part) ∨
        x ∈ (cutLoop val w [] piece).2) :
        x ∈ w ∨ x ∈ (piece :: more).flatten := by
      rw [List.flatten_cons, List.mem_append]
      rcases mem_cutLoop hIn with hBuf | hNone | hPiece
      · exact Or.inl hBuf
      · cases hNone
      · exact Or.inr (Or.inl hPiece)
    rw [fragments, List.mem_append] at hPart
    rcases hPart with hHere | hLater
    · exact hFirst (Or.inl ⟨part, hHere, hMem⟩)
    · rcases ih hLater with hBuf | hMore
      · exact hFirst (Or.inr hBuf)
      · rw [List.flatten_cons, List.mem_append]
        exact Or.inr (Or.inr hMore)

end QpCut

open QpCut

/- The buffer and the fragments after a call. -/
def afterCut (p : Cdecode) (out : List (List Byte) × List Byte) : Cdecode where
  workbuf := out.2
  sent := p.sent ++ out.1.map qpScan

theorem afterCut_nil (p : Cdecode) : afterCut p ([], p.workbuf) = p := by
  rw [afterCut, List.map_nil, List.append_nil]

theorem decodeQpFull_cut (p : Cdecode) : decodeQpFull (Sink.accept Byte) p =
      (0, afterCut p (cutFull id p.workbuf)) := by
  unfold decodeQpFull cutFull
  split
  · rfl
  · rw [afterCut_nil]

theorem decodeQpLoop_cut (p : Cdecode) (start s : List Byte) :
    decodeQpLoop (Sink.accept Byte) p start s = (0, afterCut p (cutLoop id p.workbuf start s)) := by
  induction s generalizing p start with
  | nil =>
    rw [decodeQpLoop, cutLoop]
    cases start with
    | nil => exact congrArg (Prod.mk 0) (afterCut_nil p).symm
    | cons b more =>
      rw [if_neg (List.cons_ne_nil b more), decodeQpFull_cut]
      rfl
  | cons c rest ih =>
    rw [decodeQpLoop, cutLoop]
    by_cases hMore : c ≠ nl
    · have hSame : id c ≠ nl := hMore
      rw [if_pos hMore, if_pos hSame]
      exact ih p (start ++ [c])
    · have hSame : ¬ id c ≠ nl := hMore
      have hNl : c = nl := not_not.mp hMore
      rw [if_neg hMore, if_neg hSame, Rc.andThen_of_zero rfl,
        decodeQpFull_cut, Rc.andThen_zero, ih, hNl]
      simp only [afterCut, doDecodeQp, Cdecode.udecode, Cdecode.addWorkbuf, cutFull,
        List.length_nil, List.map_cons, List.append_assoc, List.singleton_append]
      rfl

theorem feed_cut (p : Cdecode) (piece : List Byte) : (cdecoder .quotedPrintable).feed p piece =
      afterCut p (cutLoop id p.workbuf [] piece) := by
  change (cdecode .quotedPrintable (Sink.accept Byte) p piece).2 = _
  unfold cdecode
  cases piece with
  | nil =>
    rw [if_pos rfl]
    exact (afterCut_nil p).symm
  | cons c rest =>
    rw [if_neg (List.cons_ne_nil c rest)]
    change (decodeQpLoop (Sink.accept Byte) p [] (c :: rest)).2 = _
    rw [decodeQpLoop_cut]

/- A run decodes the fragments of its input one by one. -/
theorem cdecoder_fragments (pieces : List (List Byte)) : (cdecoder .quotedPrintable).run pieces =
      (fragments id [] pieces).flatMap qpScan := by
  have hAll : ∀ p : Cdecode, (cdecoder .quotedPrintable).finish
        (pieces.foldl (cdecoder .quotedPrintable).feed p) =
      p.output ++ (fragments id p.workbuf pieces).flatMap qpScan := by
    induction pieces with
    | nil =>
      intro p
      rw [List.foldl_nil, fragments, List.flatMap_singleton]
      change (p.sent ++ [qpScan p.workbuf]).flatten = _
      rw [List.flatten_append, List.flatten_singleton]
      rfl
    | cons piece more ih =>
      intro p
      rw [List.foldl_cons, ih, feed_cut, fragments, List.flatMap_append, ← List.append_assoc]
      congr 1
      change (p.sent ++ _).flatten = p.sent.flatten ++ _
      rw [List.flatten_append, List.flatMap_def]
  exact hAll (cdecoder .quotedPrintable).init

end Wmail.Rfc2045
