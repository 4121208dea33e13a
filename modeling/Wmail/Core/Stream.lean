import Mathlib.Data.List.Basic

/-
  A stream that is read in pieces and handed out one by one,
  and a buffer whose contents are sent away piece by piece.

  A read gives at least one element, or the stream has ended.
  What a reader gets does not depend on the pieces.

  Key theorems include:
    * `Writer.flush_flatten`
    * `Writer.foldl_put_text`
-/

namespace Wmail

/-
  What has been read and not been handed out, and what the
  next reads will give.
-/
structure Stream (α : Type) where
  held : List α
  coming : List (List α)
  ready : ∀ piece, piece ∈ coming → piece ≠ []

namespace Stream

variable {α : Type}

/- A stream of which nothing has been read. -/
def fresh (coming : List (List α)) (hReady : ∀ piece, piece ∈ coming → piece ≠ []) : Stream α :=
  ⟨[], coming, hReady⟩

/- All that the stream will hand out. -/
def contents (s : Stream α) : List α :=
  s.held ++ s.coming.flatten

/- One element, or nothing at the end. -/
def getc : Stream α → Option (α × Stream α)
  | ⟨b :: held, coming, hReady⟩ => some (b, ⟨held, coming, hReady⟩)
  | ⟨[], (b :: held) :: coming, hReady⟩ =>
    some (b, ⟨held, coming, fun piece hMem => hReady piece (List.mem_cons_of_mem _ hMem)⟩)
  | ⟨[], [] :: _, _⟩ => none
  | ⟨[], [], _⟩ => none

/- The elements come in the order of the stream. -/
theorem getc_contents {s : Stream α} {b : α} {rest : List α}
    (hContents : s.contents = b :: rest) :
    ∃ next : Stream α, s.getc = some (b, next) ∧ next.contents = rest := by
  rcases s with ⟨held, coming, hReady⟩
  cases held with
  | cons c held =>
    cases hContents
    exact ⟨_, rfl, rfl⟩
  | nil =>
    cases coming with
    | nil => cases hContents
    | cons piece coming =>
      cases piece with
      | nil => exact absurd rfl (hReady [] List.mem_cons_self)
      | cons c held =>
        cases hContents
        exact ⟨_, rfl, rfl⟩

theorem getc_end {s : Stream α} (hContents : s.contents = []) : s.getc = none := by
  rcases s with ⟨held, coming, hReady⟩
  cases held with
  | cons c held => cases hContents
  | nil =>
    cases coming with
    | nil => rfl
    | cons piece coming =>
      cases piece with
      | nil => rfl
      | cons c held => cases hContents

/- As many elements as are asked for. -/
def take : Nat → Stream α → Option (List α × Stream α)
  | 0, s => some ([], s)
  | count + 1, s =>
    match s.getc with
    | none => none
    | some (b, next) =>
      (next.take count).map fun (bs, last) => (b :: bs, last)

theorem take_contents {s : Stream α} {front rest : List α}
    (hContents : s.contents = front ++ rest) :
    ∃ next : Stream α, s.take front.length = some (front, next) ∧ next.contents = rest := by
  induction front generalizing s with
  | nil => exact ⟨s, rfl, hContents⟩
  | cons b front ih =>
    rcases getc_contents hContents with ⟨next, hGet, hNext⟩
    rcases ih hNext with ⟨last, hTake, hLast⟩
    refine ⟨last, ?_, hLast⟩
    rw [List.length_cons, take, hGet]
    simp only [hTake, Option.map_some]

/- What is handed out is the first of the stream. -/
theorem contents_of_getc {s next : Stream α} {b : α} (hGet : s.getc = some (b, next)) :
    s.contents = b :: next.contents := by
  cases hContents : s.contents with
  | nil =>
    rw [getc_end hContents] at hGet
    cases hGet
  | cons c rest =>
    rcases getc_contents hContents with ⟨other, hHere, hRest⟩
    rw [hGet] at hHere
    cases hHere
    rw [hRest]

end Stream

/-
  What is in the buffer, and what has been sent.
-/
structure Writer (α : Type) where
  held : List α
  sent : List (List α)

namespace Writer

variable {α : Type}

/- All that has been given to the writer. -/
def text (w : Writer α) : List α :=
  w.sent.flatten ++ w.held

/- Send what is in the buffer. -/
def flush (w : Writer α) : Writer α :=
  match w.held with
  | [] => w
  | _ :: _ => ⟨[], w.sent ++ [w.held]⟩

/- One element; a full buffer is sent first. -/
def put (size : Nat) (w : Writer α) (b : α) : Writer α :=
  if w.held.length = size then ⟨[b], w.sent ++ [w.held]⟩ else ⟨w.held ++ [b], w.sent⟩

/- Flushing loses nothing. -/
theorem flush_flatten (w : Writer α) : w.flush.sent.flatten = w.text := by
  rcases w with ⟨held, sent⟩
  cases held with
  | nil => exact (List.append_nil _).symm
  | cons b held => simp [flush, text]

@[simp] theorem put_text (size : Nat) (w : Writer α) (b : α) :
    (w.put size b).text = w.text ++ [b] := by
  unfold put text
  split
  · simp
  · simp

theorem foldl_put_text (size : Nat) (bs : List α) (w : Writer α) :
    (bs.foldl (put size) w).text = w.text ++ bs := by
  induction bs generalizing w with
  | nil => exact (List.append_nil _).symm
  | cons b bs ih =>
    rw [List.foldl_cons, ih, put_text, List.append_assoc]
    rfl

end Writer

end Wmail
