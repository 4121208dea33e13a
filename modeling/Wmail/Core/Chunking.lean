import Mathlib.Data.List.Induction

/-
  Consumers of a stream that arrives in pieces.

  A `Transducer` is started once, is fed any number of
  pieces, and is finished once.  When its state represents
  the input read so far, its result is a function of the
  concatenated input, so the cuts between the pieces do not
  matter.

  Key theorems include:
    * `Transducer.Realizes.run_eq`
    * `Transducer.Realizes.run_congr`
-/

namespace Wmail

/- A state machine that reads its input in pieces. -/
structure Transducer (α σ β : Type) where
  init : σ
  feed : σ → List α → σ
  finish : σ → β

namespace Transducer

variable {α σ β : Type}

/- The state after a sequence of pieces. -/
def feedAll (t : Transducer α σ β) (pieces : List (List α)) : σ :=
  pieces.foldl t.feed t.init

/- The result of a whole run. -/
def run (t : Transducer α σ β) (pieces : List (List α)) : β :=
  t.finish (t.feedAll pieces)

@[simp] theorem feedAll_nil (t : Transducer α σ β) : t.feedAll [] = t.init :=
  rfl

@[simp] theorem feedAll_append_singleton (t : Transducer α σ β) (pieces : List (List α))
    (piece : List α) : t.feedAll (pieces ++ [piece]) = t.feed (t.feedAll pieces) piece := by
  simp [feedAll]

/-
  `rel input state` says that `state` represents the input
  read so far.  The steps may rely on `dom`, a property of
  the input that every beginning of the input shares.
-/
structure Represents (t : Transducer α σ β) (dom : List α → Prop) (rel : List α → σ → Prop) :
    Prop where
  dom_prefix : ∀ input piece, dom (input ++ piece) → dom input
  init : rel [] t.init
  feed : ∀ input state piece, dom (input ++ piece) → rel input state →
          rel (input ++ piece) (t.feed state piece)

/- A finished run then computes `spec input`. -/
structure Realizes (t : Transducer α σ β) (dom : List α → Prop) (rel : List α → σ → Prop)
    (spec : List α → β) :
    Prop
    extends Represents t dom rel where
  finish : ∀ input state, dom input → rel input state → t.finish state = spec input

variable {t : Transducer α σ β} {dom : List α → Prop} {rel : List α → σ → Prop}
variable {spec : List α → β}

/- Every fed state represents the concatenated input. -/
theorem Represents.rel_feedAll (hRep : t.Represents dom rel) (pieces : List (List α))
    (hDom : dom pieces.flatten) : rel pieces.flatten (t.feedAll pieces) := by
  induction pieces using List.reverseRecOn with
  | nil => exact hRep.init
  | append_singleton pieces piece ih =>
    have hWhole : dom (pieces.flatten ++ piece) := by simpa using hDom
    have hFeed := hRep.feed _ _ piece hWhole (ih (hRep.dom_prefix _ _ hWhole))
    simpa using hFeed

namespace Realizes

/- A run depends only on the concatenated input. -/
theorem run_eq (hReal : t.Realizes dom rel spec) (pieces : List (List α))
    (hDom : dom pieces.flatten) : t.run pieces = spec pieces.flatten :=
  hReal.finish _ _ hDom (hReal.rel_feedAll pieces hDom)

/- Two ways of cutting one input give one result. -/
theorem run_congr (hReal : t.Realizes dom rel spec) {pieces others : List (List α)}
    (hSame : pieces.flatten = others.flatten) (hDom : dom pieces.flatten) :
    t.run pieces = t.run others := by
  rw [hReal.run_eq pieces hDom, hReal.run_eq others (hSame ▸ hDom), hSame]

end Realizes

end Transducer

end Wmail
