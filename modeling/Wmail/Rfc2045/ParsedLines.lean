import Wmail.Rfc2045.FlowedText

/-
  The lines that `rfc2646_parse` hands to its handler, and
  what of them is text.

  Key theorems include:
    * `quoteLoop_eq`
-/

namespace Wmail.Rfc2646

/-
  What is known of a line that comes from the parser.  The
  blank that said that a line is flowed had room in the line
  buffer.
-/
structure FlowedLine.Parsed (l : FlowedLine) : Prop where
  oneLine : OneLine l.line
  room : l.line.length + l.isflowed.toNat ≤ 4095
  fixed : l.isflowed = false →
      l.line.getLast? ≠ some (chr ' ') ∨ l.line = bytes "-- "
  flowed : l.isflowed = true → l.line ≠ bytes "--"

instance (l : FlowedLine) : Decidable l.Parsed :=
  decidable_of_iff (OneLine l.line ∧ l.line.length + l.isflowed.toNat ≤ 4095 ∧ (l.isflowed = false →
          l.line.getLast? ≠ some (chr ' ') ∨
            l.line = bytes "-- ") ∧
          (l.isflowed = true → l.line ≠ bytes "--"))
    ⟨fun ⟨hOne, hRoom, hFixed, hFlowed⟩ =>
        ⟨hOne, hRoom, hFixed, hFlowed⟩,
      fun hParsed => ⟨hParsed.oneLine, hParsed.room, hParsed.fixed, hParsed.flowed⟩⟩

theorem oneLine_nil : OneLine [] :=
  ⟨List.not_mem_nil, List.not_mem_nil⟩

/- The bytes of a text that are no blanks, at a depth. -/
def ink (depth : Nat) (text : List Byte) : List (Nat × Byte) :=
  (text.filter (· ≠ chr ' ')).map (depth, ·)

@[simp] theorem ink_nil (depth : Nat) : ink depth [] = [] :=
  rfl

@[simp] theorem ink_append (depth : Nat) (text more : List Byte) :
    ink depth (text ++ more) = ink depth text ++ ink depth more := by
  unfold ink
  rw [List.filter_append, List.map_append]

/- Blanks do not count. -/
theorem ink_blanks (depth : Nat) {blanks : List Byte}
    (hBlanks : ∀ b, b ∈ blanks → b = chr ' ') : ink depth blanks = [] := by
  unfold ink
  rw [List.map_eq_nil_iff, List.filter_eq_nil_iff]
  intro b hMem
  rw [hBlanks b hMem]
  decide

theorem ink_trimEnd (depth : Nat) (text : List Byte) :
    ink depth (trimEnd text) = ink depth text := by
  rcases trimEnd_split text with ⟨blanks, hSplit, hBlanks⟩
  have hSame := congrArg (ink depth) hSplit
  rw [ink_append, ink_blanks depth hBlanks, List.append_nil] at hSame
  exact hSame.symm

/- The loop that sends quote marks, at most five at a time. -/
def quoteLoop (qcnt : Nat) : List Byte :=
  if qcnt = 0 then [] else (bytes ">>>>>").take (min 5 qcnt) ++ quoteLoop (qcnt - min 5 qcnt)
termination_by qcnt
decreasing_by omega

theorem quoteLoop_eq (qcnt : Nat) : quoteLoop qcnt = List.replicate qcnt (chr '>') := by
  induction qcnt using Nat.strongRecOn with
  | ind qcnt ih =>
    rw [quoteLoop]
    split
    · rename_i hNone
      rw [hNone]
      rfl
    · rename_i hSome
      have hMarks : bytes ">>>>>" = List.replicate 5 (chr '>') := rfl
      rw [ih _ (by omega), hMarks, List.take_replicate, List.replicate_append_replicate]
      congr 1
      omega

end Wmail.Rfc2646
