import Wmail.Rfc2045.Cdecode

/-
  Errors of the callback while a body is decoded, and which
  of them the decoders report.

  Key theorems include:
    * `decodeRun_fragments`
    * `reported_iff`
-/

namespace Wmail.Rfc2045

/-
  A call passes fragments to the callback, and its return
  code is non-zero exactly when one of them is refused.
-/
def Reports (u : Sink Byte) (p : Cdecode) (r : Rc Cdecode) : Prop :=
  ∃ more, r.2.sent = p.sent ++ more ∧ (r.1 ≠ 0 ↔ u.Fails p.sent more)

section Calls

variable {u : Sink Byte} {p : Cdecode}

theorem Reports.quiet {q : Cdecode} (hSent : q.sent = p.sent) : Reports u p (0, q) := by
  refine ⟨[], ?_, ?_⟩
  · rw [List.append_nil]
    exact hSent
  · exact iff_of_false (fun hZero => hZero rfl) (u.not_fails_nil p.sent)

theorem Reports.udecode (fragment workbuf : List Byte) : Reports u p ((p.udecode u fragment).1,
        { (p.udecode u fragment).2 with
            workbuf := workbuf }) := by
  refine ⟨[fragment], rfl, ?_⟩
  rw [u.fails_cons]
  exact (or_iff_left (u.not_fails_nil _)).symm

/- What is in the buffer does not matter. -/
theorem Reports.of_sent {q : Cdecode} {r : Rc Cdecode} (hSent : q.sent = p.sent)
    (hReports : Reports u q r) : Reports u p r := by
  unfold Reports at hReports ⊢
  rw [← hSent]
  exact hReports

/- An error ends the call, and is its return code. -/
theorem Reports.andThen {first : Rc Cdecode} {next : Cdecode → Rc Cdecode}
    (hFirst : Reports u p first) (hNext : ∀ q, Reports u q (next q)) :
    Reports u p (first.andThen next) := by
  by_cases hZero : first.1 = 0
  · rw [Rc.andThen_of_zero hZero]
    rcases hFirst with ⟨sent, hSent, hIff⟩
    rcases hNext first.2 with ⟨more, hMore, hLast⟩
    rw [hSent] at hMore hLast
    refine ⟨sent ++ more, ?_, ?_⟩
    · rw [hMore, List.append_assoc]
    · have hNone : ¬ u.Fails p.sent sent := by
        rw [← hIff]
        exact fun hBad => hBad hZero
      rw [u.fails_append, hLast, or_iff_right hNone]
  · have hSame : first.andThen next = first := if_pos hZero
    rw [hSame]
    exact hFirst

theorem doDecodeQp_reports : Reports u p (doDecodeQp u p) :=
  Reports.udecode _ []

theorem decodeQpFull_reports : Reports u p (decodeQpFull u p) := by
  unfold decodeQpFull
  split
  · apply Reports.andThen
    · exact Reports.of_sent rfl doDecodeQp_reports
    · intro q
      exact Reports.quiet rfl
  · exact Reports.quiet rfl

theorem decodeQpLoop_reports (start s : List Byte) : Reports u p (decodeQpLoop u p start s) := by
  induction s generalizing p start with
  | nil =>
    unfold decodeQpLoop
    split
    · exact Reports.quiet rfl
    · exact Reports.of_sent rfl decodeQpFull_reports
  | cons c rest ih =>
    unfold decodeQpLoop
    split
    · exact ih (start ++ [c])
    · apply Reports.andThen
      · exact Reports.of_sent rfl doDecodeQp_reports
      · intro q
        apply Reports.andThen decodeQpFull_reports
        intro q
        exact ih []

theorem decodeRaw_reports (s : Option (List Byte)) : Reports u p (decodeRaw u p s) := by
  cases s with
  | none => exact Reports.quiet rfl
  | some s =>
    unfold decodeRaw
    simp only []
    split
    · exact Reports.quiet rfl
    · exact Reports.udecode s p.workbuf

/- The decoders that look at the return code. -/
theorem decode_reports {func : DecodeFunc} (hFunc : func ≠ .base64)
    (s : Option (List Byte)) : Reports u p (func.decode u p s) := by
  cases func with
  | raw => exact decodeRaw_reports s
  | quotedPrintable =>
    cases s with
    | none => exact doDecodeQp_reports
    | some s => exact decodeQpLoop_reports [] s
  | base64 => exact absurd rfl hFunc

/- The decoder that does not. -/
theorem decodeBase64_silent (s : Option (List Byte)) : (decodeBase64 u p s).1 = 0 := by
  cases s with
  | none => rfl
  | some s =>
    unfold decodeBase64
    simp only []
    split
    · rfl
    · rfl

end Calls

/-
  A run: `rfc2045_cdecode` for each piece of the body, and
  `rfc2045_cdecode_end`; the return codes, and the state.
-/
def decodeRun (func : DecodeFunc) (u : Sink Byte) : List (List Byte) → Cdecode → List Int × Cdecode
  | [], p =>
    let (rc, p) := cdecodeEnd func u p
    ([rc], p)
  | s :: pieces, p =>
    let (rc, p) := cdecode func u p s
    let (codes, p) := decodeRun func u pieces p
    (rc :: codes, p)

/- A refused fragment shows in one of the return codes. -/
def Reported (func : DecodeFunc) (u : Sink Byte) (pieces : List (List Byte)) : Prop :=
  let run := decodeRun func u pieces { workbuf := [], sent := [] }
  u.Fails [] run.2.sent → ∃ rc ∈ run.1, rc ≠ 0

theorem cdecode_reports {func : DecodeFunc} (hFunc : func ≠ .base64) (u : Sink Byte)
    (p : Cdecode) (s : List Byte) : Reports u p (cdecode func u p s) := by
  unfold cdecode
  split
  · exact Reports.quiet rfl
  · exact decode_reports hFunc (some s)

theorem decodeRun_reports {func : DecodeFunc} (hFunc : func ≠ .base64) (u : Sink Byte)
    (pieces : List (List Byte)) (p : Cdecode) :
    ∃ more, (decodeRun func u pieces p).2.sent = p.sent ++ more ∧
      ((∃ rc ∈ (decodeRun func u pieces p).1, rc ≠ 0) ↔ u.Fails p.sent more) := by
  induction pieces generalizing p with
  | nil =>
    rcases @decode_reports u p func hFunc none with ⟨more, hSent, hIff⟩
    refine ⟨more, hSent, ?_⟩
    rw [← hIff]
    simp only [decodeRun, List.mem_singleton, exists_eq_left]
    rfl
  | cons s pieces ih =>
    rcases cdecode_reports hFunc u p s with ⟨first, hFirst, hIff⟩
    rcases ih (cdecode func u p s).2 with ⟨more, hMore, hRest⟩
    rw [hFirst] at hMore hRest
    refine ⟨first ++ more, ?_, ?_⟩
    · rw [← List.append_assoc]
      exact hMore
    · rw [u.fails_append, ← hIff, ← hRest]
      simp only [decodeRun, List.mem_cons, exists_eq_or_imp]

theorem decodeRun_silent (u : Sink Byte) (pieces : List (List Byte)) (p : Cdecode) :
    ∀ rc, rc ∈ (decodeRun .base64 u pieces p).1 → rc = 0 := by
  induction pieces generalizing p with
  | nil =>
    intro rc hMem
    have hCode : (cdecodeEnd .base64 u p).1 = 0 := @decodeBase64_silent u p none
    exact (List.mem_singleton.mp hMem).trans hCode
  | cons s pieces ih =>
    intro rc hMem
    rcases List.mem_cons.mp hMem with hFirst | hRest
    · have hCode : (cdecode .base64 u p s).1 = 0 := by
        unfold cdecode
        split
        · rfl
        · exact decodeBase64_silent (some s)
      exact hFirst.trans hCode
    · exact ih _ rc hRest

/-
  The fragments of a base64 body, after the text in
  `workbuf`: every time the buffer holds more than 256 bytes,
  and at the end, the complete groups in it are decoded.
-/
def base64Fragments (workbuf : List Byte) : List (List Byte) → List (List Byte)
  | [] => [decode64Groups (workbuf.filter isBase64)]
  | s :: pieces =>
    if s = [] then
      base64Fragments workbuf pieces
    else if (workbuf ++ s).length > 256 then
      let data := (workbuf ++ s).filter isBase64
      decode64Groups data :: base64Fragments (decode64Rest data) pieces
    else
      base64Fragments (workbuf ++ s) pieces

theorem base64Fragments_cons (workbuf s : List Byte) (pieces : List (List Byte)) :
    base64Fragments workbuf (s :: pieces) =
      if s = [] then
        base64Fragments workbuf pieces
      else if (workbuf ++ s).length > 256 then
        decode64Groups ((workbuf ++ s).filter isBase64) :: base64Fragments
            (decode64Rest ((workbuf ++ s).filter isBase64))
            pieces
      else
        base64Fragments (workbuf ++ s) pieces :=
  rfl

theorem decodeRun_fragments (u : Sink Byte) (pieces : List (List Byte)) (p : Cdecode) :
    (decodeRun .base64 u pieces p).2.sent = p.sent ++ base64Fragments p.workbuf pieces := by
  induction pieces generalizing p with
  | nil => rfl
  | cons s pieces ih =>
    have hRun : (decodeRun .base64 u (s :: pieces) p).2 = (decodeRun .base64 u pieces
          (cdecode .base64 u p s).2).2 :=
      rfl
    rw [hRun, ih, base64Fragments_cons]
    by_cases hEmpty : s = []
    · have hIdle : cdecode .base64 u p s = (0, p) := if_pos hEmpty
      rw [hIdle, if_pos hEmpty]
    · have hCall : cdecode .base64 u p s = decodeBase64 u p (some s) := if_neg hEmpty
      rw [hCall, if_neg hEmpty]
      by_cases hLong : (p.workbuf ++ s).length > 256
      · have hFlush : decodeBase64 u p (some s) = doDecodeBase64 u (p.addWorkbuf s) :=
          if_pos hLong
        rw [hFlush, if_pos hLong]
        exact List.append_assoc _ _ _
      · have hKeep : decodeBase64 u p (some s) = (0, p.addWorkbuf s) := if_neg hLong
        rw [hKeep, if_neg hLong]
        rfl

/-
  Raw and quoted-printable bodies report every error of the
  callback, base64 bodies none.
-/
theorem reported_iff (func : DecodeFunc) (u : Sink Byte) (pieces : List (List Byte)) :
    Reported func u pieces ↔ func ≠ .base64 ∨ ¬ u.Fails [] (base64Fragments [] pieces) := by
  by_cases hFunc : func = .base64
  · have hSent := decodeRun_fragments u pieces { workbuf := [], sent := [] }
    rw [List.nil_append] at hSent
    rw [hFunc, ← hSent]
    constructor
    · intro hReported
      right
      intro hFails
      rcases hReported hFails with ⟨rc, hMem, hBad⟩
      exact hBad (decodeRun_silent u pieces _ rc hMem)
    · rintro (hOther | hNone)
      · exact absurd rfl hOther
      · intro hFails
        exact absurd hFails hNone
  · refine iff_of_true ?_ (Or.inl hFunc)
    intro hFails
    rcases decodeRun_reports hFunc u pieces { workbuf := [], sent := [] } with ⟨more, hSent, hIff⟩
    rw [hSent, List.nil_append] at hFails
    exact hIff.mpr hFails

/- A callback that refuses everything, and `abc` in base64. -/
theorem not_reported_base64 : ¬ Reported .base64 (fun _ _ => -1) [bytes "YWJj"] := by
  intro hReported
  have hFails : Sink.Fails (fun _ _ => -1 : Sink Byte) []
      (decodeRun .base64 (fun _ _ => -1) [bytes "YWJj"]
        { workbuf := [], sent := [] }).2.sent := by
    refine ⟨[], bytes "abc", [], by decide, ?_⟩
    decide
  rcases hReported hFails with ⟨rc, hMem, hBad⟩
  exact hBad (decodeRun_silent _ _ _ rc hMem)

end Wmail.Rfc2045
