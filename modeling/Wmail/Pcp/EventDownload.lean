import Wmail.Pcp.EventUpload

/-
  The text of an event on its way from the calendar server to
  a client (pcpd.c, pcpnet.c).

  Key theorems include:
    * `retrLoop_cr`
    * `retr107_retrText_iff`
-/

namespace Wmail.Pcp

/- `struct retrinfo`, as far as a text is concerned. -/
structure RetrInfo where
  textFlag : Bool
  textSeenEol : Bool

/- `callback_retr_begin`. -/
def callbackRetrBegin : RetrInfo where
  textFlag := false
  textSeenEol := true

/- The loop of `callback_retr_message`. -/
def retrBytes : Bool → List Byte → Bool × List Byte
  | seeneol, [] => (seeneol, [])
  | seeneol, c :: ptr =>
    let (last, out) := retrBytes (c = nl) ptr
    (last, stuffByte seeneol c ++ out)

/- `callback_retr_message`, and what it prints. -/
def callbackRetrMessage (eventId : List Byte) (ri : RetrInfo) (ptr : List Byte) :
    RetrInfo × List Byte :=
  let header :=
    if ri.textFlag then [] else bytes "107 " ++ eventId ++ bytes " follows\n"
  let (seeneol, out) := retrBytes ri.textSeenEol ptr
  (⟨true, seeneol⟩, header ++ out)

/- `callback_retr_end`. -/
def callbackRetrEnd (ri : RetrInfo) : List Byte :=
  if ri.textFlag then (if ri.textSeenEol then [] else [nl]) ++ bytes ".\n" else []

/- The calls for one text. -/
def retrMessages (eventId : List Byte) : RetrInfo → List (List Byte) → List Byte
  | ri, [] => callbackRetrEnd ri
  | ri, ptr :: pieces =>
    let (next, out) := callbackRetrMessage eventId ri ptr
    out ++ retrMessages eventId next pieces

/- What is printed for a text. -/
def retrText (eventId : List Byte) (pieces : List (List Byte)) : List Byte :=
  retrMessages eventId callbackRetrBegin pieces

/-
  The variables of `retr_107`.  `ch` is a character that has
  been read and not been used, `calls` is what the callback
  has been given.
-/
structure Retr107 where
  rc : Bool
  ch : Option Byte
  seeneol : Bool
  seendot : Bool
  readbuf : List Byte
  calls : List (List Byte)

/- The callback, unless something has failed. -/
def Retr107.call (s : Retr107) : Retr107 :=
  if s.rc then
    { s with calls := s.calls ++ [s.readbuf], readbuf := [] }
  else
    { s with readbuf := [] }

/- One turn of the loop: it goes on, or it ends. -/
inductive RetrTurn where
  | goes (s : Retr107) (pn : Stream Byte)
  | ends (s : Retr107) (pn : Stream Byte)

/- The character that a turn looks at. -/
def Retr107.readch (s : Retr107) (pn : Stream Byte) : Option (Byte × Stream Byte) :=
  match s.ch with
  | some ch => some (ch, pn)
  | none => pn.getc

/- A character that is not a carriage return. -/
def Retr107.put (s : Retr107) (seendot : Bool) (ch : Byte) : Retr107 :=
  { s with
    ch := none
    seeneol := ch = nl
    seendot := seendot
    readbuf := if seendot then s.readbuf else s.readbuf ++ [ch] }

/- A full buffer is given to the callback. -/
def Retr107.store (s : Retr107) (seendot : Bool) (ch : Byte) : Retr107 :=
  let next := s.put seendot ch
  if 8192 ≤ next.readbuf.length then next.call else next

/- The loop's body. -/
def retrTurn (s : Retr107) (pn : Stream Byte) : RetrTurn :=
  match s.readch pn with
  | none => .ends { s with rc := false } pn
  | some (ch, pn) =>
    if ch = cr then
      .goes { s with ch := some ch } pn
    else if s.seeneol then
      .goes (s.store (ch = chr '.') ch) pn
    else if ch = nl ∧ s.seendot then
      .ends s pn
    else
      .goes (s.store false ch) pn

/- The loop; nothing is said about one that goes on. -/
def retrLoop : Nat → Retr107 → Stream Byte → Option (Retr107 × Stream Byte)
  | 0, _, _ => none
  | fuel + 1, s, pn =>
    match retrTurn s pn with
    | .goes s pn => retrLoop fuel s pn
    | .ends s pn => some (s.call, pn)

/- The reply line as `sscanf` reads it. -/
def sscanf107 (readbuf : List Byte) : Option (List Byte) :=
  match readbuf with
  | a :: b :: c :: _ :: rest =>
    let word := (rest.dropWhile isspace).takeWhile (!isspace ·)
    if [a, b, c] = bytes "107" ∧ word ≠ [] then some (word.take 511) else none
  | _ => none

/- Before the first character. -/
def Retr107.start (rc : Bool) : Retr107 where
  rc := rc
  ch := none
  seeneol := true
  seendot := true
  readbuf := []
  calls := []

/- `retr_107`, behind the reply line. -/
def retr107 (fuel : Nat) (readbuf : List Byte) (pn : Stream Byte) :
    Option (Retr107 × Stream Byte) :=
  retrLoop fuel (.start (sscanf107 readbuf).isSome) pn

theorem retrBytes_stuff (seeneol : Bool) (ptr rest : List Byte) : (retrBytes seeneol ptr).2 ++
        stuff (retrBytes seeneol ptr).1 rest =
      stuff seeneol (ptr ++ rest) := by
  induction ptr generalizing seeneol with
  | nil => rfl
  | cons c ptr ih =>
    rw [List.cons_append, stuff_cons, ← ih, ← List.append_assoc]
    rfl

theorem callbackRetrEnd_eq (seeneol : Bool) :
    callbackRetrEnd ⟨true, seeneol⟩ = stuff seeneol [] := by
  cases seeneol with
  | true => rfl
  | false => rfl

theorem retrMessages_eq (eventId : List Byte) (seeneol : Bool) (pieces : List (List Byte)) :
    retrMessages eventId ⟨true, seeneol⟩ pieces = stuff seeneol pieces.flatten := by
  induction pieces generalizing seeneol with
  | nil => exact callbackRetrEnd_eq seeneol
  | cons ptr pieces ih =>
    rw [List.flatten_cons, ← retrBytes_stuff, ← ih]
    rfl

/- The reply line. -/
def replyLine (eventId : List Byte) : List Byte :=
  bytes "107 " ++ eventId ++ bytes " follows"

/- A text is printed in the same way, whatever the calls. -/
theorem retrText_eq {pieces : List (List Byte)} (hSome : pieces ≠ []) (eventId : List Byte) :
    retrText eventId pieces = replyLine eventId ++ nl :: stuff true pieces.flatten := by
  have hLine : bytes " follows\n" = bytes " follows" ++ [nl] := rfl
  cases pieces with
  | nil => exact absurd rfl hSome
  | cons ptr pieces =>
    rw [List.flatten_cons, ← retrBytes_stuff, ← retrMessages_eq eventId]
    unfold retrText replyLine
    rw [retrMessages]
    simp only [callbackRetrMessage, callbackRetrBegin, hLine, Bool.false_eq_true, if_false,
      List.append_assoc, List.cons_append, List.nil_append]

theorem isSome_sscanf107 (eventId : List Byte) : (sscanf107 (replyLine eventId)).isSome = true := by
  have hLine : replyLine eventId = 49 :: 48 :: 55 :: 32 :: (eventId ++ bytes " follows") := rfl
  have hWord : ((eventId ++ bytes " follows").dropWhile isspace).takeWhile (!isspace ·) ≠ [] := by
    cases hDrop : (eventId ++ bytes " follows").dropWhile isspace with
    | nil =>
      rw [List.dropWhile_eq_nil_iff] at hDrop
      have hLetter := hDrop (chr 'f') (List.mem_append_right _ (by decide))
      exact absurd hLetter (by decide)
    | cons b rest =>
      have hStop : isspace b = false := by
        apply head_dropWhile_stop b
        rw [hDrop]
        rfl
      rw [List.takeWhile_cons_of_pos (by rw [hStop]; rfl)]
      exact List.cons_ne_nil _ _
  rw [hLine, sscanf107, if_pos ⟨rfl, hWord⟩]
  rfl

/- All that has been stored. -/
def Retr107.text (s : Retr107) : List Byte :=
  s.calls.flatten ++ s.readbuf

/-
  The client waits for the next byte of a text, when nothing
  has failed.
-/
structure Waiting (s : Retr107) (pn : Stream Byte) (written : Bool) (got rest : List Byte) :
    Prop where
  rc : s.rc = true
  ch : s.ch = none
  seeneol : s.seeneol = written
  seendot : written = false → s.seendot = false
  got : s.text = got
  rest : pn.contents = rest

/- The loop gets from one state to another. -/
def Reaches (s : Retr107) (pn : Stream Byte) (next : Retr107) (more : Stream Byte) : Prop :=
  ∃ turns, ∀ fuel, retrLoop (turns + fuel) s pn = retrLoop fuel next more

section Loop

variable {s next last : Retr107} {pn more final : Stream Byte}

theorem Reaches.trans (hFirst : Reaches s pn next more)
    (hSecond : Reaches next more last final) : Reaches s pn last final := by
  rcases hFirst with ⟨turns, hFirst⟩
  rcases hSecond with ⟨others, hSecond⟩
  refine ⟨turns + others, fun fuel => ?_⟩
  rw [Nat.add_assoc, hFirst, hSecond]

theorem Reaches.turn (hTurn : retrTurn s pn = .goes next more) : Reaches s pn next more := by
  refine ⟨1, fun fuel => ?_⟩
  rw [Nat.add_comm, retrLoop, hTurn]

theorem Retr107.call_text {s : Retr107} (hRc : s.rc = true) : s.call.text = s.text := by
  unfold call text
  rw [if_pos hRc]
  simp

theorem Retr107.call_fields (s : Retr107) :
    s.call.rc = s.rc ∧ s.call.ch = s.ch ∧ s.call.seeneol = s.seeneol ∧
        s.call.seendot = s.seendot := by
  unfold call
  split
  · exact ⟨rfl, rfl, rfl, rfl⟩
  · exact ⟨rfl, rfl, rfl, rfl⟩

theorem Retr107.store_text {s : Retr107} (hRc : s.rc = true) (seendot : Bool) (ch : Byte) :
    (s.store seendot ch).text = s.text ++ if seendot then [] else [ch] := by
  have hPut : (s.put seendot ch).text = s.text ++ if seendot then [] else [ch] := by
    unfold put text
    cases seendot with
    | true => simp
    | false => simp
  have hHere : (s.put seendot ch).rc = true := hRc
  unfold store
  dsimp only
  split
  · rw [call_text hHere, hPut]
  · exact hPut

theorem Retr107.store_fields (s : Retr107) (seendot : Bool) (ch : Byte) :
    (s.store seendot ch).rc = s.rc ∧
      (s.store seendot ch).ch = none ∧
        (s.store seendot ch).seeneol = decide (ch = nl) ∧
          (s.store seendot ch).seendot = seendot := by
  unfold store
  dsimp only
  split
  · exact (s.put seendot ch).call_fields
  · exact ⟨rfl, rfl, rfl, rfl⟩

/- One character that is read and dealt with. -/
theorem retrTurn_store {ch : Byte} {rest : List Byte} (hCh : s.ch = none)
    (hContents : pn.contents = ch :: rest) (hCr : ch ≠ cr)
    (hGo : s.seeneol = true ∨ ¬ (ch = nl ∧ s.seendot = true)) :
    ∃ more : Stream Byte, retrTurn s pn = .goes (s.store (s.seeneol && ch = chr '.') ch) more ∧
        more.contents = rest := by
  rcases Stream.getc_contents hContents with ⟨more, hGet, hMore⟩
  refine ⟨more, ?_, hMore⟩
  unfold retrTurn Retr107.readch
  rw [hCh]
  dsimp only
  rw [hGet]
  dsimp only
  rw [if_neg hCr]
  by_cases hEol : s.seeneol = true
  · rw [if_pos hEol, hEol, Bool.true_and]
  · rw [if_neg hEol, if_neg (hGo.resolve_left hEol)]
    rw [Bool.not_eq_true] at hEol
    rw [hEol, Bool.false_and]

/- The newline behind a dot that begins a line. -/
theorem retrTurn_end {rest : List Byte} (hCh : s.ch = none) (hEol : s.seeneol = false)
    (hDot : s.seendot = true) (hContents : pn.contents = nl :: rest) :
    ∃ more : Stream Byte, retrTurn s pn = .ends s more ∧ more.contents = rest := by
  rcases Stream.getc_contents hContents with ⟨more, hGet, hMore⟩
  refine ⟨more, ?_, hMore⟩
  have hCr : ¬ nl = cr := by decide
  have hNot : ¬ s.seeneol = true := Bool.eq_false_iff.mp hEol
  unfold retrTurn Retr107.readch
  rw [hCh]
  dsimp only
  rw [hGet]
  dsimp only
  rw [if_neg hCr, if_neg hNot, if_pos ⟨rfl, hDot⟩]

/- A carriage return is never got rid of. -/
theorem retrLoop_cr {rest : List Byte} (hCh : s.ch = none)
    (hContents : pn.contents = cr :: rest) (fuel : Nat) : retrLoop fuel s pn = none := by
  have hStuck : ∀ fuel s pn, s.ch = some cr → retrLoop fuel s pn = none := by
    intro fuel
    induction fuel with
    | zero =>
      intro s pn _
      rfl
    | succ fuel ih =>
      intro s pn hHere
      have hTurn : retrTurn s pn = .goes { s with ch := some cr } pn := by
        unfold retrTurn Retr107.readch
        rw [hHere]
        rfl
      rw [retrLoop, hTurn]
      exact ih _ pn rfl
  cases fuel with
  | zero => rfl
  | succ fuel =>
    rcases Stream.getc_contents hContents with ⟨more, hGet, _⟩
    have hTurn : retrTurn s pn = .goes { s with ch := some cr } more := by
      unfold retrTurn Retr107.readch
      rw [hCh]
      dsimp only
      rw [hGet]
      rfl
    rw [retrLoop, hTurn]
    exact hStuck fuel _ more rfl

variable {got rest : List Byte}

/- Where a stored character leaves the client. -/
theorem Waiting.store {written : Bool} {ch : Byte}
    (hWait : Waiting s pn written got (ch :: rest)) (hCr : ch ≠ cr)
    (hDot : ¬ (written = true ∧ ch = chr '.')) :
    ∃ next more, Reaches s pn next more ∧ Waiting next more (ch = nl) (got ++ [ch]) rest := by
  have hGo : s.seeneol = true ∨ ¬ (ch = nl ∧ s.seendot = true) := by
    cases written with
    | true => exact Or.inl hWait.seeneol
    | false =>
      right
      rw [hWait.seendot rfl]
      exact nofun
  have hPlain : (s.seeneol && decide (ch = chr '.')) = false := by
    rw [hWait.seeneol]
    simpa using hDot
  rcases retrTurn_store hWait.ch hWait.rest hCr hGo with ⟨more, hTurn, hMore⟩
  rw [hPlain] at hTurn
  rcases s.store_fields false ch with ⟨hRc, hCh, hEol, hSeen⟩
  refine ⟨s.store false ch, more, Reaches.turn hTurn, ?_⟩
  constructor
  · exact hRc.trans hWait.rc
  · exact hCh
  · exact hEol
  · exact fun _ => hSeen
  · rw [Retr107.store_text hWait.rc, hWait.got]
    rfl
  · exact hMore

/- A dot that begins a line. -/
theorem Waiting.dot (hWait : Waiting s pn true got (chr '.' :: rest)) :
    ∃ next more, Reaches s pn next more ∧ next.rc = true ∧
        next.ch = none ∧ next.seeneol = false ∧
          next.seendot = true ∧ next.text = got ∧ more.contents = rest := by
  have hCr : chr '.' ≠ cr := by decide
  rcases retrTurn_store hWait.ch hWait.rest hCr (Or.inl hWait.seeneol) with ⟨more, hTurn, hMore⟩
  rw [hWait.seeneol] at hTurn
  rcases s.store_fields true (chr '.') with ⟨hRc, hCh, hEol, hSeen⟩
  refine ⟨s.store true (chr '.'), more, Reaches.turn hTurn,
    hRc.trans hWait.rc, hCh, hEol, hSeen, ?_, hMore⟩
  rw [Retr107.store_text hWait.rc, hWait.got]
  exact List.append_nil _

/- One byte of the text, with the dot in front of it. -/
theorem Waiting.byte {written : Bool} {c : Byte}
    (hWait : Waiting s pn written got (stuffByte written c ++ rest)) (hCr : c ≠ cr) :
    ∃ next more, Reaches s pn next more ∧ Waiting next more (c = nl) (got ++ [c]) rest := by
  by_cases hDot : written = true ∧ c = chr '.'
  · rcases hDot with ⟨hWritten, hByte⟩
    subst written c
    rcases Waiting.dot hWait with ⟨next, more, hReach, hRc, hCh, hEol, hSeen, hGot, hMore⟩
    have hGo : next.seeneol = true ∨ ¬ (chr '.' = nl ∧ next.seendot = true) :=
      Or.inr (fun hBoth => absurd hBoth.1 (by decide))
    rcases retrTurn_store hCh hMore hCr hGo with ⟨final, hTurn, hFinal⟩
    rw [hEol] at hTurn
    rcases next.store_fields false (chr '.') with ⟨hLastRc, hLastCh, hLastEol, hLastSeen⟩
    refine ⟨next.store false (chr '.'), final, hReach.trans (Reaches.turn hTurn), ?_⟩
    constructor
    · exact hLastRc.trans hRc
    · exact hLastCh
    · exact hLastEol
    · exact fun _ => hLastSeen
    · rw [Retr107.store_text hRc, hGot]
      rfl
    · exact hFinal
  · have hByte : stuffByte written c = [c] := by
      unfold stuffByte
      rw [if_neg]
      simpa using hDot
    rw [hByte] at hWait
    exact hWait.store hCr hDot

/- The line that ends the text. -/
theorem Waiting.finish (hWait : Waiting s pn true got (chr '.' :: nl :: rest)) :
    ∃ fuel last final, retrLoop fuel s pn = some (last, final) ∧
        last.rc = true ∧ last.calls.flatten = got ∧ final.contents = rest := by
  rcases hWait.dot with ⟨next, more, hReach, hRc, hCh, hEol, hSeen, hGot, hMore⟩
  rcases retrTurn_end hCh hEol hSeen hMore with ⟨final, hTurn, hFinal⟩
  rcases hReach with ⟨turns, hReach⟩
  refine ⟨turns + 1, next.call, final, ?_, ?_, ?_, hFinal⟩
  · rw [hReach 1, retrLoop, hTurn]
  · exact next.call_fields.1.trans hRc
  · have hText := Retr107.call_text hRc
    unfold Retr107.call at hText ⊢
    rw [if_pos hRc] at hText ⊢
    unfold Retr107.text at hText hGot
    dsimp only at hText ⊢
    rw [List.append_nil] at hText
    rw [hText, hGot]

/- Without carriage returns the client gets the text. -/
theorem Waiting.text {written : Bool} {got text rest : List Byte} (hText : cr ∉ text)
    (hWait : Waiting s pn written got (stuff written text ++ rest)) :
    ∃ fuel last final, retrLoop fuel s pn = some (last, final) ∧
        last.rc = true ∧ last.calls.flatten = got ++ plain written text ∧
            final.contents = rest := by
  induction text generalizing s pn written got with
  | nil =>
    cases written with
    | true =>
      have hEnd := hWait.finish
      rwa [← List.append_nil got] at hEnd
    | false =>
      have hCr : nl ≠ cr := by decide
      rcases hWait.store hCr nofun with ⟨next, more, hReach, hNext⟩
      rcases hNext.finish with ⟨fuel, last, final, hRun, hLast⟩
      rcases hReach with ⟨turns, hReach⟩
      exact ⟨turns + fuel, last, final, (hReach fuel).trans hRun, hLast⟩
  | cons c text ih =>
    rw [List.mem_cons, not_or] at hText
    rw [stuff_cons, List.append_assoc] at hWait
    rcases hWait.byte (Ne.symm hText.1) with ⟨next, more, hReach, hNext⟩
    rcases ih hText.2 hNext with ⟨fuel, last, final, hRun, hRc, hCalls, hFinal⟩
    rcases hReach with ⟨turns, hReach⟩
    refine ⟨turns + fuel, last, final, (hReach fuel).trans hRun, hRc, ?_, hFinal⟩
    rw [hCalls, plain_cons, if_neg (Ne.symm hText.1), List.append_assoc]
    rfl

end Loop

/- More turns change nothing. -/
theorem retrLoop_more {fuel : Nat} {s : Retr107} {pn : Stream Byte}
    {found : Retr107 × Stream Byte} (hRun : retrLoop fuel s pn = some found) (turns : Nat) :
    retrLoop (fuel + turns) s pn = some found := by
  induction fuel generalizing s pn with
  | zero => cases hRun
  | succ fuel ih =>
    rw [Nat.succ_add, retrLoop]
    rw [retrLoop] at hRun
    cases hTurn : retrTurn s pn with
    | goes next more =>
      rw [hTurn] at hRun
      exact ih hRun
    | ends last final =>
      rw [hTurn] at hRun
      exact hRun

/- With one it never ends. -/
theorem Waiting.stuck {s : Retr107} {pn : Stream Byte} {written : Bool}
    {got text rest : List Byte} (hText : cr ∈ text)
    (hWait : Waiting s pn written got
      (stuff written text ++ rest)) (fuel : Nat) : retrLoop fuel s pn = none := by
  induction text generalizing s pn written got with
  | nil => cases hText
  | cons c text ih =>
    rw [stuff_cons, List.append_assoc] at hWait
    by_cases hCr : c = cr
    · subst c
      have hByte : stuffByte written cr = [cr] := by
        cases written with
        | true => rfl
        | false => rfl
      rw [hByte] at hWait
      exact retrLoop_cr hWait.ch hWait.rest fuel
    · have hMore : cr ∈ text := by
        rcases List.mem_cons.mp hText with hHere | hIn
        · exact absurd hHere.symm hCr
        · exact hIn
      rcases hWait.byte hCr with ⟨next, more, ⟨turns, hReach⟩, hNext⟩
      have hNone := ih hMore hNext
      rw [← hReach] at hNone
      cases hRun : retrLoop fuel s pn with
      | none => rfl
      | some found =>
        have hSome := retrLoop_more hRun turns
        rw [Nat.add_comm, hNone] at hSome
        cases hSome

/-
  However the text is cut, the client gets it and reads
  nothing behind it, unless the text is empty or has a
  carriage return.
-/
theorem retr107_retrText_iff {eventId : List Byte} (hId : nl ∉ eventId)
    {pieces : List (List Byte)} {readbuf body more : List Byte} (hLine : nl ∉ readbuf)
    (hReply : retrText eventId pieces = readbuf ++ nl :: body) {pn : Stream Byte}
    (hArrives : pn.contents = body ++ more) :
    (∃ fuel last final,
        retr107 fuel readbuf pn = some (last, final) ∧ last.rc = true ∧
            last.calls.flatten = received pieces.flatten ∧ final.contents = more) ↔
      pieces.flatten ≠ [] ∧ cr ∉ pieces.flatten := by
  have hSome : pieces ≠ [] := by
    intro hNone
    rw [hNone] at hReply
    have hLength := congrArg List.length hReply
    rw [List.length_append, List.length_cons] at hLength
    exact absurd hLength (by simp [retrText, retrMessages, callbackRetrEnd, callbackRetrBegin])
  have hHeader : nl ∉ replyLine eventId := by
    unfold replyLine
    simp only [List.mem_append, not_or]
    exact ⟨⟨by decide, hId⟩, by decide⟩
  have hSame := cutAt_quoted hLine body
  rw [← hReply, retrText_eq hSome, cutAt_quoted hHeader] at hSame
  cases hSame
  have hWait : Waiting (.start (sscanf107 (replyLine eventId)).isSome) pn true []
      (stuff true pieces.flatten ++ more) :=
    ⟨isSome_sscanf107 eventId, rfl, rfl, nofun, rfl, hArrives⟩
  by_cases hCr : cr ∈ pieces.flatten
  · constructor
    · rintro ⟨fuel, last, final, hRun, _⟩
      have hNone := hWait.stuck hCr fuel
      unfold retr107 at hRun
      rw [hNone] at hRun
      cases hRun
    · intro hBoth
      exact absurd hCr hBoth.2
  · rcases hWait.text hCr with ⟨fuel, last, final, hRun, hRc, hCalls, hFinal⟩
    constructor
    · rintro ⟨other, found, behind, hOther, _, hGot, _⟩
      refine ⟨?_, hCr⟩
      intro hNone
      have hFirst := retrLoop_more hRun other
      have hSecond := retrLoop_more hOther fuel
      rw [Nat.add_comm, hFirst] at hSecond
      cases hSecond
      rw [hCalls, hNone] at hGot
      cases hGot
    · intro hBoth
      refine ⟨fuel, last, final, hRun, hRc, ?_, hFinal⟩
      rw [hCalls, plain_eq hBoth.1]
      rfl

/- A text with a dot, and without its last newline. -/
def dottedReply : Stream Byte where
  held := []
  coming := [bytes "a\n.", bytes ".b\n.\n108 RETR complete\n"]
  ready := by
    decide

theorem retr107_dotted : ∃ fuel last final,
      retr107 fuel (bytes "107 5@joe follows") dottedReply = some (last, final) ∧
        last.rc = true ∧ last.calls.flatten = received [bytes "a\n", bytes ".b"].flatten ∧
            final.contents = bytes "108 RETR complete\n" :=
  (retr107_retrText_iff (show nl ∉ bytes "5@joe" by decide)
    (show nl ∉ bytes "107 5@joe follows" by decide)
    (show retrText (bytes "5@joe") [bytes "a\n", bytes ".b"] =
      bytes "107 5@joe follows" ++ nl :: bytes "a\n..b\n.\n" by
        decide)
    (show dottedReply.contents = _ by decide)).mpr
    ⟨by decide, by decide⟩

/- A text with a carriage return. -/
def returnedReply : Stream Byte where
  held := []
  coming := [bytes "a\r\n.\n108 RETR complete\n"]
  ready := by
    decide

/- The client never gets to the end of it. -/
theorem retr107_returned : retrText (bytes "5@joe") [bytes "a\r\n"] =
        bytes "107 5@joe follows" ++ nl :: bytes "a\r\n.\n" ∧
      returnedReply.contents = bytes "a\r\n.\n" ++ bytes "108 RETR complete\n" ∧
        ¬ ∃ fuel found, retr107 fuel (bytes "107 5@joe follows") returnedReply = some found := by
  have hFound : (sscanf107 (bytes "107 5@joe follows")).isSome = true := by decide
  have hWait : Waiting (.start true) returnedReply true [] (stuff true (bytes "a\r\n") ++
        bytes "108 RETR complete\n") :=
    ⟨rfl, rfl, rfl, nofun, rfl, by decide⟩
  refine ⟨by decide, by decide, ?_⟩
  rintro ⟨fuel, found, hRun⟩
  have hNone := hWait.stuck (by decide) fuel
  unfold retr107 at hRun
  rw [hFound, hNone] at hRun
  cases hRun

------------
-- From One Client To Another
------------

/- Any reply with the stored text gives it to a client. -/
def Delivered (text : List Byte) : Prop :=
  ∀ (eventId readbuf body more : List Byte) (pieces : List (List Byte)) (pn : Stream Byte),
    nl ∉ eventId → nl ∉ readbuf → pieces.flatten = text →
      retrText eventId pieces = readbuf ++ nl :: body → pn.contents = body ++ more →
        ∃ fuel last final, retr107 fuel readbuf pn = some (last, final) ∧ last.rc = true ∧
          last.calls.flatten = text ∧ final.contents = more

theorem delivered {text : List Byte} (hCr : cr ∉ text) (hLast : text.getLast? = some nl) :
    Delivered text := by
  intro eventId readbuf body more pieces pn hId hLine hText hReply hArrives
  have hSome : text ≠ [] := by
    rintro rfl
    cases hLast
  have hPieces : pieces ≠ [] := by
    rintro rfl
    exact hSome hText.symm
  have hHeader : nl ∉ replyLine eventId :=
    List.not_mem_append (List.not_mem_append (by decide) hId) (by decide)
  have hSame := cutAt_quoted hLine body
  rw [← hReply, retrText_eq hPieces, cutAt_quoted hHeader, hText] at hSame
  cases hSame
  have hWait : Waiting (.start (sscanf107 (replyLine eventId)).isSome) pn true []
      (stuff true text ++ more) :=
    ⟨isSome_sscanf107 eventId, rfl, rfl, nofun, rfl, hArrives⟩
  rcases hWait.text hCr with ⟨fuel, last, final, hRun, hRc, hCalls, hFinal⟩
  refine ⟨fuel, last, final, hRun, hRc, ?_, hFinal⟩
  have hAll : text.filter (· ≠ cr) = text := List.filter_eq_self.mpr fun c hMem =>
    decide_eq_true fun hIs => hCr (hIs ▸ hMem)
  rw [hCalls, plain_eq hSome, hAll, if_pos hLast, List.append_nil]
  rfl

/-
  Whatever a client sends as the text of an event, the server
  stores a text that every client gets back as it is, however
  it is cut: the loop over a carriage return is not reached.
-/
theorem saveevent_delivered {pieces : List (List Byte)}
    (hPieces : ∀ piece, piece ∈ pieces → piece ≠ []) {size : Nat} (hSize : 0 < size)
    {input : Stream Byte} {more : List Byte}
    (hArrives : input.contents = (neweventidText pieces).flatten ++ more) :
    ∃ text, (saveevent size .fresh input).1 = some text ∧
      (saveevent size .fresh input).2.1.tmpfile = text ∧ (text = [] ∨ Delivered text) := by
  rw [neweventidText_flatten hPieces] at hArrives
  rcases undot_stuff_length true .start pieces.flatten (fun _ => rfl) nofun more with
    ⟨got, tail, hRun, _⟩
  have hReading : Reading .fresh input got tail := ⟨rfl, hArrives ▸ hRun⟩
  rcases saveevent_reading hSize hReading with ⟨next, final, hSave, hFile, _⟩
  rw [hSave]
  refine ⟨got, rfl, hFile, ?_⟩
  rcases undot_ends hRun with ⟨hCr, hLast | ⟨hNone, _⟩⟩
  · exact Or.inr (delivered hCr hLast)
  · exact Or.inl hNone

theorem saveevent_delivered_hidden :
    ∃ text, (saveevent 8192 .fresh hiddenUpload).1 = some text ∧
      (saveevent 8192 .fresh hiddenUpload).2.1.tmpfile = text ∧ (text = [] ∨ Delivered text) :=
  saveevent_delivered (show ∀ piece, piece ∈ [hiddenText] → piece ≠ [] by decide) (by decide)
    (show hiddenUpload.contents = _ ++ [] by decide)

end Wmail.Pcp
