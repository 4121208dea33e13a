import Wmail.Pcp.EventDownload
import Mathlib.Data.List.DropRight

/-
  The headers of an event on their way from the calendar
  server to a client (rfc822hdr.c, pcpdir.c, pcpd.c,
  pcpnet.c).

  Key theorems include:
    * `hdrLoop_lines`
    * `retr107Headers_iff`
-/

namespace Wmail.Pcp

/- `++n`, unless there are `maxsize` bytes already. -/
def putHeader (header : List Byte) (c : Byte) : List Byte :=
  if header.length + 3 ≤ 8192 then header ++ [c] else header

/- Whether the line behind a newline goes on with the header. -/
def wraps (rest : List Byte) : Bool :=
  match rest with
  | [] => false
  | c :: _ => c ≠ nl && c ≠ cr && isspace c

/- `rfc822hdr_read`: the header, and what is behind it. -/
def rfc822hdrRead (header : List Byte) : List Byte → List Byte × List Byte
  | [] => (header, [])
  | c :: rest =>
    if c = nl ∧ (header = [] ∨ wraps rest = false) then
      (header, rest)
    else
      rfc822hdrRead (putHeader header c) rest

/- The name and the value of a header, a C string. -/
def hdrSplit (header : List Byte) : List Byte × List Byte :=
  let text := header.takeWhile (· ≠ 0)
  let name := text.takeWhile (· ≠ chr ':')
  (name, (text.drop (name.length + 1)).dropWhile isspace)

/- `retrheaders`: every header takes a byte at least. -/
def retrheaders : Nat → List Byte → List (List Byte × List Byte)
  | 0, _ => []
  | fuel + 1, file =>
    let r := rfc822hdrRead [] file
    if r.1 = [] then [] else hdrSplit r.1 :: retrheaders fuel r.2

def storedHeaders (file : List Byte) : List (List Byte × List Byte) :=
  retrheaders file.length file

/- Whether a character of a value is printed. -/
def shown (c : Byte) : Bool :=
  32 ≤ c || c = nl || c = 9

def printable (v : List Byte) : List Byte :=
  v.filter shown

/- `callback_retr_headers`, behind the reply line. -/
def headerLine (p : List Byte × List Byte) : List Byte :=
  let v := printable (p.2.dropWhile isspace)
  (if p.1.head? = some (chr '.') then [chr '.'] else []) ++
    (p.1 ++ bytes ": " ++ v ++ if v.getLast? = some nl then [] else [nl])

/- What is printed for an event with headers. -/
def retrHeaders (eventId : List Byte) (ps : List (List Byte × List Byte)) : List Byte :=
  if ps = [] then
    []
  else
    replyLine eventId ++ nl :: (ps.flatMap headerLine ++ callbackRetrEnd ⟨true, true⟩)

/- The variables of `retr_107`, and what the callback got. -/
structure Hdr107 where
  rc : Bool
  seeneol : Bool
  seendot : Bool
  readbuf : List Byte
  calls : List (List Byte × List Byte)

/- The next character is any, behind a newline, or in a fold. -/
inductive HdrMode where
  | read
  | peek
  | fold
deriving DecidableEq

/-
  What a newline before this character was: the end of the
  header, which the callback gets, or a blank.
-/
def HdrMode.newline (s : Hdr107) : HdrMode → Hdr107
  | read => s
  | peek =>
    { s with
      calls := if s.rc then s.calls ++ [hdrSplit s.readbuf.dropLast] else s.calls
      readbuf := [] }
  | fold => { s with readbuf := s.readbuf.dropLast ++ [chr ' '] }

/- A character is stored, unless it is a dot at the start. -/
def Hdr107.store (s : Hdr107) (ch : Byte) : Hdr107 :=
  let seendot := s.seeneol && ch = chr '.'
  { s with
    seeneol := ch = nl
    seendot := seendot
    readbuf := (if seendot then s.readbuf else s.readbuf ++ [ch]).take 8192 }

/-
  The loop of `retr_107` for headers: what is left to read
  behind the dot line, none where the reply ends before it.
  A carriage return is never left.
-/
def hdrLoop : HdrMode → Hdr107 → List Byte → Option (Hdr107 × List Byte)
  | _, _, [] => none
  | mode, s, ch :: rest =>
    if mode ≠ .read ∧ ch ≠ nl ∧ isspace ch = true then
      hdrLoop .fold s rest
    else
      let s := mode.newline s
      if ch = cr then
        none
      else if s.seeneol = false ∧ ch = nl ∧ s.seendot = true then
        some (s, rest)
      else
        hdrLoop (if ch = nl then .peek else .read) (s.store ch) rest

/- Whether all went well, what the callback got, what is left. -/
def outcome (r : Hdr107 × List Byte) : Bool × List (List Byte × List Byte) × List Byte :=
  (r.1.rc, r.1.calls, r.2)

/- `retr_107`, behind the reply line. -/
def retr107Headers (readbuf rest : List Byte) :
    Option (Bool × List (List Byte × List Byte) × List Byte) :=
  (hdrLoop .read ⟨(sscanf107 readbuf).isSome, true, true, [], []⟩ rest).map outcome

/- Every newline and the white space after it as a blank. -/
def foldsJoined : Bool → List Byte → List Byte
  | _, [] => []
  | inFold, c :: rest =>
    if c = nl then
      chr ' ' :: foldsJoined true rest
    else if inFold && isspace c then
      foldsJoined true rest
    else
      c :: foldsJoined false rest

/- What the client should get for a header. -/
def expected (p : List Byte × List Byte) : List Byte × List Byte :=
  (p.1, foldsJoined false (printable p.2))

/- The white space of a fold has a dot behind it. -/
def dotted (rest : List Byte) : Bool :=
  (rest.dropWhile fun c => c ≠ nl && isspace c).head? = some (chr '.')

/- Every newline has white space behind it, and no dot behind that. -/
def framed : List Byte → Bool
  | [] => true
  | c :: rest => (c ≠ nl || wraps rest && !dotted rest) && framed rest

/- A value that gets to the client. -/
def carried (v : List Byte) : Bool :=
  framed (printable v) && !(printable v).head?.any isspace

theorem ne_cr {c : Byte} (hC : shown c = true) : c ≠ cr := by
  rintro rfl
  cases hC

theorem carried_iff (v : List Byte) : carried v = true ↔ framed (printable v) = true ∧
      (foldsJoined false (printable v)).dropWhile isspace = foldsJoined false (printable v) := by
  have hSpaces : isspace (chr ' ') = true ∧ isspace nl = true := by decide
  unfold carried
  rw [Bool.and_eq_true]
  refine and_congr_right fun _ => ?_
  cases printable v with
  | nil => simp [foldsJoined]
  | cons c rest =>
    rw [List.dropWhile_eq_self_iff]
    by_cases hNl : c = nl
    · simp [foldsJoined, hNl, hSpaces]
    · simp [foldsJoined, hNl]

theorem zero_foldsJoined {text : List Byte} (hText : 0 ∉ text) (inFold : Bool) :
    0 ∉ foldsJoined inFold text := by
  have hBlank : chr ' ' ≠ 0 := by decide
  induction text generalizing inFold with
  | nil => exact List.not_mem_nil
  | cons c text ih =>
    rw [List.mem_cons, not_or] at hText
    unfold foldsJoined
    split
    · simpa [hBlank.symm] using ih hText.2 true
    · split
      · exact ih hText.2 true
      · simpa [hText.1] using ih hText.2 false

/- A newline at the end is no fold. -/
theorem framed_append_nl (text : List Byte) : framed (text ++ [nl]) = false := by
  induction text with
  | nil => rfl
  | cons c text ih => rw [List.cons_append, framed, ih, Bool.and_false]

theorem foldsJoined_append_nl (inFold : Bool) (text : List Byte) :
    foldsJoined inFold (text ++ [nl]) = foldsJoined inFold text ++ [chr ' '] := by
  induction text generalizing inFold with
  | nil => simp [foldsJoined]
  | cons c text ih =>
    simp only [List.cons_append, foldsJoined, ih]
    split
    · rfl
    · split
      · rfl
      · rfl

------------
-- One Header
------------

section Loop

variable {calls : List (List Byte × List Byte)} {buf : List Byte} {c : Byte} {rest : List Byte}

/- The client in a header; a dot was not seen. -/
abbrev inHeader (calls : List (List Byte × List Byte)) (seeneol : Bool) (readbuf : List Byte) :
    Hdr107 :=
  ⟨true, seeneol, false, readbuf, calls⟩

/- What the callback got stays. -/
theorem hdrLoop_calls {mode : HdrMode} {s last : Hdr107} {text more : List Byte}
    (hLoop : hdrLoop mode s text = some (last, more)) : s.calls <+: last.calls := by
  induction text generalizing mode s with
  | nil => cases hLoop
  | cons ch text ih =>
    have hNewline : s.calls <+: (mode.newline s).calls := by
      cases mode with
      | peek =>
        unfold HdrMode.newline
        dsimp only
        split
        · exact List.prefix_append _ _
        · exact List.prefix_rfl
      | read => exact List.prefix_rfl
      | fold => exact List.prefix_rfl
    rw [hdrLoop] at hLoop
    split at hLoop
    · exact ih hLoop
    · dsimp only at hLoop
      split at hLoop
      · cases hLoop
      · split at hLoop
        · cases hLoop
          exact hNewline
        · have hMore : ((mode.newline s).store ch).calls <+: last.calls := ih hLoop
          exact hNewline.trans hMore

theorem hdrLoop_store {seeneol seendot : Bool} (hCr : c ≠ cr) (hNl : c ≠ nl)
    (hDot : seeneol = true → c ≠ chr '.') (hShort : buf.length + 1 ≤ 8192) :
    hdrLoop .read ⟨true, seeneol, seendot, buf, calls⟩ (c :: rest) =
      hdrLoop .read (inHeader calls false (buf ++ [c])) rest := by
  have hTake : (buf ++ [c]).take 8192 = buf ++ [c] := List.take_of_length_le (by simpa using hShort)
  rw [hdrLoop, if_neg (fun hThis => hThis.1 rfl)]
  cases seeneol with
  | true => simp [HdrMode.newline, Hdr107.store, hCr, hNl, hDot rfl, hTake]
  | false => simp [HdrMode.newline, Hdr107.store, hCr, hNl, hTake]

theorem hdrLoop_nl {seeneol : Bool} (hShort : buf.length + 1 ≤ 8192) :
    hdrLoop .read (inHeader calls seeneol buf) (nl :: rest) =
      hdrLoop .peek (inHeader calls true (buf ++ [nl])) rest := by
  have hTake : (buf ++ [nl]).take 8192 = buf ++ [nl] :=
    List.take_of_length_le (by simpa using hShort)
  have hBytes : nl ≠ cr ∧ nl ≠ chr '.' := by decide
  rw [hdrLoop, if_neg (fun hThis => hThis.1 rfl)]
  simp [HdrMode.newline, Hdr107.store, hBytes, hTake]

/- A dot at the start is not stored. -/
theorem hdrLoop_dot (hShort : buf.length ≤ 8192) :
    hdrLoop .read (inHeader calls true buf) (chr '.' :: rest) =
      hdrLoop .read ⟨true, false, true, buf, calls⟩ rest := by
  have hBytes : chr '.' ≠ cr ∧ chr '.' ≠ nl := by decide
  rw [hdrLoop, if_neg (fun hThis => hThis.1 rfl)]
  simp [HdrMode.newline, Hdr107.store, hBytes, List.take_of_length_le hShort]

theorem hdrLoop_newline {mode : HdrMode} {s : Hdr107} (hC : c = nl ∨ isspace c = false) :
    hdrLoop mode s (c :: rest) = hdrLoop .read (mode.newline s) (c :: rest) := by
  have hStop : ¬ (mode ≠ .read ∧ c ≠ nl ∧ isspace c = true) := by
    grind
  conv => rhs; rw [hdrLoop, if_neg (fun hThis => hThis.1 rfl)]
  rw [hdrLoop, if_neg hStop]
  rfl

/- A newline that ends the header. -/
theorem hdrLoop_call (hC : c = nl ∨ isspace c = false) :
    hdrLoop .peek (inHeader calls true (buf ++ [nl])) (c :: rest) =
      hdrLoop .read (inHeader (calls ++ [hdrSplit buf]) true []) (c :: rest) := by
  rw [hdrLoop_newline hC]
  simp [HdrMode.newline]

/- A newline that is in the header. -/
theorem hdrLoop_join (hC : c = nl ∨ isspace c = false) :
    hdrLoop .fold (inHeader calls true (buf ++ [nl])) (c :: rest) =
      hdrLoop .read (inHeader calls true (buf ++ [chr ' '])) (c :: rest) := by
  rw [hdrLoop_newline hC]
  simp [HdrMode.newline]

/- White space in what is printed is a newline or a blank. -/
theorem peek_eq_fold {s : Hdr107} {text : List Byte} (hWraps : wraps text = true)
    (after : List Byte) : hdrLoop .peek s (text ++ after) = hdrLoop .fold s (text ++ after) := by
  cases text with
  | nil => cases hWraps
  | cons c text =>
    unfold wraps at hWraps
    simp only [Bool.and_eq_true, decide_eq_true_eq] at hWraps
    rw [List.cons_append, hdrLoop, hdrLoop, if_pos ⟨nofun, hWraps.1.1, hWraps.2⟩,
      if_pos ⟨nofun, hWraps.1.1, hWraps.2⟩]

/- In a reply that ends, the next call has fewer than `n` bytes behind `buf`. -/
def Under (loop : Option (Hdr107 × List Byte)) (calls : List (List Byte × List Byte))
    (buf : List Byte) (n : Nat) : Prop :=
  ∀ last more, loop = some (last, more) → last.calls = calls ∨
    ∃ w, w.length < n ∧ calls ++ [hdrSplit (buf ++ w)] <+: last.calls

/- The next call has `value` behind `buf`, or less. -/
def Reads (loop : Option (Hdr107 × List Byte)) (calls : List (List Byte × List Byte))
    (buf : List Byte) (whole : Bool) (value rest : List Byte) : Prop :=
  if whole then
    loop = hdrLoop .read (inHeader (calls ++ [hdrSplit (buf ++ value)]) true []) rest
  else
    Under loop calls buf value.length

variable {loop : Option (Hdr107 × List Byte)} {whole : Bool} {value : List Byte}

theorem Reads.under (hReads : Reads loop calls buf whole value rest) :
    Under loop calls buf (value.length + 1) := by
  intro last more hLoop
  unfold Reads at hReads
  split at hReads
  · rw [hReads] at hLoop
    exact Or.inr ⟨value, Nat.lt_succ_self _, hdrLoop_calls hLoop⟩
  · rcases hReads last more hLoop with hNone | ⟨w, hLess, hCalls⟩
    · exact Or.inl hNone
    · exact Or.inr ⟨w, Nat.lt_succ_of_lt hLess, hCalls⟩

theorem Under.cons {n : Nat} (hUnder : Under loop calls (buf ++ [c]) n) :
    Under loop calls buf (n + 1) := by
  intro last more hLoop
  rcases hUnder last more hLoop with hNone | ⟨w, hLess, hCalls⟩
  · exact Or.inl hNone
  · exact Or.inr ⟨c :: w, Nat.succ_lt_succ hLess, by simpa using hCalls⟩

theorem Reads.cons (hReads : Reads loop calls (buf ++ [c]) whole value rest) :
    Reads loop calls buf whole (c :: value) rest := by
  cases whole with
  | true => simpa [Reads] using hReads
  | false => exact Under.cons hReads

/- A newline in a text, with what is behind it. -/
theorem Reads.peek {text : List Byte}
    (hFold : Reads (hdrLoop .fold (inHeader calls true (buf ++ [nl])) (text ++ nl :: rest))
      calls buf (!dotted text && framed text) (chr ' ' :: value) rest)
    (hShown : ∀ c ∈ text, shown c = true) :
    Reads (hdrLoop .peek (inHeader calls true (buf ++ [nl])) (text ++ nl :: rest))
      calls buf (wraps text && !dotted text && framed text) (chr ' ' :: value) rest := by
  cases hWraps : wraps text with
  | true => rwa [peek_eq_fold hWraps, Bool.true_and]
  | false =>
    have hFirst : ∃ first more, text ++ nl :: rest = first :: more ∧
        (first = nl ∨ isspace first = false) := by
      cases text with
      | nil => exact ⟨nl, rest, rfl, Or.inl rfl⟩
      | cons c text =>
        refine ⟨c, text ++ nl :: rest, rfl, ?_⟩
        have hCr := ne_cr (hShown c List.mem_cons_self)
        simp only [wraps] at hWraps
        grind
    rcases hFirst with ⟨first, more, hText, hStop⟩
    rw [hText, hdrLoop_call hStop]
    intro last behind hLoop
    exact Or.inr ⟨[], Nat.succ_pos _, by simpa using hdrLoop_calls hLoop⟩

/- Behind a dot that was not stored. -/
theorem Under.dot {text : List Byte} {n : Nat} (hShown : ∀ c ∈ text, shown c = true)
    (hShort : buf.length + 1 ≤ 8192)
    (hUnder : Under (hdrLoop .read (inHeader calls false buf) (text ++ nl :: rest)) calls buf n) :
    Under (hdrLoop .read ⟨true, false, true, buf, calls⟩ (text ++ nl :: rest)) calls buf n := by
  have hEnd : ∀ more, Under (hdrLoop .read ⟨true, false, true, buf, calls⟩ (nl :: more))
      calls buf n := by
    intro more last behind hLoop
    have hNotCr : nl ≠ cr := by decide
    rw [hdrLoop, if_neg (fun hThis => hThis.1 rfl)] at hLoop
    simp only [HdrMode.newline, hNotCr, if_false, and_self, if_true, Option.some.injEq,
      Prod.mk.injEq] at hLoop
    exact Or.inl (hLoop.1 ▸ rfl)
  cases text with
  | nil => exact hEnd rest
  | cons c text =>
    by_cases hNl : c = nl
    · subst c
      exact hEnd _
    · have hCr := ne_cr (hShown c List.mem_cons_self)
      rw [List.cons_append, hdrLoop_store hCr hNl (by simp) hShort] at hUnder ⊢
      exact hUnder

/-
  The client over a text up to the newline behind it, from
  inside a line, and from inside a fold.
-/
theorem hdrLoop_text (hRest : ∃ first more, rest = first :: more ∧ isspace first = false)
    (text : List Byte) (hShown : ∀ c ∈ text, shown c = true) :
    (∀ buf, buf.length + text.length + 1 ≤ 8192 →
      Reads (hdrLoop .read (inHeader calls false buf) (text ++ nl :: rest)) calls buf
        (framed text) (foldsJoined false text) rest) ∧
    ∀ buf, buf.length + text.length + 2 ≤ 8192 →
      Reads (hdrLoop .fold (inHeader calls true (buf ++ [nl])) (text ++ nl :: rest)) calls buf
        (!dotted text && framed text) (chr ' ' :: foldsJoined true text) rest := by
  induction text with
  | nil =>
    rcases hRest with ⟨first, more, rfl, hFirst⟩
    constructor
    · intro buf hShort
      rw [List.nil_append, hdrLoop_nl hShort, hdrLoop_call (Or.inr hFirst)]
      simp [Reads, framed, foldsJoined]
    · intro buf hShort
      rw [List.nil_append, hdrLoop_join (Or.inl rfl),
        hdrLoop_nl (by rw [List.length_append]; exact hShort), hdrLoop_call (Or.inr hFirst)]
      simp [Reads, framed, dotted, foldsJoined]
  | cons c text ih =>
    have hText : ∀ c ∈ text, shown c = true := fun c hC => hShown c (List.mem_cons_of_mem _ hC)
    have hCr := ne_cr (hShown c List.mem_cons_self)
    rcases ih hText with ⟨hLine, hFold⟩
    constructor
    · intro buf hShort
      rw [List.length_cons] at hShort
      by_cases hNl : c = nl
      · subst c
        rw [List.cons_append, hdrLoop_nl (by omega)]
        have hPeek := (hFold buf (by omega)).peek hText
        simpa [framed, foldsJoined] using hPeek
      · rw [List.cons_append, hdrLoop_store hCr hNl (by simp) (by omega)]
        have hMore := (hLine (buf ++ [c]) (by simp; omega)).cons
        simpa [framed, foldsJoined, hNl] using hMore
    · intro buf hShort
      rw [List.length_cons] at hShort
      by_cases hNl : c = nl
      · subst c
        rw [List.cons_append, hdrLoop_join (Or.inl rfl), hdrLoop_nl (by simp; omega)]
        have hPeek := ((hFold (buf ++ [chr ' ']) (by simp; omega)).peek hText).cons
        have hNotDot : nl ≠ chr '.' := by decide
        simpa [framed, foldsJoined, dotted, hNotDot] using hPeek
      · by_cases hSpace : isspace c = true
        · rw [List.cons_append, hdrLoop, if_pos ⟨nofun, hNl, hSpace⟩]
          simpa [framed, foldsJoined, dotted, hNl, hSpace] using hFold buf (by omega)
        · rw [Bool.not_eq_true] at hSpace
          rw [List.cons_append, hdrLoop_join (Or.inr hSpace)]
          by_cases hDot : c = chr '.'
          · subst c
            rw [hdrLoop_dot (by simp; omega)]
            have hMore := (hLine (buf ++ [chr ' ']) (by simp; omega)).under
            have hUnder := (hMore.dot hText (by simp; omega)).cons
            simpa [Reads, framed, foldsJoined, dotted, hNl, hSpace] using hUnder
          · rw [hdrLoop_store hCr hNl (fun _ => hDot) (by simp; omega)]
            have hMore := (hLine (buf ++ [chr ' '] ++ [c]) (by simp; omega)).cons.cons
            simpa [framed, foldsJoined, dotted, hNl, hSpace, hDot] using hMore

------------
-- All Headers
------------

/- A header that is sent. -/
structure Sent (p : List Byte × List Byte) : Prop where
  name : ∀ c ∈ p.1, 32 ≤ c
  colon : chr ':' ∉ p.1
  value : p.2.dropWhile isspace = p.2
  short : p.1.length + 2 + p.2.length < 8192

variable {p : List Byte × List Byte}

theorem ne_of_le {c : Byte} (hC : 32 ≤ c) : c ≠ cr ∧ c ≠ nl ∧ c ≠ 0 := by
  refine ⟨?_, ?_, ?_⟩
  · rintro rfl
    exact absurd hC (by decide)
  · rintro rfl
    exact absurd hC (by decide)
  · rintro rfl
    exact absurd hC (by decide)

theorem hdrLoop_plain (pre : List Byte) (hPre : ∀ c ∈ pre, 32 ≤ c)
    (hShort : buf.length + pre.length ≤ 8192) :
    hdrLoop .read (inHeader calls false buf) (pre ++ rest) =
      hdrLoop .read (inHeader calls false (buf ++ pre)) rest := by
  induction pre generalizing buf with
  | nil => simp
  | cons c pre ih =>
    have hC := ne_of_le (hPre c List.mem_cons_self)
    rw [List.length_cons] at hShort
    rw [List.cons_append, hdrLoop_store hC.1 hC.2.1 (by simp) (by omega),
      ih (fun b hB => hPre b (List.mem_cons_of_mem _ hB)) (by simp; omega)]
    simp

/- The name, and the dot in front of it. -/
theorem hdrLoop_name (hSent : Sent p) : hdrLoop .read (inHeader calls true [])
        ((if p.1.head? = some (chr '.') then [chr '.'] else []) ++ (p.1 ++ bytes ": " ++ rest)) =
      hdrLoop .read (inHeader calls false (p.1 ++ bytes ": ")) rest := by
  have hHead : p.1.head? = some (chr '.') ↔ (p.1 ++ bytes ": ").head? = some (chr '.') := by
    cases p.1 with
    | nil => decide
    | cons c name => rfl
  have hPlain : ∀ c ∈ p.1 ++ bytes ": ", 32 ≤ c := by
    have hColon : ∀ c ∈ bytes ": ", 32 ≤ c :=
      List.forall_mem_cons.mpr ⟨by decide, List.forall_mem_singleton.mpr (by decide)⟩
    exact fun c hC => (List.mem_append.mp hC).elim (hSent.name c) (hColon c)
  have hShort : (p.1 ++ bytes ": ").length ≤ 8192 := by
    have hTwo : (bytes ": ").length = 2 := rfl
    have hWhole := hSent.short
    rw [List.length_append, hTwo]
    omega
  simp only [hHead]
  cases hLine : p.1 ++ bytes ": " with
  | nil => cases List.append_ne_nil_of_right_ne_nil p.1 (by decide) hLine
  | cons c pre =>
    rw [hLine, List.length_cons] at hShort
    rw [hLine, List.forall_mem_cons] at hPlain
    have hC := ne_of_le hPlain.1
    have hPre := @hdrLoop_plain calls [c] rest pre hPlain.2 (by simpa [Nat.add_comm] using hShort)
    by_cases hDot : c = chr '.'
    · subst c
      rw [if_pos (by rfl), List.singleton_append, hdrLoop_dot (by simp), List.cons_append,
        hdrLoop_store hC.1 hC.2.1 (by simp) (by simp)]
      exact hPre
    · rw [if_neg (by simpa using hDot), List.nil_append, List.cons_append,
        hdrLoop_store hC.1 hC.2.1 (fun _ => hDot) (by simp)]
      exact hPre

/- What the callback gets. -/
theorem hdrSplit_line (hSent : Sent p) (w : List Byte) :
    hdrSplit (p.1 ++ bytes ": " ++ w) = (p.1, (w.takeWhile (· ≠ 0)).dropWhile isspace) := by
  have hBytes : bytes ": " = [chr ':', chr ' '] := rfl
  have hText : (p.1 ++ bytes ": " ++ w).takeWhile (· ≠ 0) =
      p.1 ++ chr ':' :: chr ' ' :: w.takeWhile (· ≠ 0) := by
    have hColon : chr ':' ≠ 0 ∧ chr ' ' ≠ 0 := by decide
    rw [hBytes, List.append_assoc, List.takeWhile_append_of_pos]
    · simp [hColon]
    · intro c hC
      simpa using (ne_of_le (hSent.name c hC)).2.2
  have hSpace : isspace (chr ' ') = true := rfl
  unfold hdrSplit
  rw [hText]
  dsimp only
  rw [takeWhile_quoted hSent.colon, List.drop_append, List.drop_of_length_le (by simp)]
  simp [hSpace]

/- The line of a header ends with one newline. -/
theorem headerLine_eq (hSent : Sent p) :
    ∃ text, headerLine p = (if p.1.head? = some (chr '.') then [chr '.'] else []) ++
        (p.1 ++ bytes ": " ++ (text ++ [nl])) ∧
      (printable p.2 = text ∨ printable p.2 = text ++ [nl]) := by
  unfold headerLine
  rw [hSent.value]
  by_cases hLast : (printable p.2).getLast? = some nl
  · rcases List.getLast?_eq_some_iff.mp hLast with ⟨text, hText⟩
    exact ⟨text, by simp [hText], Or.inr hText⟩
  · exact ⟨printable p.2, by simp [hLast], Or.inl rfl⟩

/- The whole line of a header. -/
theorem hdrLoop_line (hSent : Sent p)
    (hRest : ∃ first more, rest = first :: more ∧ isspace first = false) {v : List Byte}
    (hV : printable p.2 = v)
    (hLoop : hdrLoop .read (inHeader calls true []) (headerLine p ++ rest) = loop) :
    (framed v = true → loop = hdrLoop .read
      (inHeader (calls ++ [(p.1, (foldsJoined false v).dropWhile isspace)]) true []) rest) ∧
    (framed v = false → Under loop calls (p.1 ++ bytes ": ") (foldsJoined false v).length) := by
  have hShort := hSent.short
  have hLess : v.length ≤ p.2.length := hV ▸ List.length_filter_le _ _
  have hTwo : (bytes ": ").length = 2 := rfl
  have hShown : ∀ c ∈ v, shown c = true := hV ▸ fun c hC => List.of_mem_filter hC
  rcases headerLine_eq hSent with ⟨text, hLine, hText⟩
  rw [hV] at hText
  have hIn : text ⊆ v := by
    rcases hText with rfl | rfl
    · exact List.Subset.refl _
    · exact List.subset_append_left _ _
  have hLength : text.length ≤ v.length := by
    rcases hText with rfl | rfl
    · exact Nat.le_refl _
    · simp
  have hReads := (@hdrLoop_text calls _ hRest text fun c hC => hShown c (hIn hC)).1
    (p.1 ++ bytes ": ") (by simp [hTwo]; omega)
  have hWhole : headerLine p ++ rest = (if p.1.head? = some (chr '.') then [chr '.'] else []) ++
        (p.1 ++ bytes ": " ++ (text ++ nl :: rest)) := by
    rw [hLine]
    simp
  rw [hWhole, hdrLoop_name hSent] at hLoop
  rw [hLoop] at hReads
  rcases hText with rfl | rfl
  · constructor
    · intro hFramed
      have hNul : (0 : Byte) ∉ v := fun hIn => absurd (hShown 0 hIn) (by decide)
      rwa [Reads, if_pos hFramed, hdrSplit_line hSent,
        takeWhile_unclosed (zero_foldsJoined hNul false)] at hReads
    · intro hFramed
      rwa [Reads, if_neg (by simp [hFramed])] at hReads
  · constructor
    · intro hFramed
      rw [framed_append_nl] at hFramed
      cases hFramed
    · intro _
      rw [foldsJoined_append_nl, List.length_append]
      exact hReads.under

theorem first_flatMap {ps : List (List Byte × List Byte)} (hSent : ∀ p ∈ ps, Sent p)
    (hNames : ∀ p ∈ ps, p.1.head? ≠ some (chr ' ')) (more : List Byte) :
    ∃ first behind, ps.flatMap headerLine ++ (bytes ".\n" ++ more) = first :: behind ∧
      isspace first = false := by
  cases ps with
  | nil => exact ⟨chr '.', nl :: more, rfl, rfl⟩
  | cons p ps =>
    have hName := (hSent p List.mem_cons_self).name
    have hHead := hNames p List.mem_cons_self
    rw [List.flatMap_cons, headerLine]
    cases hP : p.1 with
    | nil => exact ⟨chr ':', _, rfl, rfl⟩
    | cons c name =>
      rw [hP] at hName hHead
      by_cases hDot : c = chr '.'
      · rw [if_pos (by simp [hDot])]
        exact ⟨chr '.', _, rfl, rfl⟩
      · rw [if_neg (by simp [hDot])]
        refine ⟨c, _, rfl, ?_⟩
        have hC := UInt8.le_iff_toNat_le.mp (hName c List.mem_cons_self)
        have hBlank : c ≠ 32 := fun hThis => hHead (by rw [hThis]; rfl)
        have hHigh : ¬ c ≤ 13 := by
          rw [UInt8.le_iff_toNat_le]
          exact fun hLow => absurd (hC.trans hLow) (by decide)
        simp [isspace, hBlank, hHigh]

theorem hdrLoop_lines {ps : List (List Byte × List Byte)} (hSent : ∀ p ∈ ps, Sent p)
    (hNames : ∀ p ∈ ps.tail, p.1.head? ≠ some (chr ' ')) (more : List Byte) :
    (hdrLoop .read (inHeader calls true [])
        (ps.flatMap headerLine ++ (bytes ".\n" ++ more))).map outcome =
        some (true, calls ++ ps.map expected, more) ↔
      ∀ p ∈ ps, carried p.2 = true := by
  induction ps generalizing calls with
  | nil =>
    have hRead : hdrLoop .read (inHeader calls true []) (bytes ".\n" ++ more) =
        some (⟨true, false, true, [], calls⟩, more) := by
      have hNotCr : nl ≠ cr := by decide
      rw [show bytes ".\n" ++ more = chr '.' :: nl :: more from rfl, hdrLoop_dot (by simp),
        hdrLoop, if_neg (fun hThis => hThis.1 rfl)]
      simp [HdrMode.newline, hNotCr]
    simp [hRead, outcome]
  | cons p ps ih =>
    have hFirst := first_flatMap (fun p hP => hSent p (List.mem_cons_of_mem _ hP)) hNames more
    have hTail : ∀ q ∈ ps.tail, q.1.head? ≠ some (chr ' ') := fun q hQ =>
      hNames q (List.mem_of_mem_tail hQ)
    have hMore := fun calls => @ih calls (fun p hP => hSent p (List.mem_cons_of_mem _ hP)) hTail
    have hLine := @hdrLoop_line calls _ _ p (hSent p List.mem_cons_self) hFirst _ rfl rfl
    rw [List.flatMap_cons, List.append_assoc, List.map_cons, List.forall_mem_cons]
    by_cases hFramed : framed (printable p.2) = true
    · rw [hLine.1 hFramed]
      by_cases hSame : (p.1, (foldsJoined false (printable p.2)).dropWhile isspace) = expected p
      · have hCarried : carried p.2 = true :=
          (carried_iff p.2).mpr ⟨hFramed, congrArg Prod.snd hSame⟩
        rw [hSame, List.append_cons calls (expected p) (ps.map expected), hMore]
        simp [hCarried]
      · constructor
        · intro hRun
          rcases Option.map_eq_some_iff.mp hRun with ⟨⟨last, left⟩, hLoop, hLast⟩
          have hCalls : last.calls = _ := congrArg (fun r => r.2.1) hLast
          have hPrefix := hdrLoop_calls hLoop
          rw [hCalls, List.prefix_append_right_inj] at hPrefix
          exact absurd (List.cons_prefix_cons.mp hPrefix).1 hSame
        · intro hAll
          exact absurd (congrArg (Prod.mk p.1) ((carried_iff p.2).mp hAll.1).2) hSame
    · constructor
      · intro hRun
        rcases Option.map_eq_some_iff.mp hRun with ⟨⟨last, left⟩, hLoop, hLast⟩
        have hCalls : last.calls = _ := congrArg (fun r => r.2.1) hLast
        rcases hLine.2 (by simpa using hFramed) last left hLoop with hNone | ⟨w, hLess, hPrefix⟩
        · rw [hCalls] at hNone
          simp at hNone
        · rw [hCalls, List.prefix_append_right_inj, hdrSplit_line (hSent p List.mem_cons_self)]
            at hPrefix
          have hValue := congrArg (fun q => q.2.length) (List.cons_prefix_cons.mp hPrefix).1
          have hDrop := (List.dropWhile_suffix isspace (l := w.takeWhile (· ≠ 0))).length_le
          have hTake := (List.takeWhile_prefix (· ≠ (0 : Byte)) (l := w)).length_le
          dsimp only [expected] at hValue
          omega
      · intro hAll
        exact absurd ((carried_iff p.2).mp hAll.1).1 hFramed

end Loop

theorem rfc822hdrRead_spec (header file : List Byte) : header <+: (rfc822hdrRead header file).1 ∧
      ((rfc822hdrRead header file).1 = [] ∨ wraps (rfc822hdrRead header file).2 = false) := by
  induction file generalizing header with
  | nil => exact ⟨List.prefix_rfl, Or.inr rfl⟩
  | cons c file ih =>
    unfold rfc822hdrRead
    split
    · rename_i hEnd
      exact ⟨List.prefix_rfl, hEnd.2⟩
    · have hPut : header <+: putHeader header c := by
        unfold putHeader
        split
        · exact List.prefix_append _ _
        · exact List.prefix_rfl
      exact ⟨hPut.trans (ih _).1, (ih _).2⟩

theorem hdrSplit_spec (header : List Byte) : chr ':' ∉ (hdrSplit header).1 ∧
      (hdrSplit header).2.dropWhile isspace = (hdrSplit header).2 ∧
        (hdrSplit header).1 <+: header :=
  ⟨not_mem_takeWhile_separator _ _, List.dropWhile_idempotent isspace _,
    (List.takeWhile_prefix _).trans (List.takeWhile_prefix _)⟩

/- A header behind another one does not begin with a blank. -/
theorem head_hdrSplit {file : List Byte} (hWraps : wraps file = false) :
    (hdrSplit (rfc822hdrRead [] file).1).1.head? ≠ some (chr ' ') := by
  have hName := (hdrSplit_spec (rfc822hdrRead [] file).1).2.2
  intro hHead
  rcases List.head?_eq_some_iff.mp hHead with ⟨name, hIs⟩
  rw [hIs] at hName
  cases file with
  | nil => simp [rfc822hdrRead] at hName
  | cons c file =>
    by_cases hNl : c = nl
    · simp [rfc822hdrRead, hNl] at hName
    · rw [rfc822hdrRead, if_neg (by simp [hNl])] at hName
      rcases (rfc822hdrRead_spec (putHeader [] c) file).1 with ⟨behind, hBehind⟩
      rw [← hBehind] at hName
      rw [← (List.cons_prefix_cons.mp hName).1] at hWraps
      cases hWraps

/- Every header is one that can be sent. -/
theorem retrheaders_spec (fuel : Nat) (file : List Byte) :
    (∀ p ∈ retrheaders fuel file, ∃ header, p = hdrSplit header) ∧
      (∀ p ∈ (retrheaders fuel file).tail, p.1.head? ≠ some (chr ' ')) ∧
        (wraps file = false → ∀ p ∈ retrheaders fuel file, p.1.head? ≠ some (chr ' ')) := by
  induction fuel generalizing file with
  | zero => simp [retrheaders]
  | succ fuel ih =>
    have hSpec := rfc822hdrRead_spec [] file
    have hHead := @head_hdrSplit file
    simp only [retrheaders]
    generalize rfc822hdrRead [] file = r at hSpec hHead ⊢
    rcases ih r.2 with ⟨hSplit, hTail, hAll⟩
    split
    · simp
    · rename_i hSome
      have hRest := hAll (hSpec.2.resolve_left hSome)
      refine ⟨?_, hRest, ?_⟩
      · rw [List.forall_mem_cons]
        exact ⟨⟨_, rfl⟩, hSplit⟩
      · intro hWraps
        rw [List.forall_mem_cons]
        exact ⟨hHead hWraps, hRest⟩

/-
  The client gets the stored headers and reads up to the dot
  line, just when every value is one that is carried.
-/
theorem retr107Headers_iff {eventId file readbuf body : List Byte} (hId : nl ∉ eventId)
    (hNames : ∀ p ∈ storedHeaders file, ∀ c ∈ p.1, 32 ≤ c)
    (hShort : ∀ p ∈ storedHeaders file, p.1.length + 2 + p.2.length < 8192) (hLine : nl ∉ readbuf)
    (hReply : retrHeaders eventId (storedHeaders file) = readbuf ++ nl :: body)
    (more : List Byte) :
    retr107Headers readbuf (body ++ more) = some (true, (storedHeaders file).map expected, more) ↔
      ∀ p ∈ storedHeaders file, carried p.2 = true := by
  have hHeader : nl ∉ replyLine eventId := by
    unfold replyLine
    simp only [List.mem_append, not_or]
    exact ⟨⟨by decide, hId⟩, by decide⟩
  rcases retrheaders_spec file.length file with ⟨hSplit, hTail, _⟩
  have hSent : ∀ p ∈ storedHeaders file, Sent p := by
    intro p hP
    rcases hSplit p hP with ⟨header, rfl⟩
    exact ⟨hNames _ hP, (hdrSplit_spec header).1, (hdrSplit_spec header).2.1, hShort _ hP⟩
  unfold retrHeaders at hReply
  split at hReply
  · simp at hReply
  · have hSame := cutAt_quoted hLine body
    rw [← hReply, cutAt_quoted hHeader] at hSame
    cases hSame
    have hStart : ∀ text, hdrLoop .read ⟨true, true, true, [], []⟩ text =
        hdrLoop .read (inHeader [] true []) text := by
      intro text
      cases text with
      | nil => rfl
      | cons c text => simp [hdrLoop, HdrMode.newline, Hdr107.store]
    rw [retr107Headers, isSome_sscanf107, hStart, List.append_assoc]
    exact hdrLoop_lines hSent hTail more

/- A header with a fold, and one with a dot in front. -/
theorem retr107Headers_folded : retr107Headers (bytes "107 5@joe follows")
        (bytes "Subject: a\n b\n..x: .y\n.\n" ++ bytes "108 RETR complete\n") =
      some (true, (storedHeaders (bytes "Subject: a\n b\n.x: .y\n\n")).map expected,
        bytes "108 RETR complete\n") :=
  (@retr107Headers_iff (bytes "5@joe") (bytes "Subject: a\n b\n.x: .y\n\n") _ _
    (by decide) (by decide +kernel)
    (by decide +kernel) (by decide) (by decide +kernel) _).mpr (by decide +kernel)

/- A dot behind a fold, which the client leaves out. -/
theorem not_retr107Headers_dotted : let file := bytes "Subject: a\n .b\n\n"
    let more := bytes "108 RETR complete\n"
    (∀ p ∈ storedHeaders file, (∀ c ∈ p.1, 32 ≤ c) ∧ p.1.length + 2 + p.2.length < 8192) ∧
      retrHeaders (bytes "5@joe") (storedHeaders file) =
          bytes "107 5@joe follows" ++ nl :: bytes "Subject: a\n .b\n.\n" ∧
        retr107Headers (bytes "107 5@joe follows") (bytes "Subject: a\n .b\n.\n" ++ more) ≠
          some (true, (storedHeaders file).map expected, more) := by
  decide +kernel

end Wmail.Pcp
