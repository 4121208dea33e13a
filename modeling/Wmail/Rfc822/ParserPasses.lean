import Wmail.Core.TwoPass
import Wmail.Rfc822.Address

/-
  The two passes of the address parser (rfc822.c): it counts
  the tokens, then the addresses, allocates an array for
  each, and runs again to fill it.

  Key theorems include:
    * `parseaddrPass_fill`
    * `parser_passes_agree`
-/

namespace Wmail.Rfc822

open TwoPass (Slots Fills store store_append)

/-
  `tokenize` with its `tokp`, which is null in the first
  pass, and its `toklen`.  All the writes to one token are
  one write here.  A quoted string does not begin with a
  length of zero but with what the array holds.
-/
def tokenizePass : Nat → Bool → List Byte → Option (Slots Token) → Nat →
      Option (Option (List Token) × Nat)
  | 0, _, _, tokp, toklen => some (tokp.map Slots.array, toklen)
  | _ + 1, _, [], tokp, toklen => some (tokp.map Slots.array, toklen)
  | fuel + 1, inbracket, c :: rest, tokp, toklen =>
    if isspace c then
      tokenizePass fuel inbracket rest tokp toklen
    else if c = chr '(' then
      let (len, closed) := scanComment 0 (c :: rest)
      if closed then
        (Slots.write (fun _ => ⟨chr '(', c :: rest, len⟩)
            tokp).bind fun tokp =>
          tokenizePass fuel inbracket ((c :: rest).drop len) tokp (toklen + 1)
      else
        -- the array is left without moving `tokp` on
        (Slots.touch (fun _ => ⟨chr '"', c :: rest, len⟩)
            tokp).map fun tokp =>
          (tokp.map Slots.array, toklen + 1)
    else if c = chr '"' then
      let (len, closed) := scanQuoted rest
      if closed then
        (Slots.write
            (fun t => ⟨chr '"', rest, t.len + len⟩)
            tokp).bind fun tokp =>
          tokenizePass fuel inbracket (rest.drop (len + 1)) tokp (toklen + 1)
      else
        (Slots.touch
            (fun t => ⟨chr '"', rest, t.len + len⟩)
            tokp).map fun tokp =>
          (tokp.map Slots.array, toklen + 1)
    else if c = chr '\\' ∨ c = chr ')' then
      tokenizePass fuel inbracket rest tokp toklen
    else if specials.contains c then
      if (c = chr '<' && inbracket) || (c = chr '>' && !inbracket) then
        tokenizePass fuel inbracket rest tokp toklen
      else
        let inbracket :=
          if c = chr '<' then true
          else if c = chr '>' then false
          else inbracket
        (Slots.write (fun _ => ⟨c, c :: rest, 1⟩)
            tokp).bind fun tokp =>
          if c = chr '<' ∧ rest.head? = some (chr '>') then
            (Slots.write (fun _ => ⟨0, [], 0⟩)
                tokp).bind fun tokp =>
              tokenizePass fuel inbracket rest tokp (toklen + 1 + 1)
          else
            tokenizePass fuel inbracket rest tokp (toklen + 1)
    else
      let len := ((c :: rest).takeWhile isAtomChar).length
      (Slots.write (fun _ => ⟨0, c :: rest, len⟩)
          tokp).bind fun tokp =>
        tokenizePass fuel inbracket ((c :: rest).drop len) tokp (toklen + 1)

/- An entry of the array that `calloc` clears. -/
def clearToken : Token where
  token := 0
  ptr := []
  len := 0

/- The pass writes the tokens it counts. -/
theorem fills_tokenizePass (fuel : Nat) (inbracket : Bool) (p : List Byte) :
    Fills (tokenizePass fuel inbracket p) clearToken (tokenizeLoop fuel inbracket p) := by
  induction fuel generalizing inbracket p with
  | zero => exact Fills.done
  | succ fuel ih =>
    cases p with
    | nil => exact Fills.done
    | cons c rest =>
      refine Fills.ite (fun _ => ih inbracket rest) fun _ => ?_
      refine Fills.ite (fun _ => ?_) fun _ => ?_
      · rcases scanComment 0 (c :: rest) with ⟨len, closed⟩
        exact Fills.ite (fun _ => Fills.write _ (ih _ _)) (fun _ => Fills.last _)
      refine Fills.ite (fun _ => ?_) fun _ => ?_
      · rcases scanQuoted rest with ⟨len, closed⟩
        have hItem : (⟨chr '"', rest, len⟩ : Token) = ⟨chr '"', rest, clearToken.len + len⟩ := by
          rw [show clearToken.len = 0 from rfl, Nat.zero_add]
        simp only [hItem]
        exact Fills.ite (fun _ => Fills.write _ (ih _ _)) (fun _ => Fills.last _)
      refine Fills.ite (fun _ => ih inbracket rest) fun _ => ?_
      refine Fills.ite (fun _ => ?_) (fun _ => Fills.write _ (ih _ _))
      refine Fills.ite (fun _ => ih inbracket rest) fun _ => ?_
      simp only []
      by_cases hFake : c = chr '<' ∧ rest.head? = some (chr '>')
      · simp only [if_pos hFake]
        exact Fills.write _ (Fills.write _ (ih _ _))
      · simp only [if_neg hFake]
        exact Fills.write _ (ih _ _)

/-
  `rfc822t_alloc_new`: the tokens and `ntokens`, unless a
  pass writes past the array.
-/
def rfc822tAllocNew (addr : List Byte) : Option (List Token × Nat) :=
  let s := addr.takeWhile (· ≠ 0)
  (tokenizePass s.length false s none 0).bind fun first =>
    let ntokens := first.2
    let tokens : Option (Slots Token) :=
      if ntokens ≠ 0 then some ⟨List.replicate ntokens clearToken, 0⟩ else none
    (tokenizePass s.length false s tokens 0).map fun last => (last.1.getD [], last.2)

/-
  A chain of tokens that stand one after the other in the
  array: every `next` but the last points at the token after
  it.  A chain of none is null.
-/
structure Chain where
  start : Nat
  len : Nat
deriving DecidableEq, Repr

def Chain.read (tokens : List Token) (chain : Chain) : List Token :=
  (tokens.drop chain.start).take chain.len

/- `struct rfc822addr`. -/
structure AddrPtrs where
  tokens : Chain
  name : Chain
deriving DecidableEq, Repr

/- The address, as the chains in the array have it. -/
def AddrPtrs.read (tokens : List Token) (addr : AddrPtrs) : Addr where
  tokens := addr.tokens.read tokens
  name := addr.name.read tokens

def Chain.null : Chain where
  start := 0
  len := 0

/- Comments in the name part become quoted strings. -/
def quoteComments : Nat → Nat → List Token → Option (List Token)
  | _, 0, tokens => some tokens
  | start, n + 1, tokens =>
    (store tokens start fun t =>
      if t.token = chr '(' then
        { t with token := chr '"' }
      else
        t).bind (quoteComments (start + 1) n)

/-
  The name before a `<`: the `i` tokens from `start` on when
  they are atoms, and else the first of them, which is made
  a quoted string that goes to the end of the last.
-/
def fillName (tokens : List Token) (start i : Nat) : Option (List Token × Chain) :=
  let before := (tokens.drop start).take i
  if before.all (fun t => t.token = 0 || t.token = chr '(') then
    (quoteComments start i tokens).map fun tokens => (tokens, ⟨start, i⟩)
  else
    before.getLast?.bind fun last =>
      (store tokens start fun t =>
        { t with
            token := chr '"'
            len := t.ptr.length + last.len - last.ptr.length }).bind fun tokens =>
        (quoteComments start 1 tokens).map fun tokens => (tokens, ⟨start, 1⟩)

/-
  The loop that takes the comments out of an old-style
  address: `j` and `k` count the tokens read and kept, and
  the last comment is saved.
-/
def dropComments (start : Nat) : Nat → Nat → Nat → List Token → Option Token →
      Option (List Token × Nat × Option Token)
  | 0, _, k, tokens, save => some (tokens, k, save)
  | n + 1, j, k, tokens, save =>
    tokens[start + j]?.bind fun t =>
      if t.token = chr '(' then
        dropComments start n (j + 1) k tokens (some t)
      else
        (store tokens (start + k) fun _ => t).bind
          fun tokens => dropComments start n (j + 1) (k + 1) tokens save

/- What one round of `parseaddr` does. -/
structure Round where
  tokens : List Token
  used : Nat
  addr : Option AddrPtrs

/- The address in the brackets that open after `i` tokens. -/
def routeRound (fill : Bool) (tokens : List Token) (start ntokens i : Nat) : Option Round :=
  (if fill then
      fillName tokens start i
    else
      some (tokens, Chain.null)).map fun (tokens, name) =>
    let start := start + (i + 1)
    let ntokens := ntokens - (i + 1)
    let k := (((tokens.drop start).take ntokens).takeWhile fun t => t.token != chr '>').length
    -- the `>` is skipped too
    ⟨tokens, i + 1 + k + (if k < ntokens then 1 else 0), some ⟨⟨start, k⟩, name⟩⟩

/- The old-style address of the `i` tokens from `start` on. -/
def oldRound (fill : Bool) (tokens : List Token) (start i : Nat) : Option Round :=
  if fill then
    (dropComments start i 0 0 tokens none).bind
      fun (tokens, k, save) =>
        match save with
        | none => some ⟨tokens, i, some ⟨⟨start, k⟩, Chain.null⟩⟩
        | some comment =>
          (store tokens (start + i - 1) fun _ =>
            comment).map fun tokens => ⟨tokens, i, some ⟨⟨start, k⟩, ⟨start + i - 1, 1⟩⟩⟩
  else
    some ⟨tokens, i, some ⟨Chain.null, Chain.null⟩⟩

/-
  A round of the loop of `parseaddr`, on `ntokens` tokens from
  `start` on.  Only the second pass, where `fill` is set, has
  an array of addresses and changes tokens; the first counts
  the address.
-/
def parseRound (fill : Bool) (tokens : List Token) (start ntokens : Nat) : Option Round :=
  let window := (tokens.drop start).take ntokens
  let i := (window.takeWhile fun t => t.token = 0 || t.token = chr '"').length
  if (window.drop i).head?.map (·.token) = some (chr ':') then
    some ⟨tokens, i + 1, some ⟨Chain.null, ⟨start, i + 1⟩⟩⟩
  else
    window.head?.bind fun first =>
      if first.token = chr ',' then
        some ⟨tokens, 1, none⟩
      else if first.token = chr ';' then
        some ⟨tokens, 1, some ⟨Chain.null, ⟨start, 1⟩⟩⟩
      else
        let i := (window.takeWhile fun t =>
          t.token != chr ';' && t.token != chr ',' && t.token != chr '<').length
        if (window.drop i).head?.map (·.token) = some (chr '<') then
          routeRound fill tokens start ntokens i
        else
          let i := oldStyleLength false window
          if i = 0 then some ⟨tokens, 1, none⟩ else oldRound fill tokens start i

/-
  `parseaddr` with its `addrs`, which is null in the first
  pass, and its `naddrs`.  Every round goes over at least one
  token, so a `fuel` of their number is enough.
-/
def parseaddrPass : Nat → List Token → Nat → Nat → Option (Slots AddrPtrs) → Nat →
      Option (List Token × Option (List AddrPtrs) × Nat)
  | 0, tokens, _, _, addrs, naddrs => some (tokens, addrs.map Slots.array, naddrs)
  | fuel + 1, tokens, start, ntokens, addrs, naddrs =>
    if ntokens = 0 then
      some (tokens, addrs.map Slots.array, naddrs)
    else
      (parseRound addrs.isSome tokens start ntokens).bind
        fun r =>
          match r.addr with
          | none => parseaddrPass fuel r.tokens (start + r.used) (ntokens - r.used) addrs naddrs
          | some addr =>
            (Slots.write (fun _ => addr) addrs).bind
              fun addrs =>
                parseaddrPass fuel r.tokens (start + r.used) (ntokens - r.used) addrs (naddrs + 1)

/-
  `rfc822a_alloc`: the tokens, which it changes, the
  addresses and `naddrs`, unless a pass writes past an array.
-/
def rfc822aAlloc (tokens : List Token) : Option (List Token × List AddrPtrs × Nat) :=
  (parseaddrPass tokens.length tokens 0 tokens.length none
      0).bind fun first =>
    let naddrs := first.2.2
    let addrs : Option (Slots AddrPtrs) :=
      if naddrs ≠ 0 then some ⟨List.replicate naddrs ⟨Chain.null, Chain.null⟩, 0⟩ else none
    (parseaddrPass first.1.length first.1 0 first.1.length
        addrs 0).map fun last =>
      (last.1, last.2.1.getD [], last.2.2)

------------
-- Rounds
------------

theorem Chain.read_piece (before chain after : List Token) :
    Chain.read (before ++ chain ++ after) ⟨before.length, chain.length⟩ = chain := by
  unfold Chain.read
  rw [List.append_assoc, List.drop_left, List.take_left]

/- A later change does not reach the chain. -/
theorem Chain.read_congr {tokens changed : List Token} {chain : Chain} {n : Nat}
    (hInside : chain.start + chain.len ≤ n) (hSame : changed.take n = tokens.take n) :
    chain.read changed = chain.read tokens := by
  have hRead : ∀ list : List Token, chain.read list =
      ((list.take n).drop chain.start).take chain.len := by
    intro list
    unfold Chain.read
    rw [List.drop_take, List.take_take, Nat.min_eq_left (by omega)]
  rw [hRead, hRead, hSame]

/- A comment in the name part is made a quoted string. -/
def quoteComment (t : Token) : Token :=
  if t.token = chr '(' then { t with token := chr '"' } else t

theorem quoteComments_spec (before name after : List Token) :
    quoteComments before.length name.length (before ++ name ++ after) =
      some (before ++ name.map quoteComment ++ after) := by
  induction name generalizing before with
  | nil => rfl
  | cons t name ih =>
    have hRest := ih (before ++ [quoteComment t])
    simp only [List.append_assoc, List.length_append, List.length_singleton, List.cons_append,
      List.nil_append] at hRest ⊢
    simp only [List.length_cons, quoteComments, store_append,
      Option.bind_some, List.map_cons, List.cons_append]
    exact hRest

theorem routeName_eq (before : List Token) : routeName before = (if before.all
          (fun t => t.token = 0 || t.token = chr '(') then
        before
      else
        quoteTokens before).map quoteComment :=
  rfl

/- The name of an address with a route. -/
theorem fillName_spec (before name after : List Token) :
    ∃ changed chain, fillName (before ++ name ++ after) before.length name.length =
        some (before ++ changed ++ after, chain) ∧
      changed.length = name.length ∧
      chain.start + chain.len ≤ before.length + name.length ∧
      chain.read (before ++ changed ++ after) = routeName name := by
  have hWindow : ((before ++ name ++ after).drop before.length).take name.length = name := by
    rw [List.append_assoc, List.drop_left, List.take_left]
  unfold fillName
  simp only [hWindow]
  rw [routeName_eq]
  split
  · refine ⟨name.map quoteComment, ⟨before.length, name.length⟩, ?_, List.length_map _,
      Nat.le_refl _, ?_⟩
    · rw [quoteComments_spec]
      rfl
    · have hRead := Chain.read_piece before (name.map quoteComment) after
      rw [List.length_map] at hRead
      exact hRead
  · rename_i hAtoms
    cases name with
    | nil => exact absurd rfl hAtoms
    | cons t rest =>
      have hLast := List.getLast?_eq_some_getLast (List.cons_ne_nil t rest)
      have hQuoted : quoteTokens (t :: rest) =
          [{ t with
              token := chr '"'
              len := t.ptr.length + ((t :: rest).getLast (List.cons_ne_nil t rest)).len -
                ((t :: rest).getLast (List.cons_ne_nil t rest)).ptr.length }] :=
        rfl
      generalize (t :: rest).getLast (List.cons_ne_nil t rest) = last at hLast hQuoted
      refine ⟨quoteComment
        { t with
            token := chr '"'
            len := t.ptr.length + last.len - last.ptr.length } :: rest,
        ⟨before.length, 1⟩, ?_, rfl, ?_, ?_⟩
      · rw [hLast, Option.bind_some, List.append_assoc,
          List.cons_append, store_append, Option.bind_some]
        have hQuote := quoteComments_spec before
          [{ t with
              token := chr '"'
              len := t.ptr.length + last.len - last.ptr.length }] (rest ++ after)
        simp only [List.append_assoc, List.singleton_append,
          List.length_singleton, List.map_cons, List.map_nil]
          at hQuote
        rw [hQuote]
        simp
      · show before.length + 1 ≤ before.length + (rest.length + 1)
        omega
      · rw [hQuoted]
        unfold Chain.read
        rw [List.append_assoc, List.drop_left]
        rfl

/-
  The loop over an old-style address: what it kept stands at
  the beginning, what it read is replaced by as many tokens,
  and the last comment is saved.
-/
theorem dropComments_spec (before kept stale rest after : List Token) (save : Option Token) :
    ∃ left, dropComments before.length rest.length (kept.length + stale.length) kept.length
          (before ++ (kept ++ (stale ++ (rest ++ after))))
          save =
        some (before ++ (kept ++ (rest.filter (fun t => t.token != chr '(') ++ (left ++ after))),
            kept.length + (rest.filter fun t => t.token != chr '(').length,
            ((rest.filter fun t => t.token = chr '(').getLast?).or save) ∧
      left.length = stale.length + (rest.filter fun t => t.token = chr '(').length := by
  induction rest generalizing kept stale save with
  | nil =>
    refine ⟨stale, ?_, rfl⟩
    simp [dropComments]
  | cons t rest ih =>
    have hRead : (before ++ (kept ++ (stale ++ (t :: rest ++ after))))[before.length +
          (kept.length + stale.length)]? = some t := by
      have hFront := @List.getElem?_append_right _ (before ++ (kept ++ stale)) (t :: rest ++ after)
        (before.length + (kept.length + stale.length))
        (by simp)
      simp only [List.append_assoc, List.length_append, Nat.sub_self] at hFront
      exact hFront
    simp only [List.length_cons, dropComments, hRead, Option.bind_some]
    by_cases hComment : t.token = chr '('
    · rw [if_pos hComment, List.filter_cons_of_neg (by simp [hComment]),
        List.filter_cons_of_pos (by simp [hComment])]
      rcases ih kept (stale ++ [t]) (some t) with ⟨left, hRun, hLeft⟩
      refine ⟨left, ?_, ?_⟩
      · simp only [List.append_assoc, List.length_append, List.length_singleton, List.cons_append,
          List.nil_append] at hRun
        rw [List.cons_append, Nat.add_assoc, hRun, List.getLast?_cons]
        cases (rest.filter fun t =>
            t.token = chr '(').getLast? with
        | none => rfl
        | some last => rfl
      · simp only [List.length_append, List.length_cons, List.length_nil] at hLeft ⊢
        omega
    · rw [if_neg hComment, List.filter_cons_of_pos (by simp [hComment]),
        List.filter_cons_of_neg (by simp [hComment])]
      cases stale with
      | nil =>
        have hStore := store_append (before ++ kept) (rest ++ after) t fun _ => t
        simp only [List.append_assoc, List.length_append] at hStore
        rcases ih (kept ++ [t]) [] save with ⟨left, hRun, hLeft⟩
        simp only [List.append_assoc, List.length_append, List.length_singleton, List.cons_append,
          List.nil_append, List.length_nil, Nat.add_zero]
          at hRun hLeft
        refine ⟨left, ?_, by simpa using hLeft⟩
        simp only [List.nil_append, List.cons_append, List.length_nil, Nat.add_zero, hStore,
          Option.bind_some, hRun, List.length_cons]
        simp only [Nat.add_assoc, Nat.add_comm 1]
      | cons s stale =>
        have hStore := store_append (before ++ kept) (stale ++ (t :: rest ++ after)) s fun _ => t
        simp only [List.append_assoc, List.length_append] at hStore
        rcases ih (kept ++ [t]) (stale ++ [t]) save with ⟨left, hRun, hLeft⟩
        simp only [List.append_assoc, List.length_append, List.length_singleton, List.cons_append,
          List.nil_append] at hRun hLeft hStore
        refine ⟨left, ?_, by simpa using hLeft⟩
        simp only [List.cons_append, hStore, Option.bind_some, List.length_cons]
        rw [show kept.length + (stale.length + 1) + 1 =
          kept.length + 1 + (stale.length + 1) by omega,
          hRun]
        simp only [Nat.add_assoc, Nat.add_comm 1]

theorem oldStyleLength_le (flag : Bool) (tokens : List Token) :
    oldStyleLength flag tokens ≤ tokens.length := by
  induction tokens generalizing flag with
  | nil => exact Nat.le_refl 0
  | cons t rest ih =>
    unfold oldStyleLength
    have hRest := ih flag
    have hTrue := ih true
    have hFalse := ih false
    rw [List.length_cons]
    repeat' split
    all_goals omega

/- An old-style address, once its comments are taken out. -/
theorem dropComments_old (before old after : List Token) :
    ∃ left, dropComments before.length old.length 0 0 (before ++ (old ++ after)) none =
        some (before ++ (old.filter (fun t => t.token != chr '(') ++ (left ++ after)),
            (old.filter fun t => t.token != chr '(').length,
            (old.filter fun t => t.token = chr '(').getLast?) ∧
      left.length = (old.filter fun t => t.token = chr '(').length := by
  rcases dropComments_spec before [] [] old after none with ⟨left, hRun, hLeft⟩
  refine ⟨left, ?_, by simpa using hLeft⟩
  simpa using hRun

/-
  What a round makes of the window of the tokens that are
  left: it goes over some of them and changes none of the
  others, and what it counts is the next of the addresses.
-/
structure Round.Takes (r : Round) (fill : Bool) (before window : List Token)
    (found : Option Addr) :
    Prop where
  used_pos : 0 < r.used
  used_le : r.used ≤ window.length
  tokens : ∃ changed, r.tokens = before ++ (changed ++ window.drop r.used) ∧
    changed.length = r.used ∧
    (fill = false → changed = window.take r.used)
  next : ∀ fuel, parseaddrLoop (fuel + 1) window =
    found.toList ++ parseaddrLoop fuel (window.drop r.used)
  counted : found.isSome = r.addr.isSome
  filled : fill = true → ∀ a ∈ r.addr, found = some (a.read r.tokens) ∧
      a.tokens.start + a.tokens.len ≤ before.length + r.used ∧
      a.name.start + a.name.len ≤ before.length + r.used

/- A round that changes no token. -/
theorem Round.takes_of_same {fill : Bool} {before window : List Token} {used : Nat}
    {addr : Option AddrPtrs} {found : Option Addr} (hPos : 0 < used)
    (hUsed : used ≤ window.length)
    (hNext : ∀ fuel, parseaddrLoop (fuel + 1) window =
      found.toList ++ parseaddrLoop fuel (window.drop used))
    (hCounted : found.isSome = addr.isSome)
    (hFilled : fill = true → ∀ a ∈ addr,
      found = some (a.read (before ++ window)) ∧
        a.tokens.start + a.tokens.len ≤ before.length + used ∧
        a.name.start + a.name.len ≤ before.length + used) :
    Round.Takes ⟨before ++ window, used, addr⟩ fill before window found where
  used_pos := hPos
  used_le := hUsed
  tokens := by
    refine ⟨window.take used, ?_, ?_, fun _ => rfl⟩
    · rw [List.take_append_drop]
    · rw [List.length_take]
      exact Nat.min_eq_left hUsed
  next := hNext
  counted := hCounted
  filled := hFilled

theorem Chain.read_take (before window : List Token) (n : Nat) :
    Chain.read (before ++ window) ⟨before.length, n⟩ = window.take n := by
  unfold Chain.read
  rw [List.drop_left]

theorem Chain.read_null (tokens : List Token) : Chain.null.read tokens = [] :=
  rfl

/- A round on an address with a route. -/
theorem routeRound_takes (fill : Bool) (before name : List Token) (bracket : Token)
    (inside : List Token) {used : Nat}
    (hUsed : used = name.length + 1 +
      (inside.takeWhile fun t : Token => t.token != chr '>').length +
      (if (inside.takeWhile fun t : Token =>
          t.token != chr '>').length < inside.length then
        1
      else
        0))
    (hNext : ∀ fuel,
      parseaddrLoop (fuel + 1) (name ++ bracket :: inside) =
        ⟨inside.takeWhile (fun t => t.token != chr '>'), routeName name⟩ ::
          parseaddrLoop fuel ((name ++ bracket :: inside).drop used)) :
    ∃ r found, routeRound fill (before ++ (name ++ bracket :: inside))
          before.length (name ++ bracket :: inside).length
          name.length = some r ∧
        r.Takes fill before (name ++ bracket :: inside)
          found := by
  have hLength : (name ++ bracket :: inside).length - (name.length + 1) = inside.length := by
    rw [List.length_append, List.length_cons]
    omega
  have hDrop : ∀ changed : List Token, changed.length = name.length →
      (before ++ (changed ++ bracket :: inside)).drop
        (before.length + (name.length + 1)) = inside := by
    intro changed hChanged
    rw [← hChanged]
    simp
  have hLe := (List.takeWhile_prefix (l := inside) (fun t => t.token != chr '>')).length_le
  have hTake := List.prefix_iff_eq_take.mp (List.takeWhile_prefix (l := inside)
      fun t => t.token != chr '>')
  have hMore : ∃ m, used = name.length + 1 + m ∧ m ≤ inside.length ∧ (inside.takeWhile fun t =>
        t.token != chr '>').length ≤ m := by
    refine ⟨_, hUsed.trans (Nat.add_assoc _ _ _), ?_, by omega⟩
    split
    · omega
    · omega
  rcases hMore with ⟨m, hM, hInsideM, hLeM⟩
  have hWindow : used ≤ (name ++ bracket :: inside).length := by
    rw [List.length_append, List.length_cons]
    omega
  have hRest : (name ++ bracket :: inside).drop used = inside.drop m := by
    rw [hM]
    simp [Nat.add_assoc, Nat.add_comm 1]
  cases fill with
  | false =>
    simp only [routeRound, Bool.false_eq_true, if_false, Option.map_some, hLength, hDrop name rfl,
      List.take_length, ← hUsed]
    refine ⟨_, some ⟨_, _⟩, rfl, Round.takes_of_same (by omega) hWindow hNext rfl ?_⟩
    intro hFill
    cases hFill
  | true =>
    rcases fillName_spec before name (bracket :: inside) with
      ⟨changed, chain, hFill, hChanged, hInside, hRead⟩
    rw [List.append_assoc] at hFill
    simp only [routeRound, if_true, hFill, List.append_assoc, Option.map_some, hLength,
      hDrop changed hChanged, List.take_length, ← hUsed]
    refine ⟨_, some ⟨inside.takeWhile (fun t => t.token != chr '>'), routeName name⟩, rfl, ?_⟩
    exact
      { used_pos := by
          show 0 < used
          omega
        used_le := hWindow
        tokens := by
          refine ⟨changed ++ bracket :: inside.take m, ?_, ?_, fun hFill => by cases hFill⟩
          · rw [hRest, List.append_assoc, List.cons_append, List.take_append_drop]
          · rw [List.length_append, List.length_cons, List.length_take, hChanged]
            show _ = used
            omega
        next := hNext
        counted := rfl
        filled := by
          intro _ a hA
          cases hA
          refine ⟨?_, ?_, ?_⟩
          · unfold AddrPtrs.read Chain.read
            simp only []
            rw [hDrop changed hChanged]
            unfold Chain.read at hRead
            rw [List.append_assoc] at hRead
            rw [hRead]
            exact congrArg (fun tokens => some (⟨tokens, _⟩ : Addr)) hTake
          · show before.length + (name.length + 1) + (inside.takeWhile fun t =>
                t.token != chr '>').length ≤
              before.length + used
            omega
          · show chain.start + chain.len ≤ before.length + used
            omega }

/- A round on an old-style address. -/
theorem oldRound_takes (fill : Bool) (before old rest : List Token) (hPos : 0 < old.length)
    (hNext : ∀ fuel,
      parseaddrLoop (fuel + 1) (old ++ rest) =
        ⟨old.filter (fun t => t.token != chr '('), (old.filter fun t =>
              t.token = chr '(').getLast?.toList⟩ ::
          parseaddrLoop fuel rest) :
    ∃ r found, oldRound fill (before ++ (old ++ rest)) before.length old.length = some r ∧
        r.Takes fill before (old ++ rest) found := by
  have hDrop : (old ++ rest).drop old.length = rest := List.drop_left
  have hUsed : old.length ≤ (old ++ rest).length := by
    rw [List.length_append]
    exact Nat.le_add_right _ _
  cases fill with
  | false =>
    refine ⟨⟨before ++ (old ++ rest), old.length, some ⟨Chain.null, Chain.null⟩⟩,
      some ⟨old.filter (fun t => t.token != chr '('), (old.filter fun t =>
          t.token = chr '(').getLast?.toList⟩, rfl,
      Round.takes_of_same hPos hUsed ?_ rfl ?_⟩
    · rw [hDrop]
      exact hNext
    · intro hFill
      cases hFill
  | true =>
    rcases dropComments_old before old rest with ⟨left, hRun, hLeft⟩
    have hSplit := old.length_eq_length_filter_add fun t => t.token = chr '('
    have hKept : old.filter (fun t => !decide (t.token = chr '(')) =
        old.filter fun t => t.token != chr '(' := by
      apply List.filter_congr
      intro t _
      rw [bne, beq_eq_decide]
    rw [hKept] at hSplit
    simp only [oldRound, if_true, hRun, Option.bind_some]
    generalize old.filter (fun t => t.token != chr '(') = kept at hNext hSplit ⊢
    have hRead : ∀ tokens : List Token, Chain.read (before ++ (kept ++ tokens))
          ⟨before.length, kept.length⟩ = kept := by
      intro tokens
      rw [Chain.read_take, List.take_left]
    cases hSave : (old.filter fun t =>
        t.token = chr '(').getLast? with
    | none =>
      rw [List.getLast?_eq_none_iff] at hSave
      rw [hSave, List.length_nil] at hLeft hSplit
      have hNil := List.eq_nil_of_length_eq_zero hLeft
      subst hNil
      rw [hSave] at hNext
      refine ⟨_, some ⟨kept, []⟩, rfl, ?_⟩
      exact
        { used_pos := hPos
          used_le := hUsed
          tokens := by
            refine ⟨kept, ?_, ?_, fun hFill => by cases hFill⟩
            · rw [hDrop]
              rfl
            · show kept.length = old.length
              omega
          next := by
            rw [hDrop]
            exact hNext
          counted := rfl
          filled := by
            intro _ a hA
            cases hA
            refine ⟨?_, ?_, ?_⟩
            · unfold AddrPtrs.read
              simp only []
              rw [hRead, Chain.read_null]
            · show before.length + kept.length ≤ before.length + old.length
              omega
            · exact Nat.zero_le _ }
    | some comment =>
      rw [hSave] at hNext
      have hSome : left ≠ [] := by
        intro hNil
        rw [hNil, List.length_nil] at hLeft
        have hNone := List.eq_nil_of_length_eq_zero hLeft.symm
        rw [hNone] at hSave
        cases hSave
      have hLast := List.dropLast_append_getLast hSome
      generalize left.getLast hSome = last at hLast
      have hPlace : before.length + old.length - 1 =
          (before ++ (kept ++ left.dropLast)).length := by
        have hOne := congrArg List.length hLast
        simp only [List.length_append, List.length_singleton] at hOne ⊢
        omega
      have hStore := store_append (before ++ (kept ++ left.dropLast)) rest last fun _ => comment
      have hTokens : before ++ (kept ++ (left ++ rest)) =
          before ++ (kept ++ left.dropLast) ++ last :: rest := by
        rw [← hLast]
        simp
      simp only [hTokens, hPlace, hStore, Option.map_some]
      refine ⟨_, some ⟨kept, [comment]⟩, rfl, ?_⟩
      exact
        { used_pos := hPos
          used_le := hUsed
          tokens := by
            refine ⟨kept ++ left.dropLast ++ [comment], ?_, ?_, fun hFill => by cases hFill⟩
            · rw [hDrop]
              simp
            · show _ = old.length
              rw [List.length_append] at hPlace
              rw [List.length_append, List.length_singleton]
              omega
          next := by
            rw [hDrop]
            exact hNext
          counted := rfl
          filled := by
            intro _ a hA
            cases hA
            refine ⟨?_, ?_, ?_⟩
            · unfold AddrPtrs.read
              simp only []
              rw [List.append_assoc, List.append_assoc, hRead, ← List.append_assoc kept,
                ← List.append_assoc before, Chain.read_take]
              rfl
            · show before.length + kept.length ≤ before.length + old.length
              omega
            · show (before ++ (kept ++
                left.dropLast)).length + 1 ≤
                before.length + old.length
              omega }

/-
  Every round goes over some tokens, in both passes the same
  number, and counts the next address of the list.
-/
theorem parseRound_takes (fill : Bool) (before : List Token) (first : Token)
    (others : List Token) :
    ∃ r found, parseRound fill (before ++ first :: others) before.length
          (first :: others).length = some r ∧
        r.Takes fill before (first :: others) found := by
  have hWindow : ((before ++ first :: others).drop before.length).take (first :: others).length =
        first :: others := by
    rw [List.drop_left, List.take_length]
  have hPos : 0 < (first :: others).length := Nat.succ_pos _
  unfold parseRound
  simp only [hWindow, List.head?_cons, Option.bind_some]
  generalize hI : ((first :: others).takeWhile fun t =>
    t.token = 0 || t.token = chr '"').length = i
  by_cases hGroup : ((first :: others).drop i).head?.map (·.token) = some (chr ':')
  · rw [if_pos hGroup]
    have hIn : i < (first :: others).length := by
      rw [← Nat.not_le]
      intro hLe
      rw [List.drop_of_length_le hLe] at hGroup
      cases hGroup
    refine ⟨_, some ⟨[], (first :: others).take (i + 1)⟩, rfl,
      Round.takes_of_same (Nat.succ_pos i) hIn ?_ rfl ?_⟩
    · intro fuel
      simp only [parseaddrLoop, hI, if_pos hGroup]
      rfl
    · intro _ a hA
      cases hA
      refine ⟨?_, Nat.zero_le _, Nat.le_refl _⟩
      unfold AddrPtrs.read
      rw [Chain.read_null, Chain.read_take]
  rw [if_neg hGroup]
  by_cases hComma : first.token = chr ','
  · rw [if_pos hComma]
    refine ⟨_, none, rfl, Round.takes_of_same Nat.one_pos hPos ?_ rfl ?_⟩
    · intro fuel
      simp only [parseaddrLoop, hI, if_neg hGroup, if_pos hComma]
      rfl
    · intro _ a hA
      cases hA
  rw [if_neg hComma]
  by_cases hSemi : first.token = chr ';'
  · rw [if_pos hSemi]
    refine ⟨_, some ⟨[], [first]⟩, rfl, Round.takes_of_same Nat.one_pos hPos ?_ rfl ?_⟩
    · intro fuel
      simp only [parseaddrLoop, hI, if_neg hGroup, if_neg hComma, if_pos hSemi]
      rfl
    · intro _ a hA
      cases hA
      refine ⟨?_, Nat.zero_le _, Nat.le_refl _⟩
      unfold AddrPtrs.read
      rw [Chain.read_null, Chain.read_take]
      rfl
  rw [if_neg hSemi]
  generalize hName : (first :: others).takeWhile (fun t =>
    t.token != chr ';' && t.token != chr ',' && t.token != chr '<') = name
  by_cases hRoute : ((first :: others).drop name.length).head?.map (·.token) = some (chr '<')
  · rw [if_pos hRoute]
    have hSplit := List.takeWhile_append_dropWhile
      (p := fun t : Token =>
        t.token != chr ';' && t.token != chr ',' && t.token != chr '<') (l := first :: others)
    rw [hName] at hSplit
    cases hAfter : (first :: others).dropWhile (fun t : Token =>
        t.token != chr ';' && t.token != chr ',' && t.token != chr '<') with
    | nil =>
      rw [hAfter, List.append_nil] at hSplit
      rw [← hSplit, List.drop_length] at hRoute
      cases hRoute
    | cons bracket inside =>
      rw [hAfter] at hSplit
      have hLoop : ∀ fuel, parseaddrLoop (fuel + 1) (first :: others) =
            ⟨inside.takeWhile (fun t => t.token != chr '>'), routeName name⟩ ::
              parseaddrLoop fuel ((first :: others).drop (name.length + (1 + (inside.takeWhile
                  fun t => t.token != chr '>').length + 1))) := by
        intro fuel
        have hBracket : (first :: others).drop name.length = bracket :: inside := by
          rw [← hSplit, List.drop_left]
        have hHead := hRoute
        rw [hBracket] at hHead
        simp only [parseaddrLoop, hI, if_neg hGroup, if_neg hComma, if_neg hSemi, hName, hBracket,
          if_pos hHead, List.drop_succ_cons, List.drop_zero, ← List.drop_drop]
      rw [← hSplit] at hLoop ⊢
      refine routeRound_takes fill before name bracket inside rfl fun fuel => ?_
      rw [hLoop]
      apply congrArg (List.cons _)
      apply congrArg (parseaddrLoop fuel)
      split
      · apply congrArg (fun n => List.drop n _)
        omega
      · rename_i hEnd
        rw [List.drop_of_length_le, List.drop_of_length_le]
        · rw [List.length_append, List.length_cons]
          omega
        · rw [List.length_append, List.length_cons]
          omega
  rw [if_neg hRoute]
  by_cases hStray : oldStyleLength false (first :: others) = 0
  · rw [if_pos hStray]
    refine ⟨_, none, rfl, Round.takes_of_same Nat.one_pos hPos ?_ rfl ?_⟩
    · intro fuel
      simp only [parseaddrLoop, hI, if_neg hGroup, if_neg hComma, if_neg hSemi, hName,
        if_neg hRoute, if_pos hStray]
      rfl
    · intro _ a hA
      cases hA
  rw [if_neg hStray]
  have hLe := oldStyleLength_le false (first :: others)
  have hLoop : ∀ fuel, parseaddrLoop (fuel + 1) (first :: others) =
        ⟨((first :: others).take (oldStyleLength false (first :: others))).filter
              (fun t => t.token != chr '('),
          (((first :: others).take
            (oldStyleLength false (first :: others))).filter
              fun t => t.token = chr '(').getLast?.toList⟩ ::
          parseaddrLoop fuel ((first :: others).drop (oldStyleLength false (first :: others))) := by
    intro fuel
    simp only [parseaddrLoop, hI, if_neg hGroup, if_neg hComma, if_neg hSemi, hName, if_neg hRoute,
      if_neg hStray]
  generalize oldStyleLength false (first :: others) = n at hStray hLe hLoop ⊢
  have hOld : ((first :: others).take n).length = n := by
    rw [List.length_take]
    exact Nat.min_eq_left hLe
  have hTakes := oldRound_takes fill before ((first :: others).take n) ((first :: others).drop n)
    (by omega)
  rw [List.take_append_drop, hOld] at hTakes
  exact hTakes hLoop

------------
-- Runs
------------

/- The first pass counts the addresses of the list. -/
theorem parseaddrPass_null (fuel : Nat) (before window : List Token) (n : Nat) :
    parseaddrPass fuel (before ++ window) before.length window.length none n =
      some (before ++ window, none, n + (parseaddrLoop fuel window).length) := by
  induction fuel generalizing before window n with
  | zero => rfl
  | succ fuel ih =>
    cases window with
    | nil => rfl
    | cons first others =>
      have hSome : (first :: others).length ≠ 0 := Nat.succ_ne_zero _
      rcases parseRound_takes false before first others with ⟨r, found, hRound, hTakes⟩
      rcases hTakes.tokens with ⟨changed, hTokens, hChanged, hSame⟩
      rw [hSame rfl, List.take_append_drop] at hTokens
      have hRest : ∀ m, parseaddrPass fuel r.tokens (before.length + r.used)
          ((first :: others).length - r.used) none m =
            some (before ++ first :: others, none, m + (parseaddrLoop fuel ((first :: others).drop
                  r.used)).length) := by
        intro m
        have hRun := ih (before ++ (first :: others).take r.used) ((first :: others).drop r.used) m
        rw [List.append_assoc, List.take_append_drop, List.length_append, List.length_take,
          Nat.min_eq_left hTakes.used_le, List.length_drop] at hRun
        rw [hTokens]
        exact hRun
      rw [hTakes.next]
      simp only [parseaddrPass, Option.isSome_none]
      rw [if_neg hSome, hRound, Option.bind_some]
      have hCounted := hTakes.counted
      cases hAddr : r.addr with
      | none =>
        rw [hAddr, Option.isSome_none, Option.isSome_eq_false_iff,
          Option.isNone_iff_eq_none] at hCounted
        rw [hCounted]
        exact hRest n
      | some addr =>
        rw [hAddr, Option.isSome_some] at hCounted
        rcases Option.isSome_iff_exists.mp hCounted with ⟨a, hFound⟩
        rw [hFound]
        simp only [Slots.write_null, Option.bind_some, hRest, Option.toList_some,
          List.length_append, List.length_singleton, Nat.add_assoc]

/-
  The second pass writes as many, and what it writes are the
  addresses of the list, read in the tokens as it leaves them.
-/
theorem parseaddrPass_fill (fuel : Nat) (before window : List Token) :
    ∃ (changed : List Token) (addrs : List AddrPtrs), (∀ slots n,
        parseaddrPass fuel (before ++ window) before.length window.length (some slots) n =
          (Slots.writes
            (addrs.map fun a (_ : AddrPtrs) => a)
            (some slots)).map fun slots =>
              (before ++ changed, slots.map Slots.array, n + addrs.length)) ∧
        changed.length = window.length ∧
        addrs.map (AddrPtrs.read (before ++ changed)) = parseaddrLoop fuel window := by
  induction fuel generalizing before window with
  | zero => exact ⟨window, [], fun _ _ => rfl, rfl, rfl⟩
  | succ fuel ih =>
    cases window with
    | nil => exact ⟨[], [], fun _ _ => rfl, rfl, rfl⟩
    | cons first others =>
      have hSome : (first :: others).length ≠ 0 := Nat.succ_ne_zero _
      rcases parseRound_takes true before first others with ⟨r, found, hRound, hTakes⟩
      rcases hTakes.tokens with ⟨taken, hTokens, hTaken, _⟩
      rcases ih (before ++ taken) ((first :: others).drop r.used) with
        ⟨rest, addrs, hRun, hLength, hRead⟩
      rw [List.length_append, hTaken, List.length_drop] at hRun
      rw [List.length_drop] at hLength
      simp only [List.append_assoc, ← hTokens] at hRun
      rw [List.append_assoc] at hRead
      have hUsed := hTakes.used_le
      rw [hTakes.next, ← hRead]
      refine ⟨taken ++ rest, r.addr.toList ++ addrs, ?_, ?_, ?_⟩
      · intro slots n
        simp only [parseaddrPass, Option.isSome_some]
        rw [if_neg hSome, hRound, Option.bind_some]
        cases hAddr : r.addr with
        | none => exact hRun slots n
        | some addr =>
          simp only [Option.toList_some, List.singleton_append, List.map_cons,
            Slots.writes, List.length_cons]
          rcases Slots.write_array (fun _ => addr) slots with hFull | ⟨next, hNext⟩
          · simp only [hFull, Option.bind_none, Option.map_none]
          · simp only [hNext, Option.bind_some]
            rw [Nat.add_comm addrs.length 1, ← Nat.add_assoc]
            exact hRun next (n + 1)
      · rw [List.length_append, hTaken, hLength]
        omega
      · rw [List.map_append]
        apply congrArg (· ++ _)
        cases hAddr : r.addr with
        | none =>
          have hNone := hTakes.counted
          rw [hAddr, Option.isSome_none, Option.isSome_eq_false_iff,
            Option.isNone_iff_eq_none] at hNone
          rw [hNone]
          rfl
        | some addr =>
          rcases hTakes.filled rfl addr hAddr with ⟨hFound, hFirst, hName⟩
          have hSame : (before ++ (taken ++ rest)).take (before.length + r.used) =
                r.tokens.take (before.length + r.used) := by
            have hFront : before.length + r.used = (before ++ taken).length := by
              rw [List.length_append, hTaken]
            rw [hTokens, hFront, ← List.append_assoc, ← List.append_assoc, List.take_left,
              List.take_left]
          rw [hFound, Option.toList_some, Option.toList_some, List.map_singleton]
          unfold AddrPtrs.read
          rw [Chain.read_congr hFirst hSame, Chain.read_congr hName hSame]

/-
  The two passes of the parser agree.  Each counts the same
  tokens and the same addresses in both passes, and writes as
  many as it counts: a pass fails only with an array that is
  shorter, and the arrays that are allocated are not.
-/
theorem parser_passes_agree :
    (∀ addr : List Byte,
      let s := addr.takeWhile (· ≠ 0)
      let pass := tokenizePass s.length false s
      let n := (tokenize addr).length
      pass none 0 = some (none, n) ∧ (∀ array, (pass (some ⟨array, 0⟩) 0).isSome ↔
            n ≤ array.length) ∧
        (∀ after,
          pass (some ⟨List.replicate n clearToken ++ after, 0⟩) 0 =
            some (some (tokenize addr ++ after), n)) ∧
        rfc822tAllocNew addr = some (tokenize addr, n)) ∧
      ∀ tokens : List Token,
        let pass :=
          parseaddrPass tokens.length tokens 0 tokens.length
        let n := (parseaddr tokens).length
        pass none 0 = some (tokens, none, n) ∧ (∃ changed addrs,
            addrs.map (AddrPtrs.read changed) = parseaddr tokens ∧ ∀ array,
                pass (some ⟨array, 0⟩) 0 =
                  if n ≤ array.length then
                    some (changed, some (addrs ++ array.drop n), n)
                  else
                    none) ∧
          ∃ changed addrs, rfc822aAlloc tokens = some (changed, addrs, n) ∧
              addrs.map (AddrPtrs.read changed) = parseaddr tokens := by
  refine ⟨?_, ?_⟩
  · intro addr
    simp only []
    have hFills : Fills _ clearToken (tokenize addr) :=
      fills_tokenizePass (addr.takeWhile (· ≠ 0)).length false (addr.takeWhile (· ≠ 0))
    have hCount := hFills.count 0
    have hFill := fun after => hFills.fill after 0
    rw [Nat.zero_add] at hCount
    simp only [Nat.zero_add] at hFill
    refine ⟨hCount, fun array => hFills.isSome_iff array 0, hFill, ?_⟩
    unfold rfc822tAllocNew
    simp only [hCount, Option.bind_some]
    split
    · have hLast := hFill []
      rw [List.append_nil, List.append_nil] at hLast
      rw [hLast]
      rfl
    · rename_i hNone
      have hNil := List.eq_nil_of_length_eq_zero (not_not.mp hNone)
      rw [hCount, hNil]
      rfl
  · intro tokens
    simp only []
    have hNull := parseaddrPass_null tokens.length [] tokens 0
    rw [List.nil_append, Nat.zero_add] at hNull
    rcases parseaddrPass_fill tokens.length [] tokens with ⟨changed, addrs, hRun, hLength, hRead⟩
    have hAddrs : addrs.length = (parseaddr tokens).length := by
      rw [parseaddr, ← hRead, List.length_map]
    have hPass : ∀ array, parseaddrPass tokens.length tokens 0 tokens.length (some ⟨array, 0⟩) 0 =
          if (parseaddr tokens).length ≤ array.length then
            some (changed, some (addrs ++ array.drop (parseaddr tokens).length),
              (parseaddr tokens).length)
          else
            none := by
      intro array
      have hSlots := hRun ⟨array, 0⟩ 0
      rw [Slots.writes_items, hAddrs] at hSlots
      refine hSlots.trans ?_
      split
      · simp only [Option.map_some, List.nil_append, Nat.zero_add]
      · rfl
    refine ⟨hNull, ⟨changed, addrs, hRead, hPass⟩, ?_⟩
    have hCount : parseaddrPass tokens.length tokens 0 tokens.length none 0 =
          some (tokens, none, (parseaddr tokens).length) :=
      hNull
    unfold rfc822aAlloc
    simp only [hCount, Option.bind_some]
    split
    · refine ⟨changed, addrs, ?_, hRead⟩
      rw [hPass, List.length_replicate, if_pos (Nat.le_refl _), List.drop_of_length_le
          (Nat.le_of_eq List.length_replicate),
        List.append_nil]
      rfl
    · rename_i hNone
      have hNil := List.eq_nil_of_length_eq_zero (not_not.mp hNone)
      refine ⟨tokens, [], ?_, hNil.symm⟩
      rw [hCount]
      rfl

end Wmail.Rfc822
