import Wmail.Authlib.Hmac

/-
  Login tokens of the calendar daemon (pcp/pcpdauthtoken.c).

  The keyed hash is open, and so are the new keys.  Names and
  tokens are C strings.

  Key theorems include:
    * `key_afterChecks`
    * `authtoken_window`
-/

namespace Wmail.Authtoken

open Authlib (HashInfo)

/- What `time` returns: seconds since the Epoch. -/
structure Time where
  secs : Nat
  room : secs < 2 ^ 63

/- A number as a `time_t`. -/
def timeT (n : Int) : Int :=
  n.bmod (2 ^ 64)

def xdigit : List Byte :=
  bytes "0123456789ABCDEF"

/- `nyb`. -/
def nyb (c : Byte) : Option Nat :=
  xdigit.idxOf? c

/- The last digits of a time; the division goes to zero. -/
def strhFrom : Nat → Int → List Byte
  | 0, _ => []
  | i + 1, t => strhFrom i (t.tdiv 16) ++ [xdigit.getD (t % 16).toNat 0]

/- `libmail_strh_time_t`. -/
def strhTimeT (t : Int) : List Byte :=
  strhFrom 16 t

/- The first loop of `authtoken_verify`. -/
def readTime (tval : Int) : List Byte → Int × List Byte
  | [] => (tval, [])
  | c :: p =>
    match nyb c with
    | none => (tval, c :: p)
    | some n => readTime (timeT (tval * 16 + n)) p

set_option maxRecDepth 8000 in
theorem nyb_xdigit {n : Nat} (hDigit : n < 16) : nyb (xdigit.getD n 0) = some n := by
  revert n
  decide

theorem length_strhFrom (i : Nat) (t : Int) : (strhFrom i t).length = i := by
  induction i generalizing t with
  | zero => rfl
  | succ i ih => rw [strhFrom, List.length_append, ih, List.length_singleton]

theorem timeT_of_lt {n : Nat} (hRoom : n < 2 ^ 63) : timeT n = n := by
  unfold timeT
  exact Int.bmod_eq_of_le (by omega) (by omega)

/- The digits of a time are read back. -/
theorem readTime_strhFrom (i : Nat) {t : Nat} (hDigits : t < 16 ^ i) (hRoom : t < 2 ^ 63)
    (rest : List Byte) : readTime 0 (strhFrom i t ++ rest) = readTime t rest := by
  induction i generalizing t rest with
  | zero =>
    rw [Nat.pow_zero, Nat.lt_one_iff] at hDigits
    subst hDigits
    rfl
  | succ i ih =>
    have hLess : t / 16 < 16 ^ i := by
      rw [Nat.pow_succ] at hDigits
      exact Nat.div_lt_of_lt_mul (by rw [Nat.mul_comm]; exact hDigits)
    have hDigit := nyb_xdigit (Nat.mod_lt t (by decide : 0 < 16))
    have hDiv : (t : Int).tdiv 16 = ((t / 16 : Nat) : Int) := rfl
    have hMod : ((t : Int) % 16).toNat = t % 16 := by omega
    have hWhole : ((t / 16 : Nat) : Int) * 16 + ((t % 16 : Nat) : Int) = t := by omega
    rw [strhFrom, List.append_assoc, hDiv, hMod,
      ih hLess (by omega), List.singleton_append, readTime,
      hDigit]
    simp only [hWhole, timeT_of_lt hRoom]

theorem readTime_strh (t : Time) (rest : List Byte) :
    readTime 0 (strhTimeT t.secs ++ chr '-' :: rest) = ((t.secs : Int), chr '-' :: rest) := by
  have hDigits : t.secs < 16 ^ 16 := Nat.lt_trans t.room (by decide)
  unfold strhTimeT
  rw [readTime_strhFrom 16 hDigits t.room, readTime]
  rfl

/- `prev_token`, `cur_token` and `expire_time`. -/
structure Keys where
  prevToken : List Byte
  curToken : List Byte
  expireTime : Int
deriving DecidableEq, Repr

section Tokens

variable (hh : HashInfo) (TIMEOUT : Nat)

/- `mktoken`. -/
def mktoken (hash t : List Byte) (now : Int) : List Byte :=
  let nowS := strhTimeT now
  let (kxopad, kxipad) := hh.hashkey t
  nowS ++ chr '-' :: (hh.hashtext (hash ++ nowS) kxopad kxipad).flatMap fun c =>
      [xdigit.getD (c.toNat / 16) 0, xdigit.getD (c.toNat % 16) 0]

/- `authtoken_create`. -/
def authtokenCreate (keys : Keys) (userid : List Byte) (now : Int) : List Byte :=
  mktoken hh userid keys.curToken now

/- `authtoken_verify`, with `when`. -/
def authtokenVerify (keys : Keys) (now : Int) (userid token : List Byte) : Option Int :=
  let (tval, p) := readTime 0 token
  if p.head? ≠ some (chr '-') ∨ p.length + 16 ≠ token.length then
    none
  else if tval < now - TIMEOUT * 4 ∨ tval > now + 60 then
    none
  else if mktoken hh userid keys.curToken tval = token then
    some tval
  else if mktoken hh userid keys.prevToken tval = token then
    some tval
  else
    none

/- The keys are still good. -/
def Keys.fresh (keys : Keys) (now : Int) : Bool :=
  now < keys.expireTime && keys.expireTime - TIMEOUT * 4 ≤ now

/-
  `authtoken_check`, with the seconds that are left.  The new
  key is only used where the old one has expired.
-/
def authtokenCheck (keys : Keys) (now : Int) (newtoken : List Byte) : Keys × Int :=
  if keys.fresh TIMEOUT now then
    (keys, keys.expireTime - now)
  else
    (⟨keys.curToken, newtoken, now + TIMEOUT * 2⟩, TIMEOUT * 2)

/- The keys after some checks. -/
def afterChecks (checks : List (Time × List Byte)) (keys : Keys) : Keys :=
  checks.foldl (fun keys check => (authtokenCheck TIMEOUT keys check.1.secs check.2).1)
    keys

/- How often the keys are rotated. -/
def rotations : List (Time × List Byte) → Keys → Nat
  | [], _ => 0
  | (now, newtoken) :: checks, keys =>
    (if keys.fresh TIMEOUT now.secs then 0 else 1) +
      rotations checks (authtokenCheck TIMEOUT keys now.secs newtoken).1

variable {TIMEOUT} {checks : List (Time × List Byte)} {keys : Keys}

/- Without a rotation the keys stay. -/
theorem afterChecks_none (hNone : rotations TIMEOUT checks keys = 0) :
    afterChecks TIMEOUT checks keys = keys := by
  induction checks generalizing keys with
  | nil => rfl
  | cons check checks ih =>
    rcases check with ⟨now, newtoken⟩
    rw [rotations, Nat.add_eq_zero_iff] at hNone
    rcases hNone with ⟨hHere, hRest⟩
    have hFresh : keys.fresh TIMEOUT now.secs = true := by
      by_contra hOld
      rw [if_neg hOld] at hHere
      cases hHere
    have hSame : (authtokenCheck TIMEOUT keys now.secs newtoken).1 = keys := by
      unfold authtokenCheck
      rw [if_pos hFresh]
    rw [hSame] at hRest
    have hLater := ih hRest
    unfold afterChecks at hLater ⊢
    rw [List.foldl_cons, hSame]
    exact hLater

/- A key outlives one rotation. -/
theorem key_afterChecks (hOnce : rotations TIMEOUT checks keys ≤ 1) :
    (afterChecks TIMEOUT checks keys).curToken = keys.curToken ∨
      (afterChecks TIMEOUT checks keys).prevToken = keys.curToken := by
  induction checks generalizing keys with
  | nil => exact Or.inl rfl
  | cons check checks ih =>
    rcases check with ⟨now, newtoken⟩
    rw [rotations] at hOnce
    unfold afterChecks
    rw [List.foldl_cons]
    cases hFresh : keys.fresh TIMEOUT now.secs with
    | true =>
      have hSame : (authtokenCheck TIMEOUT keys now.secs newtoken).1 = keys := by
        unfold authtokenCheck
        rw [if_pos hFresh]
      rw [hSame] at hOnce ⊢
      rw [hFresh, if_pos rfl, Nat.zero_add] at hOnce
      exact ih hOnce
    | false =>
      have hNew : (authtokenCheck TIMEOUT keys now.secs newtoken).1.prevToken = keys.curToken := by
        unfold authtokenCheck
        rw [hFresh]
        rfl
      rw [hFresh] at hOnce
      have hNone : rotations TIMEOUT checks (authtokenCheck TIMEOUT keys now.secs
            newtoken).1 = 0 := by
        simp only [Bool.false_eq_true, if_false] at hOnce
        omega
      have hStay := afterChecks_none hNone
      unfold afterChecks at hStay
      right
      rw [hStay]
      exact hNew

variable {hh}

/- The time and the dash of a token are found. -/
theorem authtokenVerify_mktoken (keys : Keys) (now : Int) (userid t : List Byte)
    (created : Time) :
    authtokenVerify hh TIMEOUT keys now userid (mktoken hh userid t created.secs) =
      if (created.secs : Int) < now - TIMEOUT * 4 ∨ (created.secs : Int) > now + 60 then
        none
      else if mktoken hh userid keys.curToken created.secs = mktoken hh userid t created.secs then
        some (created.secs : Int)
      else if mktoken hh userid keys.prevToken created.secs = mktoken hh userid t created.secs then
        some (created.secs : Int)
      else
        none := by
  generalize hToken : mktoken hh userid t created.secs = token
  have hText : ∃ rest, token = strhTimeT created.secs ++ chr '-' :: rest := ⟨_, hToken.symm⟩
  rcases hText with ⟨rest, hText⟩
  have hRead : readTime 0 token = ((created.secs : Int), chr '-' :: rest) := by
    rw [hText, readTime_strh]
  have hLength : (chr '-' :: rest).length + 16 = token.length := by
    rw [hText, List.length_append, strhTimeT, length_strhFrom, Nat.add_comm]
  unfold authtokenVerify
  rw [hRead]
  simp only []
  rw [if_neg]
  rintro (hDash | hPlace)
  · exact hDash rfl
  · exact hPlace hLength

/- A token under one of the two keys is good in its time. -/
theorem authtokenVerify_key {now : Int} {userid t : List Byte} {created : Time}
    (hKey : keys.curToken = t ∨ keys.prevToken = t)
    (hFrom : (created.secs : Int) ≤ now + 60) (hUntil : now ≤ created.secs + TIMEOUT * 4) :
    authtokenVerify hh TIMEOUT keys now userid (mktoken hh userid t created.secs) =
      some (created.secs : Int) := by
  rw [authtokenVerify_mktoken, if_neg (by omega)]
  split
  · rfl
  · rename_i hOther
    rcases hKey with hCur | hPrev
    · exact absurd (by rw [hCur]) hOther
    · rw [if_pos (by rw [hPrev])]

/- What is accepted was made under one of the keys. -/
theorem token_of_accepted {now when : Int} {userid token : List Byte}
    (hAccepted : authtokenVerify hh TIMEOUT keys now userid token = some when) :
    now - TIMEOUT * 4 ≤ when ∧ when ≤ now + 60 ∧ (token = mktoken hh userid keys.curToken when ∨
        token = mktoken hh userid keys.prevToken when) := by
  unfold authtokenVerify at hAccepted
  simp only [] at hAccepted
  split at hAccepted
  · cases hAccepted
  split at hAccepted
  · cases hAccepted
  rename_i hWindow
  split at hAccepted
  · rename_i hCur
    cases hAccepted
    exact ⟨by omega, by omega, Or.inl hCur.symm⟩
  split at hAccepted
  · rename_i hPrev
    cases hAccepted
    exact ⟨by omega, by omega, Or.inr hPrev.symm⟩
  · cases hAccepted

end Tokens

/-
  A token is good from its time on until it times out, across
  one rotation of the keys; and every token that is accepted
  is the one of a time in this window.
-/
theorem authtoken_window (hh : HashInfo) (TIMEOUT : Nat) (keys : Keys) (userid : List Byte) :
    (∀ (checks : List (Time × List Byte)) (created now : Time),
      rotations TIMEOUT checks keys ≤ 1 → created.secs ≤ now.secs + 60 →
          now.secs ≤ created.secs + TIMEOUT * 4 → authtokenVerify hh TIMEOUT
                (afterChecks TIMEOUT checks keys) now.secs userid
                (authtokenCreate hh keys userid created.secs) =
              some (created.secs : Int)) ∧
      ∀ (now : Time) (token : List Byte) (when : Int),
        authtokenVerify hh TIMEOUT keys now.secs userid token = some when →
          (now.secs : Int) - TIMEOUT * 4 ≤ when ∧
            when ≤ now.secs + 60 ∧ (token = mktoken hh userid keys.curToken when ∨
                token = mktoken hh userid keys.prevToken when) := by
  refine ⟨?_, ?_⟩
  · intro checks created now hOnce hFrom hUntil
    exact authtokenVerify_key (key_afterChecks hOnce) (by omega) (by omega)
  · intro now token when hAccepted
    exact token_of_accepted hAccepted

/- Half an hour, one expired key, and a block function. -/
theorem authtoken_window_rotated : let hh := Authlib.hmacSha1 fun words _ => words
    let keys : Keys := ⟨bytes "old", bytes "key", 4000⟩
    let later := (authtokenCheck 1800 keys 5000 (bytes "new")).1
    let token := authtokenCreate hh keys (bytes "joe") 3000
    authtokenVerify hh 1800 later 6000 (bytes "joe") token = some 3000 ∧
      (token = mktoken hh (bytes "joe") later.curToken 3000 ∨
        token = mktoken hh (bytes "joe") later.prevToken 3000) := by
  intro hh keys later token
  have hGood := (authtoken_window hh 1800 keys (bytes "joe")).1 [(⟨5000, by decide⟩, bytes "new")]
      ⟨3000, by decide⟩ ⟨6000, by decide⟩ (by decide)
      (by decide) (by decide)
  refine ⟨hGood, ?_⟩
  exact ((authtoken_window hh 1800 later (bytes "joe")).2 ⟨6000, by decide⟩ token 3000 hGood).2.2

end Wmail.Authtoken
