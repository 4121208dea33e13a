import Wmail.Authlib.Authdaemon

/-
  Replies of the authentication daemon (authdaemond.c,
  authdaemonlib.c).

  The daemon prints what it knows of an account as lines
  `NAME=value`, and a line with a dot behind them.  The client
  goes through the lines.

  Key theorems include:
    * `replyLines_lines`
    * `authdaemondo_printauth_iff`
-/

namespace Wmail.Authlib

open Maildir

/- `struct authinfo`, as far as it is printed. -/
structure AuthInfo where
  sysusername : Option (List Byte)
  sysuserid : Option UInt32
  sysgroupid : UInt32
  homedir : List Byte
  address : Option (List Byte)
  fullname : Option (List Byte)
  maildir : Option (List Byte)
  quota : Option (List Byte)
  passwd : Option (List Byte)
  clearpasswd : Option (List Byte)
deriving DecidableEq

/- The strings of an account, as far as there are any. -/
def AuthInfo.strings (a : AuthInfo) : List (Option (List Byte)) :=
  [a.sysusername, some a.homedir, a.address, a.fullname,
    a.maildir, a.quota, a.passwd, a.clearpasswd]

def AuthInfo.texts (a : AuthInfo) : List (List Byte) :=
  a.strings.filterMap id

variable {a : AuthInfo}

theorem AuthInfo.mem_texts {v : List Byte} : v ∈ a.texts ↔ some v ∈ a.strings := by
  unfold AuthInfo.texts
  simp

/- No string of the account has a newline in it. -/
def AuthInfo.OneLine (a : AuthInfo) : Prop :=
  ∀ v, v ∈ a.texts → nl ∉ v

instance (a : AuthInfo) : Decidable a.OneLine := by
  unfold AuthInfo.OneLine
  infer_instance

/- `libmail_str_uid_t`. -/
def strUidT (t : UInt32) : List Byte :=
  decimalDigits (numbufsize - 1) t.toNat

/- `atol`, assigned to a `uid_t`. -/
def atolUid (r : List Byte) : UInt32 :=
  match scanInt r with
  | none => 0
  | some (n, _) => UInt32.ofInt (longOf n).toInt

/-
  `writeauthflush`.  The buffer reaches from `buf` to
  `writeptr`.
-/
def writeauthflush (w : Writer Byte) : Writer Byte :=
  w.flush

/- `writeauthbuf`. -/
def writeauthbuf (w : Writer Byte) (p : List Byte) : Writer Byte :=
  if _hNone : p = [] then
    w
  else if p.length < bufsiz - w.held.length then
    ⟨w.held ++ p, w.sent⟩
  else
    writeauthbuf ⟨p.take bufsiz, (writeauthflush w).sent⟩ (p.drop bufsiz)
termination_by p.length
decreasing_by
  have hSome := List.length_pos_of_ne_nil _hNone
  rw [List.length_drop]
  exact Nat.sub_lt hSome (by decide)

/- `writeenvval`. -/
def writeenvval (w : Writer Byte) (env val : List Byte) : Writer Byte :=
  writeauthbuf (writeauthbuf (writeauthbuf (writeauthbuf w env) (bytes "=")) val) (bytes "\n")

/- A value that may be missing. -/
def writeenvopt (w : Writer Byte) (env : List Byte) (val : Option (List Byte)) : Writer Byte :=
  match val with
  | none => w
  | some val => writeenvval w env val

/- `printauth`: what is written, buffer by buffer. -/
def printauth (authinfo : AuthInfo) : List (List Byte) :=
  let w : Writer Byte := ⟨[], []⟩
  let w := writeenvopt w (bytes "USERNAME") authinfo.sysusername
  let w := writeenvopt w (bytes "UID") (authinfo.sysuserid.map strUidT)
  let w := writeenvval w (bytes "GID") (strUidT authinfo.sysgroupid)
  let w := writeenvval w (bytes "HOME") authinfo.homedir
  let w := writeenvopt w (bytes "ADDRESS") authinfo.address
  let w := writeenvopt w (bytes "NAME") authinfo.fullname
  let w := writeenvopt w (bytes "MAILDIR") authinfo.maildir
  let w := writeenvopt w (bytes "QUOTA") authinfo.quota
  let w := writeenvopt w (bytes "PASSWD") authinfo.passwd
  let w := writeenvopt w (bytes "PASSWD2") authinfo.clearpasswd
  (writeauthflush (writeauthbuf w (bytes ".\n"))).sent

/- The reads of `readauth`, into `pl` bytes. -/
def readPieces : Nat → List (List Byte) → List Byte
  | _, [] => []
  | pl, piece :: coming =>
    if pl = 0 ∨ piece = [] then [] else piece.take pl ++ readPieces (pl - piece.length) coming

/- `readauth`; the last byte of the buffer ends the string. -/
def readauth (fd : Stream Byte) (pl : Nat) : List Byte :=
  cString (readPieces (pl - 1) fd.coming)

/- One line that is an assignment. -/
def AuthInfo.assign (a : AuthInfo) (p r : List Byte) : AuthInfo :=
  if p = bytes "USERNAME" then
    { a with sysusername := some r }
  else if p = bytes "UID" then
    { a with sysuserid := some (atolUid r) }
  else if p = bytes "GID" then
    { a with sysgroupid := atolUid r }
  else if p = bytes "HOME" then
    { a with homedir := r }
  else if p = bytes "ADDRESS" then
    { a with address := some r }
  else if p = bytes "NAME" then
    { a with fullname := some r }
  else if p = bytes "MAILDIR" then
    { a with maildir := some r }
  else if p = bytes "QUOTA" then
    { a with quota := some r }
  else if p = bytes "PASSWD" then
    { a with passwd := some r }
  else if p = bytes "PASSWD2" then
    { a with clearpasswd := some r }
  else
    a

/-
  How `authdaemondo` ends: with a call of the function that
  it was given, with -1, or with 1.
-/
inductive DaemonReply where
  | info (a : AuthInfo)
  | fail
  | error
deriving DecidableEq

/- The loop of `authdaemondo`. -/
def replyLines : AuthInfo → List (List Byte) → DaemonReply
  | _, [] => .error
  | a, line :: rest =>
    if line = bytes "." then
      .info a
    else if line = bytes "FAIL" then
      .fail
    else
      match cutAt (chr '=') line with
      | none => replyLines a rest
      | some (p, r) => replyLines (a.assign p r) rest

/- The account before the first line. -/
def noInfo : AuthInfo where
  sysusername := none
  sysuserid := none
  sysgroupid := 0
  homedir := []
  address := none
  fullname := none
  maildir := none
  quota := none
  passwd := none
  clearpasswd := none

/- `authdaemondo`, once the request has been written. -/
def authdaemondo (fd : Stream Byte) : DaemonReply :=
  replyLines noInfo (linesOf (readauth fd bufsiz))

@[simp] theorem writeauthbuf_text (w : Writer Byte) (p : List Byte) :
    (writeauthbuf w p).text = w.text ++ p := by
  induction w, p using writeauthbuf.induct with
  | case1 w => rw [writeauthbuf, dif_pos rfl, List.append_nil]
  | case2 w p hSome hFits =>
    rw [writeauthbuf, dif_neg hSome, if_pos hFits]
    exact (List.append_assoc _ _ _).symm
  | case3 w p hSome hFull ih =>
    rw [writeauthbuf, dif_neg hSome, if_neg hFull, ih]
    unfold writeauthflush Writer.text
    dsimp only
    rw [Writer.flush_flatten, List.append_assoc, List.take_append_drop]
    rfl

/- The line of a value, if there is one. -/
def fieldLine (env : List Byte) (val : Option (List Byte)) : List (List Byte) :=
  (val.map fun val => env ++ chr '=' :: val).toList

@[simp] theorem writeenvopt_text (w : Writer Byte) (env : List Byte) (val : Option (List Byte)) :
    (writeenvopt w env val).text = w.text ++ (fieldLine env val).flatMap (· ++ [nl]) := by
  have hNl : bytes "\n" = [nl] := rfl
  have hEq : bytes "=" = [chr '='] := rfl
  cases val with
  | none => exact (List.append_nil _).symm
  | some val => simp [writeenvopt, writeenvval, fieldLine, hNl, hEq]

/- The lines of an account, before the dot. -/
def AuthInfo.lines (a : AuthInfo) : List (List Byte) :=
  fieldLine (bytes "USERNAME") a.sysusername ++
    (fieldLine (bytes "UID") (a.sysuserid.map strUidT) ++
    (fieldLine (bytes "GID") (some (strUidT a.sysgroupid)) ++
    (fieldLine (bytes "HOME") (some a.homedir) ++
    (fieldLine (bytes "ADDRESS") a.address ++
    (fieldLine (bytes "NAME") a.fullname ++
    (fieldLine (bytes "MAILDIR") a.maildir ++
    (fieldLine (bytes "QUOTA") a.quota ++
    (fieldLine (bytes "PASSWD") a.passwd ++
    (fieldLine (bytes "PASSWD2") a.clearpasswd ++ [bytes "."])))))))))

/- Whatever the buffer does, these lines are sent. -/
theorem printauth_flatten (a : AuthInfo) : (printauth a).flatten = a.lines.flatMap (· ++ [nl]) := by
  have hDot : bytes ".\n" = bytes "." ++ [nl] := rfl
  have hVal : ∀ w env val, writeenvval w env val = writeenvopt w env (some val) := fun _ _ _ => rfl
  have hNone : (⟨[], []⟩ : Writer Byte).text = [] := rfl
  unfold printauth AuthInfo.lines writeauthflush
  simp only [Writer.flush_flatten, hVal, writeauthbuf_text, writeenvopt_text, hNone,
    List.nil_append, hDot, List.flatMap_append, List.flatMap_singleton, List.append_assoc]

/- What fits in the buffer is read, in whatever pieces. -/
theorem readPieces_eq {pl : Nat} {coming : List (List Byte)}
    (hReady : ∀ piece, piece ∈ coming → piece ≠ []) (hRoom : coming.flatten.length ≤ pl) :
    readPieces pl coming = coming.flatten := by
  induction coming generalizing pl with
  | nil => rfl
  | cons piece coming ih =>
    rw [List.flatten_cons, List.length_append] at hRoom
    have hSome := hReady piece List.mem_cons_self
    have hPos := List.length_pos_of_ne_nil hSome
    have hGo : ¬ (pl = 0 ∨ piece = []) := by
      rintro (hFull | hNone)
      · omega
      · exact hSome hNone
    rw [readPieces, if_neg hGo, List.take_of_length_le (by omega), ih (fun other hMem =>
        hReady other (List.mem_cons_of_mem _ hMem)) (by omega),
      List.flatten_cons]

/- A user id is read back. -/
theorem atolUid_strUidT (t : UInt32) : atolUid (strUidT t) = t := by
  have hBound := t.toNat_lt
  have hScan : scanInt (strUidT t) = some ((t.toNat : Int), []) :=
    scanInt_decimalDigits (hBound.trans (by decide))
  have hMod : ((t.toNat : Int) % 2 ^ 32).toNat = t.toNat := by omega
  unfold atolUid
  rw [hScan]
  simp only []
  rw [longOf_eq_ofInt (by omega) (by omega), Int64.toInt_ofInt_of_le (by omega) (by omega)]
  unfold UInt32.ofInt
  rw [hMod, UInt32.ofNat_toNat]

/-
  A line changes what its name stands for.  `set` is the
  account with the value, or without.
-/
theorem replyLines_fieldLine (env : List Byte) (hEnv : chr '=' ∉ env)
    (set : Option (List Byte) → AuthInfo)
    (hSet : ∀ r, (set none).assign env r = set (some r)) (val : Option (List Byte))
    (rest : List (List Byte)) :
    replyLines (set none) (fieldLine env val ++ rest) = replyLines (set val) rest := by
  cases val with
  | none => rfl
  | some r =>
    have hDot : env ++ chr '=' :: r ≠ bytes "." := by
      intro hSame
      have hMem : chr '=' ∈ bytes "." := by
        rw [← hSame]
        simp
      revert hMem
      decide
    have hFail : env ++ chr '=' :: r ≠ bytes "FAIL" := by
      intro hSame
      have hMem : chr '=' ∈ bytes "FAIL" := by
        rw [← hSame]
        simp
      revert hMem
      decide
    unfold fieldLine
    rw [Option.map_some, Option.toList_some, List.singleton_append, replyLines, if_neg hDot,
      if_neg hFail, cutAt_quoted hEnv]
    dsimp only
    rw [hSet]

/- The lines of an account give the account. -/
theorem replyLines_lines (a : AuthInfo) : replyLines noInfo a.lines = .info a := by
  rcases a with ⟨user, uid, gid, home, addr, name, dir, quota, pw, clear⟩
  have hUid : (uid.map strUidT).map atolUid = uid := by
    cases uid with
    | none => rfl
    | some t => simp only [Option.map_some, atolUid_strUidT]
  unfold AuthInfo.lines
  dsimp only
  refine (replyLines_fieldLine (bytes "USERNAME") (by decide)
    (fun v => ⟨v, none, 0, [], none, none, none, none, none, none⟩) (fun _ => rfl) _ _).trans ?_
  refine (replyLines_fieldLine (bytes "UID") (by decide)
    (fun v => ⟨user, v.map atolUid, 0, [], none, none, none,
      none, none, none⟩) (fun _ => rfl) _ _).trans ?_
  rw [hUid]
  refine (replyLines_fieldLine (bytes "GID") (by decide)
    (fun v => ⟨user, uid, (v.map atolUid).getD 0, [], none,
      none, none, none, none, none⟩) (fun _ => rfl) _ _).trans ?_
  dsimp only [Option.map_some, Option.getD_some]
  rw [atolUid_strUidT]
  refine (replyLines_fieldLine (bytes "HOME") (by decide)
    (fun v => ⟨user, uid, gid, v.getD [], none, none, none,
      none, none, none⟩) (fun _ => rfl) _ _).trans ?_
  dsimp only [Option.getD_some]
  refine (replyLines_fieldLine (bytes "ADDRESS") (by decide)
    (fun v => ⟨user, uid, gid, home, v, none, none, none, none, none⟩) (fun _ => rfl) _ _).trans ?_
  refine (replyLines_fieldLine (bytes "NAME") (by decide)
    (fun v => ⟨user, uid, gid, home, addr, v, none, none, none, none⟩) (fun _ => rfl) _ _).trans ?_
  refine (replyLines_fieldLine (bytes "MAILDIR") (by decide)
    (fun v => ⟨user, uid, gid, home, addr, name, v, none, none, none⟩) (fun _ => rfl) _ _).trans ?_
  refine (replyLines_fieldLine (bytes "QUOTA") (by decide)
    (fun v => ⟨user, uid, gid, home, addr, name, dir, v, none, none⟩) (fun _ => rfl) _ _).trans ?_
  refine (replyLines_fieldLine (bytes "PASSWD") (by decide)
    (fun v => ⟨user, uid, gid, home, addr, name, dir, quota, v, none⟩) (fun _ => rfl) _ _).trans ?_
  refine (replyLines_fieldLine (bytes "PASSWD2") (by decide)
    (fun v => ⟨user, uid, gid, home, addr, name, dir, quota, pw, v⟩) (fun _ => rfl) _ _).trans ?_
  rfl

/- An assignment adds one string at most. -/
theorem mem_texts_assign {p r v : List Byte} (hMem : v ∈ (a.assign p r).texts) :
    v = r ∨ v ∈ a.texts := by
  rw [AuthInfo.mem_texts] at hMem ⊢
  unfold AuthInfo.assign at hMem
  repeat' split at hMem
  all_goals
    simp only [AuthInfo.strings, List.mem_cons, List.not_mem_nil, Option.some.injEq] at hMem ⊢
    grind

/- What the client is told has no newline in it. -/
theorem replyLines_newline {a b : AuthInfo} {lines : List (List Byte)} (hClean : a.OneLine)
    (hLines : ∀ line, line ∈ lines → nl ∉ line) (hInfo : replyLines a lines = .info b) :
    b.OneLine := by
  induction lines generalizing a with
  | nil => cases hInfo
  | cons line lines ih =>
    have hRest : ∀ other, other ∈ lines → nl ∉ other :=
      fun other hMem => hLines other (List.mem_cons_of_mem _ hMem)
    rw [replyLines] at hInfo
    split at hInfo
    · cases hInfo
      exact hClean
    · split at hInfo
      · cases hInfo
      · split at hInfo
        · exact ih hClean hRest hInfo
        · rename_i p r hCut
          have hLine := hLines line List.mem_cons_self
          rw [(cutAt_eq hCut).2] at hLine
          have hValue : nl ∉ r := by
            intro hMem
            apply hLine
            exact List.mem_append_right _ (List.mem_cons_of_mem _ hMem)
          refine ih ?_ hRest hInfo
          intro v hMem
          rcases mem_texts_assign hMem with hHere | hOld
          · rw [hHere]
            exact hValue
          · exact hClean v hOld

/- What a byte of a reply may come from. -/
def AuthInfo.Prints (a : AuthInfo) (line : List Byte) : Prop :=
  ∀ c, c ∈ line → 46 ≤ c ∨ ∃ v, v ∈ a.texts ∧ c ∈ v

theorem AuthInfo.Prints.of_mem {v : List Byte} (hMem : v ∈ a.texts) : a.Prints v :=
  fun _ hByte => Or.inr ⟨v, hMem, hByte⟩

theorem AuthInfo.Prints.strUidT (a : AuthInfo) (t : UInt32) : a.Prints (strUidT t) := by
  intro c hByte
  left
  have hDigit := isdigit_decimalDigits hByte
  unfold isdigit at hDigit
  rw [Bool.and_eq_true, decide_eq_true_iff] at hDigit
  exact UInt8.le_trans (by decide) hDigit.1

theorem AuthInfo.Prints.fieldLine {env : List Byte} {val : Option (List Byte)}
    (hEnv : (env.all fun c => 46 ≤ c) = true) (hVal : ∀ v, v ∈ val → a.Prints v) :
    ∀ line, line ∈ fieldLine env val → a.Prints line := by
  intro line hMem c hByte
  cases val with
  | none => cases hMem
  | some v =>
    rw [List.mem_singleton.mp hMem, List.mem_append, List.mem_cons] at hByte
    rcases hByte with hName | hSign | hValue
    · have hAll := List.all_eq_true.mp hEnv c hName
      exact Or.inl (of_decide_eq_true hAll)
    · left
      rw [hSign]
      decide
    · exact hVal v rfl c hValue

/- All other bytes of a reply are printable. -/
theorem AuthInfo.prints_lines (a : AuthInfo) : ∀ line, line ∈ a.lines → a.Prints line := by
  have hUid : ∀ v, v ∈ a.sysuserid.map Authlib.strUidT → a.Prints v := by
    intro v hMem
    rcases Option.mem_map.mp hMem with ⟨t, _, hText⟩
    rw [← hText]
    exact Prints.strUidT a t
  have hGid : ∀ v, v ∈ some (Authlib.strUidT a.sysgroupid) → a.Prints v := by
    intro v hMem
    cases hMem
    exact Prints.strUidT a _
  have hField : ∀ val : Option (List Byte), (∀ v, v ∈ val → v ∈ a.texts) →
        ∀ v, v ∈ val → a.Prints v :=
    fun val hIn v hMem => Prints.of_mem (hIn v hMem)
  unfold AuthInfo.lines
  simp only [List.forall_mem_append]
  refine ⟨Prints.fieldLine (by decide) (hField _ ?_), Prints.fieldLine (by decide) hUid,
    Prints.fieldLine (by decide) hGid,
    Prints.fieldLine (by decide) (hField _ ?_),
    Prints.fieldLine (by decide) (hField _ ?_),
    Prints.fieldLine (by decide) (hField _ ?_),
    Prints.fieldLine (by decide) (hField _ ?_),
    Prints.fieldLine (by decide) (hField _ ?_),
    Prints.fieldLine (by decide) (hField _ ?_),
    Prints.fieldLine (by decide) (hField _ ?_), ?_⟩
  case refine_2 =>
    intro v hMem
    cases hMem
    rw [mem_texts]
    simp [AuthInfo.strings]
  case refine_9 =>
    intro line hMem
    rw [List.mem_singleton.mp hMem]
    intro c hByte
    rw [List.mem_singleton.mp hByte]
    exact Or.inl (by decide)
  all_goals
    intro v hMem
    rw [Option.mem_def] at hMem
    rw [mem_texts, ← hMem]
    simp [AuthInfo.strings]

/- A low byte that is in no string is in no line. -/
theorem AuthInfo.not_mem_lines {b : Byte} (hLow : b < 46) (hText : ∀ v, v ∈ a.texts → b ∉ v)
    (line : List Byte) (hMem : line ∈ a.lines) : b ∉ line := by
  intro hByte
  rcases a.prints_lines line hMem b hByte with hHigh | hIn
  · exact absurd hHigh (UInt8.not_le.mpr hLow)
  · rcases hIn with ⟨v, hValue, hHere⟩
    exact hText v hValue hHere

/-
  However the reply arrives, the client is told the account
  that was printed, unless a string has a newline in it.
-/
theorem authdaemondo_printauth_iff {a : AuthInfo} (hText : ∀ v, v ∈ a.texts → 0 ∉ v)
    (hTotal : (printauth a).flatten.length < bufsiz) {fd : Stream Byte}
    (hArrives : fd.coming.flatten = (printauth a).flatten) :
    authdaemondo fd = .info a ↔ a.OneLine := by
  constructor
  · intro hInfo
    apply replyLines_newline _ _ hInfo
    · intro v hMem
      have hNone : v = [] := by simpa [AuthInfo.texts, AuthInfo.strings, noInfo] using hMem
      rw [hNone]
      exact List.not_mem_nil
    · intro line hMem
      exact not_mem_of_mem_linesOf hMem
  · intro hClean
    have hRead : readPieces (bufsiz - 1) fd.coming = (printauth a).flatten := by
      rw [← hArrives] at hTotal ⊢
      exact readPieces_eq fd.ready (by omega)
    have hString : (0 : Byte) ∉ (printauth a).flatten := by
      rw [printauth_flatten]
      intro hMem
      rcases List.mem_flatMap.mp hMem with ⟨line, hLine, hByte⟩
      rcases List.mem_append.mp hByte with hIn | hEnd
      · exact a.not_mem_lines (by decide) hText line hLine hIn
      · cases List.mem_singleton.mp hEnd
    have hLines : linesOf (printauth a).flatten = a.lines := by
      have hAll := linesOf_flatMap (a.not_mem_lines (by decide) hClean) []
      rw [List.append_nil] at hAll
      rw [printauth_flatten, hAll]
      exact List.append_nil _
    unfold authdaemondo readauth
    rw [hRead, cString_eq_self hString, hLines, replyLines_lines]

/- An account, and what is printed of it. -/
def account (home : List Byte) : AuthInfo where
  sysusername := none
  sysuserid := some 1000
  sysgroupid := 1000
  homedir := home
  address := some (bytes "joe")
  fullname := none
  maildir := none
  quota := none
  passwd := none
  clearpasswd := none

def accountConnection (home : List Byte) : Stream Byte :=
  twoPieces (bytes "UID=1000\nGID=1000\nHO") (bytes "ME=" ++ (home ++ bytes "\nADDRESS=joe\n.\n"))
    (by decide) (by simp [bytes])

theorem accountConnection_coming (home : List Byte) : (accountConnection home).coming.flatten =
      (printauth (account home)).flatten := by
  have hId : strUidT 1000 = bytes "1000" := by decide
  rw [printauth_flatten]
  simp only [AuthInfo.lines, account, fieldLine, hId, Option.map_some, Option.map_none,
    Option.toList_some, Option.toList_none, List.flatMap_append, List.flatMap_cons,
    List.flatMap_nil, List.append_nil, List.append_assoc, accountConnection, twoPieces,
    List.flatten_cons, List.flatten_nil]
  rfl

theorem authdaemondo_account : authdaemondo (accountConnection (bytes "/home/joe")) =
      .info (account (bytes "/home/joe")) :=
  (authdaemondo_printauth_iff (by decide)
    (accountConnection_coming (bytes "/home/joe") ▸ by decide)
    (accountConnection_coming _)).mpr (by decide)

/- A home directory of two lines gives another user id. -/
theorem authdaemondo_twoLineHome : (accountConnection (bytes "/home/joe\nUID=0")).coming.flatten =
        (printauth (account (bytes "/home/joe\nUID=0"))).flatten ∧
      authdaemondo (accountConnection (bytes "/home/joe\nUID=0")) =
        .info { account (bytes "/home/joe") with
          sysuserid := some 0 } := by
  refine ⟨accountConnection_coming _, ?_⟩
  decide

end Wmail.Authlib
