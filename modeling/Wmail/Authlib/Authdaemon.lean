import Wmail.Authlib.CramLogin
import Wmail.Core.Stream
import Wmail.Maildir.QuotaLedger
import Wmail.Maildir.Maildirfilter

/-
  Requests to the authentication daemon (authdaemon.c,
  authdaemond.c).

  The client writes a command line and the text of the
  request behind it.  The daemon reads the line, and then as
  many bytes as the line says.

  Key theorems include:
    * `doauth_authDaemon`
    * `doauth_ne_authDaemon`
-/

namespace Wmail.Authlib

open Maildir

/- The request that `auth_daemon` builds. -/
def authDaemon (service authtype authdata : List Byte) : List Byte :=
  let l := service.length + authtype.length + authdata.length + 1
  bytes "AUTH " ++ strSizeT l ++ bytes "\n" ++
    (service ++ bytes "\n") ++ (authtype ++ bytes "\n") ++
    authdata

/- The arguments that the authentication modules are given. -/
structure AuthRequest where
  service : List Byte
  authtype : List Byte
  authdata : List Byte
deriving DecidableEq

/- What a connection asks for. -/
inductive Command where
  | pre (prebuf : List Byte)
  | passwd (prebuf : List Byte)
  | auth (request : AuthRequest)
deriving DecidableEq

/-
  The first loop of `doauth`: a line, for which there is room
  for so many bytes.
-/
def readLine (room : Nat) (fd : Stream Byte) : Option (List Byte × Stream Byte) :=
  match fd.getc with
  | none => none
  | some (ch, fd) =>
    if ch = nl then
      some ([], fd)
    else
      match room with
      | 0 => none
      | room + 1 =>
        (readLine room fd).map fun (line, fd) => (ch :: line, fd)

/- `auth`, up to the calls of the modules. -/
def auth (p : List Byte) : Option AuthRequest :=
  match cutAt nl p with
  | none => none
  | some (service, p) =>
    match cutAt nl p with
    | none => none
    | some (authtype, p) => some ⟨service, authtype, p⟩

/- `doauth`; what an earlier connection left is dropped. -/
def doauth (fd : Stream Byte) : Option Command :=
  match readLine (bufsiz - 2) { fd with held := [] } with
  | none => none
  | some (line, fd) =>
    let buf := cString line
    let command := buf.takeWhile (· ≠ chr ' ')
    let p := (buf.dropWhile (· ≠ chr ' ')).dropWhile (· = chr ' ')
    if command = bytes "PRE" then
      some (.pre p)
    else if command = bytes "PASSWD" then
      some (.passwd p)
    else if command = bytes "AUTH" then
      let i := (atoi p).toInt
      if i < 0 ∨ (bufsiz : Int) ≤ i then
        none
      else
        match fd.take i.toNat with
        | none => none
        | some (text, _) => (auth (cString text)).map Command.auth
    else
      none

/- A line that fits is read up to its newline. -/
theorem readLine_contents {room : Nat} {fd : Stream Byte} {line rest : List Byte}
    (hLine : nl ∉ line) (hRoom : line.length ≤ room)
    (hContents : fd.contents = line ++ nl :: rest) :
    ∃ next : Stream Byte, readLine room fd = some (line, next) ∧ next.contents = rest := by
  induction line generalizing room fd with
  | nil =>
    rcases Stream.getc_contents hContents with ⟨next, hGet, hNext⟩
    refine ⟨next, ?_, hNext⟩
    rw [readLine.eq_def, hGet]
    simp only [if_true]
  | cons ch line ih =>
    rw [List.mem_cons, not_or] at hLine
    rcases Stream.getc_contents hContents with ⟨next, hGet, hNext⟩
    cases room with
    | zero => cases hRoom
    | succ room =>
      rcases ih hLine.2 (Nat.le_of_succ_le_succ hRoom) hNext with ⟨last, hRead, hLast⟩
      refine ⟨last, ?_, hLast⟩
      rw [readLine.eq_def, hGet]
      simp only [if_neg (Ne.symm hLine.1), hRead, Option.map_some]

/- The fields that two newlines end. -/
theorem auth_fields {service authtype : List Byte} (hService : nl ∉ service)
    (hAuthtype : nl ∉ authtype) (authdata : List Byte) :
    auth (service ++ nl :: (authtype ++ nl :: authdata)) = some ⟨service, authtype, authdata⟩ := by
  unfold auth
  rw [cutAt_quoted hService]
  simp only [cutAt_quoted hAuthtype]

/- One newline is too few. -/
theorem auth_unclosed {service authtype : List Byte} (hService : nl ∉ service)
    (hAuthtype : nl ∉ authtype) : auth (service ++ nl :: authtype) = none := by
  unfold auth
  rw [cutAt_quoted hService]
  simp only [cutAt_unclosed hAuthtype]

/- A numeral is read, as far as `long` goes. -/
theorem scanInt_decimalDigits {room count : Nat} (hRoom : count < 10 ^ (room + 1)) :
    scanInt (decimalDigits (room + 1) count) = some ((count : Int), []) := by
  have hNone : ∀ b, ([] : List Byte).head? = some b → isdigit b = false := by
    intro b hHead
    cases hHead
  have hScan := @scanInt_numeral [] (decimalDigits (room + 1) count)
    [] false nofun (fun b hMem => isdigit_decimalDigits hMem)
    (decimalDigits_ne_nil room count) hNone
  rw [decimalValue_decimalDigits hRoom] at hScan
  simpa using hScan

/- A number below the buffer's size is read back. -/
theorem atoi_strSizeT {count : Nat} (hCount : count < bufsiz) :
    (atoi (strSizeT count)).toInt = count := by
  have hBound : count < 8192 := hCount
  have hText : strSizeT count = decimalDigits 59 count := offTDigits_natCast 59 count
  have hScan : scanInt (strSizeT count) = some ((count : Int), []) := by
    rw [hText]
    exact scanInt_decimalDigits (hBound.trans (by decide))
  exact atoi_of_scanInt hScan (by omega) (by omega)

section Requests

variable {service authtype authdata : List Byte}

/- The text behind the line, with both newlines. -/
def requestText (service authtype authdata : List Byte) : List Byte :=
  service ++ nl :: (authtype ++ nl :: authdata)

theorem authDaemon_eq (service authtype authdata : List Byte) :
    authDaemon service authtype authdata = bytes "AUTH " ++ strSizeT (service.length +
          authtype.length + authdata.length + 1) ++
        nl :: requestText service authtype authdata := by
  have hNl : bytes "\n" = [nl] := rfl
  unfold authDaemon requestText
  rw [hNl]
  simp only [List.append_assoc, List.cons_append, List.nil_append]

/- The line says one byte less than there is. -/
theorem length_requestText (service authtype authdata : List Byte) :
    (requestText service authtype authdata).length =
      service.length + authtype.length + authdata.length + 1 + 1 := by
  unfold requestText
  simp only [List.length_append, List.length_cons]
  omega

/- The daemon therefore reads all but the last byte. -/
theorem dropLast_requestText (service authtype authdata : List Byte) :
    (requestText service authtype authdata).dropLast =
      if authdata = [] then
        service ++ nl :: authtype
      else
        requestText service authtype authdata.dropLast := by
  unfold requestText
  rw [List.dropLast_append_of_ne_nil (List.cons_ne_nil _ _), List.dropLast_cons_of_ne_nil (by simp),
    List.dropLast_append_of_ne_nil (List.cons_ne_nil _ _)]
  split
  · rename_i hNone
    rw [hNone, List.dropLast_singleton, List.append_nil]
  · rename_i hSome
    rw [List.dropLast_cons_of_ne_nil hSome]

/- The command line and its parts. -/
theorem commandLine_parts (count : Nat) : let line := bytes "AUTH " ++ strSizeT count
    nl ∉ line ∧ cString line = line ∧ line.takeWhile (· ≠ chr ' ') = bytes "AUTH" ∧
          (line.dropWhile (· ≠ chr ' ')).dropWhile (· = chr ' ') =
            strSizeT count := by
  have hText : strSizeT count = decimalDigits 59 count := offTDigits_natCast 59 count
  have hDigit : ∀ b, b ∈ strSizeT count → isdigit b = true := by
    rw [hText]
    intro b hMem
    exact isdigit_decimalDigits hMem
  have hWord : bytes "AUTH " = bytes "AUTH" ++ [chr ' '] := rfl
  have hBlank : chr ' ' ∉ bytes "AUTH" := by decide
  intro line
  have hLine : line = bytes "AUTH" ++ chr ' ' :: strSizeT count := by
    show bytes "AUTH " ++ strSizeT count = _
    rw [hWord, List.append_assoc, List.singleton_append]
  have hNot : ∀ b, isdigit b = false → b ∉ bytes "AUTH " → b ∉ line := by
    intro b hOther hFront hMem
    rcases List.mem_append.mp hMem with hIn | hIn
    · exact hFront hIn
    · rw [hDigit b hIn] at hOther
      cases hOther
  refine ⟨hNot nl rfl (by decide), cString_eq_self (hNot 0 rfl (by decide)), ?_, ?_⟩
  · rw [hLine]
    exact takeWhile_quoted hBlank _
  · rw [hLine, dropWhile_quoted hBlank, List.dropWhile_cons_of_pos (by simp)]
    have hHead : ∀ b, (strSizeT count).head? = some b → decide (b = chr ' ') = false := by
      intro b hFirst
      have hIn := hDigit b (List.mem_of_mem_head? hFirst)
      apply decide_eq_false
      intro hSame
      rw [hSame] at hIn
      cases hIn
    exact dropWhile_run (List.forall_mem_nil _) hHead

variable (hService : nl ∉ service ∧ 0 ∉ service) (hAuthtype : nl ∉ authtype ∧ 0 ∉ authtype)
variable (hAuthdata : 0 ∉ authdata)

include hService hAuthtype hAuthdata

/- Without its last byte, the text gives other fields. -/
theorem auth_dropLast_requestText : auth (cString
        (requestText service authtype authdata).dropLast) =
      if authdata = [] then none else some ⟨service, authtype, authdata.dropLast⟩ := by
  have hNewline : (0 : Byte) ≠ nl := by decide
  rw [dropLast_requestText]
  split
  · rw [cString_eq_self]
    · exact auth_unclosed hService.1 hAuthtype.1
    · simp [hService.2, hAuthtype.2, hNewline]
  · rw [cString_eq_self]
    · exact auth_fields hService.1 hAuthtype.1 _
    · have hFront : (0 : Byte) ∉ authdata.dropLast :=
        fun hMem => hAuthdata (List.mem_of_mem_dropLast hMem)
      unfold requestText
      simp [hService.2, hAuthtype.2, hNewline, hFront]

/- What the daemon reads, however the request arrives. -/
theorem doauth_authDaemon (hTotal : (authDaemon service authtype authdata).length < bufsiz)
    {fd : Stream Byte}
    (hArrives : fd.coming.flatten = authDaemon service authtype authdata) :
    doauth fd =
      if authdata = [] then none else some (.auth ⟨service, authtype, authdata.dropLast⟩) := by
  obtain ⟨count, hSum⟩ : ∃ count, service.length + authtype.length + authdata.length + 1 = count :=
    ⟨_, rfl⟩
  have hText := length_requestText service authtype authdata
  have hWhole := authDaemon_eq service authtype authdata
  rw [hSum] at hText hWhole
  rcases commandLine_parts count with ⟨hLine, hString, hCommand, hCount⟩
  have hContents : ({ fd with held := [] } : Stream Byte).contents =
      (bytes "AUTH " ++ strSizeT count) ++ nl :: requestText service authtype authdata := by
    rw [← hWhole]
    exact hArrives
  have hShort : (bytes "AUTH " ++ strSizeT count).length + 1 + (count + 1) < bufsiz := by
    rw [hWhole, List.length_append, List.length_cons, hText] at hTotal
    omega
  have hBack : (atoi (strSizeT count)).toInt = count := atoi_strSizeT (by omega)
  have hRoom : (bytes "AUTH " ++ strSizeT count).length ≤ bufsiz - 2 := by omega
  rcases readLine_contents hLine hRoom hContents with ⟨next, hRead, hNext⟩
  have hSome : requestText service authtype authdata ≠ [] := by
    intro hNil
    rw [hNil] at hText
    cases hText
  rw [← List.dropLast_concat_getLast hSome] at hNext
  rcases Stream.take_contents hNext with ⟨last, hTake, hLast⟩
  rw [List.length_dropLast, hText, Nat.add_sub_cancel] at hTake
  have hFits : ¬ ((count : Int) < 0 ∨ (bufsiz : Int) ≤ count) := by omega
  have hPre : bytes "AUTH" ≠ bytes "PRE" := by decide
  have hPasswd : bytes "AUTH" ≠ bytes "PASSWD" := by decide
  unfold doauth
  rw [hRead]
  simp only [hString, hCommand, hCount, hBack, if_neg hPre, if_neg hPasswd, if_true, if_neg hFits,
    Int.toNat_natCast, hTake]
  rw [auth_dropLast_requestText hService hAuthtype hAuthdata]
  split
  · rfl
  · rfl

/- It is never what the client asked for. -/
theorem doauth_ne_authDaemon (hTotal : (authDaemon service authtype authdata).length < bufsiz)
    {fd : Stream Byte}
    (hArrives : fd.coming.flatten = authDaemon service authtype authdata) :
    doauth fd ≠ some (.auth ⟨service, authtype, authdata⟩) := by
  rw [doauth_authDaemon hService hAuthtype hAuthdata hTotal hArrives]
  split
  · exact nofun
  · rename_i hSome
    intro hSame
    simp only [Option.some.injEq, Command.auth.injEq, AuthRequest.mk.injEq, true_and] at hSame
    have hLength := congrArg List.length hSame
    have hPos := List.length_pos_of_ne_nil hSome
    rw [List.length_dropLast] at hLength
    omega

end Requests

/- A connection on which a request comes in two pieces. -/
def twoPieces (first second : List Byte) (hFirst : first ≠ []) (hSecond : second ≠ []) :
    Stream Byte where
  held := []
  coming := [first, second]
  ready := by
    intro piece hMem
    rcases List.mem_cons.mp hMem with hHere | hMore
    · rwa [hHere]
    · rwa [List.mem_singleton.mp hMore]

/- A login, of which the last letter is not read. -/
def loginConnection : Stream Byte :=
  twoPieces (bytes "AUTH 20\nimap\nlog") (bytes "in\njoe\nsecret") (by decide) (by decide)

theorem loginConnection_coming : loginConnection.coming.flatten =
      authDaemon (bytes "imap") (bytes "login") (bytes "joe\nsecret") := by
  decide

theorem doauth_ne_authDaemon_login : doauth loginConnection ≠
      some (.auth ⟨bytes "imap", bytes "login", bytes "joe\nsecret"⟩) :=
  doauth_ne_authDaemon (by decide) (by decide) (by decide) (by decide) loginConnection_coming

theorem doauth_login_cut : loginConnection.coming.flatten =
        authDaemon (bytes "imap") (bytes "login") (bytes "joe\nsecret") ∧
      doauth loginConnection = some (.auth ⟨bytes "imap", bytes "login", bytes "joe\nsecre"⟩) ∧
        bytes "joe\nsecre" ≠ bytes "joe\nsecret" := by
  refine ⟨loginConnection_coming, ?_, by decide⟩
  exact doauth_authDaemon (by decide) (by decide) (by decide) (by decide) loginConnection_coming

end Wmail.Authlib
