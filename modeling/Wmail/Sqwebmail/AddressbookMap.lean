import Wmail.Sqwebmail.AddressbookLines
import Mathlib.Data.List.Induction
import Mathlib.Data.List.InsertIdx

/-
  The address book as a map from nicknames to entries.

  Key theorems include:
    * `Stores.apply`
    * `addressbook_map`
-/

namespace Wmail.Sqwebmail

open Rfc822

/- The entries of every nickname, in order. -/
abbrev AbMap :=
  List Byte → List AbEntry

/- An empty address book. -/
def emptyMap : AbMap :=
  fun _ => []

/- A change of the entries of one nickname. -/
def AbMap.change (m : AbMap) (nick : List Byte) (f : List AbEntry → List AbEntry) : AbMap :=
  fun other => if other = nick then f (m nick) else m other

/- The nickname that a request is about. -/
def AbRequest.nickname : AbRequest → List Byte
  | .add _ _ nick => fixNick nick
  | .del nick _ => nick.takeWhile (· ≠ 0)
  | .replace nick _ _ _ => nick.takeWhile (· ≠ 0)
  | .delall nick => nick.takeWhile (· ≠ 0)

/- An entry that is added: an empty name is left out. -/
def addedEntry (names addresss : List Byte) : AbEntry where
  name := if names = [] then none else some names
  address := addresss

/- What a request is for. -/
def AbRequest.onMap (m : AbMap) : AbRequest → AbMap
  | .add name address nick =>
    let (names, addresss) := fixNameaddr name address
    if fixNick nick = [] ∨ addresss = [] then
      m
    else
      m.change (fixNick nick) (· ++ [addedEntry names addresss])
  | .del nick n => m.change (nick.takeWhile (· ≠ 0)) (·.eraseIdx n)
  | .replace nick n name address =>
    let (names, addresss) := fixNameaddr name address
    m.change (nick.takeWhile (· ≠ 0)) (·.set n ⟨some names, addresss⟩)
  | .delall nick => m.change (nick.takeWhile (· ≠ 0)) (fun _ => [])

/- Entries that stay what they are without brackets. -/
def ReprintsFit (es : List AbEntry) : Prop :=
  ∀ e, e ∈ es → e.name = none → standsBare e.address = true

/-
  A request that the address book can do: quoted strings in a
  new address stand apart, an entry without a name that is
  written again stands bare, and what is replaced is there.
-/
def AbRequest.Fits (m : AbMap) : AbRequest → Prop
  | .add name address nick =>
    fixNick nick ≠ [] → wordsStandApart (fixNameaddr name address).2 = true
  | .del nick n =>
    n < (m (nick.takeWhile (· ≠ 0))).length → ReprintsFit ((m (nick.takeWhile (· ≠ 0))).eraseIdx n)
  | .replace nick n name address =>
    m (nick.takeWhile (· ≠ 0)) ≠ [] → n < (m (nick.takeWhile (· ≠ 0))).length ∧
        wordsStandApart (fixNameaddr name address).2 = true ∧
        ReprintsFit ((m (nick.takeWhile (· ≠ 0))).eraseIdx n)
  | .delall _ => True

/- The address book after some requests. -/
def bookAfter (requests : List AbRequest) : List Byte :=
  requests.foldl AbRequest.apply []

/- The map after some requests. -/
def mapAfter (requests : List AbRequest) : AbMap :=
  requests.foldl AbRequest.onMap emptyMap

/- Every request of a run can be done. -/
def RequestsFit (requests : List AbRequest) : Prop :=
  ∀ front request back, requests = front ++ request :: back → request.Fits (mapAfter front)

theorem RequestsFit.nil : RequestsFit [] := by
  intro front request back hSplit
  cases front <;> cases hSplit

/- One more request that can be done. -/
theorem RequestsFit.append {requests : List AbRequest} (hFits : RequestsFit requests)
    {request : AbRequest} (hLast : request.Fits (mapAfter requests)) :
    RequestsFit (requests ++ [request]) := by
  intro front other back hSplit
  rcases List.eq_nil_or_concat back with rfl | ⟨more, last, rfl⟩
  · have hEnd := List.append_inj' hSplit rfl
    cases hEnd.2
    rw [← hEnd.1]
    exact hLast
  · rw [List.concat_eq_append, ← List.cons_append, ← List.append_assoc] at hSplit
    exact hFits front other more (List.append_inj' hSplit rfl).1

/- The requests before the last one. -/
theorem RequestsFit.front {front back : List AbRequest}
    (hFits : RequestsFit (front ++ back)) : RequestsFit front := by
  intro before other more hMore
  apply hFits before other (more ++ back)
  rw [hMore, List.append_assoc]
  rfl

/- An entry of the map, as it is written. -/
def listed (e : ListEntry) : AbEntry where
  name := e.name?
  address := piecesText e.pieces

/- An entry that the book can hold. -/
structure Held (e : ListEntry) : Prop extends EntryOk e where
  nameless : e.name? = none → e.pieces ≠ []

theorem listed_reprinted (e : ListEntry) : listed e.reprinted = listed e := by
  cases e with
  | named name ps => rfl
  | bracket ps => rfl
  | bare ps => rfl

variable {e : ListEntry}

/- The address is part of the text of an entry. -/
theorem mem_text_of_pieces {c : Byte} (hMem : c ∈ piecesText e.pieces) : c ∈ e.text := by
  cases e <;>
    simp [ListEntry.text, ListEntry.textThen, ListEntry.routeText, ListEntry.pieces] at hMem ⊢ <;>
    simp [hMem]

/- The entry that is read is the entry that was written. -/
theorem abEntry_of_readAs {a : Addr} (hOk : EntryOk e) (hRead : ReadAs e a) :
    abEntry a = listed e := by
  rcases hRead with ⟨rest, rfl⟩
  have hLine : nl ∉ piecesText e.pieces := by
    intro hMem
    exact (hOk.line nl (mem_text_of_pieces hMem)).1 rfl
  have hAddress := rfc822Getaddr_entry hOk.ok hLine rest
  unfold abEntry listed
  rw [hAddress]
  cases e with
  | named name ps =>
    have hName : nl ∉ name := by
      intro hMem
      apply (hOk.line nl _).1 rfl
      simp [ListEntry.text, ListEntry.textThen, hMem]
    have hSome : ((ListEntry.named name ps).addr rest).name ≠ [] := List.cons_ne_nil _ _
    rw [if_neg hSome, rfc822Getname_entry hOk.ok hName]
    rfl
  | bracket ps => rfl
  | bare ps => rfl

theorem map_abEntry {es : List ListEntry} {addrs : List Addr}
    (hOk : ∀ e, e ∈ es → EntryOk e) (hRead : List.Forall₂ ReadAs es addrs) :
    addrs.map abEntry = es.map listed := by
  induction hRead with
  | nil => rfl
  | @cons e a es addrs hHere hThere ih =>
    rw [List.map_cons, List.map_cons, abEntry_of_readAs (hOk e List.mem_cons_self) hHere,
      ih (fun f hMem => hOk f (List.mem_cons_of_mem e hMem))]

/- An address that is printed as an entry. -/
structure PrintsAs (e : ListEntry) (a : Addr) : Prop where
  tokens : a.tokens ≠ []
  text : printAddr a = e.text
  held : Held e

/- An entry that is printed again. -/
theorem printsAs_reprinted {a : Addr} (hHeld : Held e)
    (hFits : (listed e).name = none →
      standsBare (listed e).address = true) (hRead : ReadAs e a) : PrintsAs e.reprinted a := by
  rcases hRead with ⟨rest, rfl⟩
  have hTokens := addr_tokens_ne_nil hHeld.ok rest
  have hAgain : Held e.reprinted := by
    cases e with
    | named name ps => exact hHeld
    | bracket ps =>
      have hSome := hHeld.nameless rfl
      have hBare := bare_of_standsBare hHeld.ok.pieces_ok (hFits rfl)
      refine ⟨⟨⟨hHeld.ok.pieces_ok, hHeld.ok.apart, nofun, ?_⟩, ?_⟩, fun _ => hSome⟩
      · intro qs hEq
        cases hEq
        exact ⟨hSome, hBare.1, hBare.2⟩
      · intro c hMem
        apply hHeld.line c
        simp [ListEntry.text, ListEntry.textThen, ListEntry.reprinted, ListEntry.routeText]
          at hMem ⊢
        simp [hMem]
    | bare ps => exact hHeld
  exact ⟨hTokens, printAddr_entry hHeld.ok hAgain.ok rest, hAgain⟩

------------
-- Cleaned Texts
------------

theorem inAbName_classes : ∀ c : Byte, inAbName c = true →
      c ≠ nl ∧ c ≠ 0 ∧ c ≠ chr '"' ∧ c ≠ chr '\\' := by
  apply byte_forall
  decide +kernel

theorem inAbAddress_classes : ∀ c : Byte, inAbAddress c = true →
      inAddress c = true ∧ c ≠ chr '\\' ∧ c ≠ nl ∧ c ≠ 0 := by
  apply byte_forall
  decide +kernel

theorem fixNameaddr_name (name addr : List Byte) :
    ∀ c, c ∈ (fixNameaddr name addr).1 → inAbName c = true := by
  intro c hMem
  exact (List.mem_filter.mp hMem).2

theorem fixNameaddr_address (name addr : List Byte) :
    ∀ c, c ∈ (fixNameaddr name addr).2 → inAbAddress c = true := by
  intro c hMem
  exact (List.mem_filter.mp hMem).2

variable {name addr : List Byte}

/- A cleaned address whose words stand apart. -/
theorem exists_cleaned_pieces (hApart : wordsStandApart (fixNameaddr name addr).2 = true) :
    ∃ ps, (∀ p, p ∈ ps → AddrPiece.Ok p) ∧ WordsApart false ps ∧
        (fixNameaddr name addr).2 = piecesText ps := by
  apply exists_pieces _ hApart
  intro c hMem
  have hC := inAbAddress_classes c (fixNameaddr_address name addr c hMem)
  exact ⟨hC.1, hC.2.1⟩

/- A cleaned name and address are an entry. -/
theorem held_named {ps : List AddrPiece} (hOk : ∀ p, p ∈ ps → AddrPiece.Ok p)
    (hApart : WordsApart false ps) (hText : (fixNameaddr name addr).2 = piecesText ps) :
    Held (.named (fixNameaddr name addr).1 ps) := by
  have hName := fixNameaddr_name name addr
  have hAddress := fixNameaddr_address name addr
  refine ⟨⟨⟨hOk, hApart, ?_, nofun⟩, ?_⟩, nofun⟩
  · intro names qs hEq
    cases hEq
    constructor
    · intro hMem
      exact (inAbName_classes _ (hName _ hMem)).2.2.1 rfl
    · intro hMem
      exact (inAbName_classes _ (hName _ hMem)).2.2.2 rfl
  · intro c hMem
    simp only [ListEntry.text, ListEntry.textThen, ListEntry.routeText, List.mem_cons,
      List.mem_append, List.not_mem_nil, or_false] at hMem
    rcases hMem with rfl | hIn | rfl | rfl | rfl | hIn | rfl
    · decide
    · have hC := inAbName_classes c (hName c hIn)
      exact ⟨hC.1, hC.2.1⟩
    · decide
    · decide
    · decide
    · rw [← hText] at hIn
      have hC := inAbAddress_classes c (hAddress c hIn)
      exact ⟨hC.2.2.1, hC.2.2.2⟩
    · decide

theorem held_bracket {ps : List AddrPiece} (hOk : ∀ p, p ∈ ps → AddrPiece.Ok p)
    (hApart : WordsApart false ps) (hText : (fixNameaddr name addr).2 = piecesText ps)
    (hSome : (fixNameaddr name addr).2 ≠ []) : Held (.bracket ps) := by
  have hAddress := fixNameaddr_address name addr
  refine ⟨⟨⟨hOk, hApart, nofun, nofun⟩, ?_⟩, ?_⟩
  · intro c hMem
    simp only [ListEntry.text, ListEntry.textThen, ListEntry.routeText, List.mem_cons,
      List.mem_append, List.not_mem_nil, or_false] at hMem
    rcases hMem with rfl | hIn | rfl
    · decide
    · rw [← hText] at hIn
      have hC := inAbAddress_classes c (hAddress c hIn)
      exact ⟨hC.2.2.1, hC.2.2.2⟩
    · decide
  · intro _ hNil
    have hNone : ps = [] := hNil
    rw [hNone] at hText
    exact hSome hText

/- What `ab_add` writes is an entry in a line of its own. -/
theorem exists_added (hApart : wordsStandApart (fixNameaddr name addr).2 = true)
    (hSome : (fixNameaddr name addr).2 ≠ []) :
    ∃ e, Held e ∧ printNameaddr (fixNameaddr name addr).1
        (fixNameaddr name addr).2 = e.text ++ [nl] ∧
      listed e = addedEntry (fixNameaddr name addr).1 (fixNameaddr name addr).2 := by
  rcases exists_cleaned_pieces hApart with ⟨ps, hOk, hWords, hText⟩
  unfold printNameaddr addedEntry listed
  by_cases hName : (fixNameaddr name addr).1 = []
  · refine ⟨.bracket ps, held_bracket hOk hWords hText hSome, ?_, ?_⟩
    · rw [if_neg (fun hNe => hNe hName), hText]
      simp [ListEntry.text, ListEntry.textThen, ListEntry.routeText, bytes]
    · rw [if_pos hName, hText]
      rfl
  · refine ⟨.named (fixNameaddr name addr).1 ps, held_named hOk hWords hText, ?_, ?_⟩
    · rw [if_pos hName, hText]
      simp [ListEntry.text, ListEntry.textThen, ListEntry.routeText, bytes]
    · rw [if_neg hName, hText]
      rfl

/- What `dodel` puts in the place of an entry. -/
def replacement (names addresss : List Byte) : Addr where
  tokens := [⟨0, addresss, addresss.length⟩]
  name := [⟨chr '"', names, names.length⟩]

theorem exists_replaced
    (hApart : wordsStandApart (fixNameaddr name addr).2 = true) :
    ∃ e, PrintsAs e (replacement (fixNameaddr name addr).1 (fixNameaddr name addr).2) ∧
      listed e = ⟨some (fixNameaddr name addr).1, (fixNameaddr name addr).2⟩ := by
  rcases exists_cleaned_pieces hApart with ⟨ps, hOk, hWords, hText⟩
  have hHeld := held_named hOk hWords hText
  have hName := hHeld.ok.name_ok _ _ rfl
  refine ⟨.named (fixNameaddr name addr).1 ps, ⟨?_, ?_, hHeld⟩, ?_⟩
  · exact List.cons_ne_nil _ _
  · have hNameText : (Token.mk (chr '"') (fixNameaddr name addr).1
        (fixNameaddr name addr).1.length).text = (fixNameaddr name addr).1 :=
      List.take_length
    have hQuoted := printToken_quoted rfl (hNameText.symm ▸ hName.1) (hNameText.symm ▸ hName.2)
    have hAddress : rfc822tokPrint
        [⟨0, (fixNameaddr name addr).2, (fixNameaddr name addr).2.length⟩] = piecesText ps := by
      simp [rfc822tokPrint, tokPrint, printToken, Token.text, hText]
    rw [replacement, printAddr_named (List.cons_ne_nil _ _) rfl rfl, hAddress, hQuoted, hNameText]
    simp [ListEntry.text, ListEntry.textThen, ListEntry.routeText, bytes]
  · unfold listed
    rw [hText]
    rfl

/- The headers of the book hold the entries of the map. -/
structure Stores (lines : List (List Byte × List Byte)) (m : AbMap) : Prop where
  nick : ∀ header, header ∈ lines → ∀ c, c ∈ header.1 → inNick c = true
  nodup : (lines.map Prod.fst).Nodup
  value : ∀ header, header ∈ lines →
    ∃ es, Listing es header.2 ∧ (∀ e, e ∈ es → Held e) ∧ m header.1 = es.map listed
  absent : ∀ nick, nick ∉ lines.map Prod.fst → m nick = []

variable {lines : List (List Byte × List Byte)} {m : AbMap}

theorem Stores.headerOk (hStores : Stores lines m) :
    ∀ header, header ∈ lines → HeaderOk header := by
  intro header hMem
  rcases hStores.value header hMem with ⟨es, hListing, hHeld, _⟩
  have hOk : ∀ e, e ∈ es → EntryOk e := by
    intro e hE
    exact (hHeld e hE).toEntryOk
  exact ⟨hStores.nick header hMem, hListing.foldable hOk, hListing.beginsLine hOk⟩

/- What is found under a nickname. -/
theorem Stores.abFind (hStores : Stores lines m) (nick : List Byte) :
    abFind nick (lines.flatMap printHeader) = (lines.find? (·.1 = nick.takeWhile (· ≠ 0))).map
        (·.2) := by
  unfold Sqwebmail.abFind
  rw [readHeaders_lines hStores.headerOk]

/- A value that is found holds the entries of the map. -/
theorem Stores.found (hStores : Stores lines m) {nick value : List Byte}
    (hFind : Sqwebmail.abFind nick (lines.flatMap printHeader) = some value) :
    ∃ es, Listing es value ∧ (∀ e, e ∈ es → Held e) ∧ m (nick.takeWhile (· ≠ 0)) = es.map listed ∧
      List.Forall₂ ReadAs es (parseaddr (tokenize value)) ∧
      (nick.takeWhile (· ≠ 0), value) ∈ lines := by
  rw [hStores.abFind, Option.map_eq_some_iff] at hFind
  rcases hFind with ⟨header, hFound, rfl⟩
  have hMem := List.mem_of_find?_eq_some hFound
  have hNick : header.1 = nick.takeWhile (· ≠ 0) := by simpa using List.find?_some hFound
  rcases hStores.value header hMem with ⟨es, hListing, hHeld, hMap⟩
  have hOk : ∀ e, e ∈ es → EntryOk e := by
    intro e hE
    exact (hHeld e hE).toEntryOk
  rw [tokenize_eq (hListing.foldable hOk).not_mem_zero]
  rw [hNick] at hMap
  refine ⟨es, hListing, hHeld, hMap, parse_listing hListing hOk, ?_⟩
  rw [← hNick]
  exact hMem

variable {nick : List Byte}

/- Nothing is found under a nickname without entries. -/
theorem Stores.not_found (hStores : Stores lines m)
    (hFind : Sqwebmail.abFind nick
      (lines.flatMap printHeader) = none) : nick.takeWhile (· ≠ 0) ∉ lines.map Prod.fst := by
  rw [hStores.abFind, Option.map_eq_none_iff, List.find?_eq_none] at hFind
  intro hMem
  rcases List.mem_map.mp hMem with ⟨header, hIn, hNick⟩
  exact hFind header hIn (decide_eq_true hNick)

/- The entries that are read back are those of the map. -/
theorem Stores.entriesUnder (hStores : Stores lines m) (nick : List Byte) :
    entriesUnder (lines.flatMap printHeader) nick = m (nick.takeWhile (· ≠ 0)) := by
  unfold Sqwebmail.entriesUnder
  cases hFind : Sqwebmail.abFind nick (lines.flatMap printHeader) with
  | none => exact (hStores.absent _ (hStores.not_found hFind)).symm
  | some value =>
    rcases hStores.found hFind with ⟨es, _, hHeld, hMap, hRead, _⟩
    rw [hMap]
    exact map_abEntry (fun e hE => (hHeld e hE).toEntryOk) hRead

/- A new value for a nickname, or none. -/
def changeLines (nick : List Byte) (value : Option (List Byte))
    (lines : List (List Byte × List Byte)) : List (List Byte × List Byte) :=
  lines.flatMap fun header =>
    if header.1 = nick then value.toList.map (fun v => (nick, v)) else [header]

theorem mem_changeLines {value : Option (List Byte)} {header : List Byte × List Byte} :
    header ∈ changeLines nick value lines ↔ (header ∈ lines ∧ header.1 ≠ nick) ∨
        (nick ∈ lines.map Prod.fst ∧ ∃ v, value = some v ∧ header = (nick, v)) := by
  unfold changeLines
  rw [List.mem_flatMap]
  constructor
  · intro hMem
    rcases hMem with ⟨old, hOld, hIn⟩
    by_cases hNick : old.1 = nick
    · rw [if_pos hNick] at hIn
      rcases List.mem_map.mp hIn with ⟨v, hV, hEq⟩
      refine Or.inr ⟨List.mem_map.mpr ⟨old, hOld, hNick⟩, v, ?_, hEq.symm⟩
      exact Option.mem_toList.mp hV
    · rw [if_neg hNick, List.mem_singleton] at hIn
      exact Or.inl ⟨hIn ▸ hOld, hIn ▸ hNick⟩
  · intro hEither
    rcases hEither with ⟨hIn, hNick⟩ | ⟨hKey, v, rfl, rfl⟩
    · refine ⟨header, hIn, ?_⟩
      rw [if_neg hNick]
      exact List.mem_singleton_self header
    · rcases List.mem_map.mp hKey with ⟨old, hOld, hNick⟩
      refine ⟨old, hOld, ?_⟩
      rw [if_pos hNick]
      exact List.mem_singleton_self _

theorem changeLines_keys (nick : List Byte) (value : Option (List Byte))
    (lines : List (List Byte × List Byte)) :
    ((changeLines nick value lines).map Prod.fst).Sublist (lines.map Prod.fst) := by
  induction lines with
  | nil => exact List.Sublist.refl []
  | cons header lines ih =>
    unfold changeLines at ih ⊢
    rw [List.flatMap_cons, List.map_append, List.map_cons]
    by_cases hNick : header.1 = nick
    · rw [if_pos hNick]
      cases value with
      | none => exact List.Sublist.cons _ ih
      | some v =>
        rw [hNick]
        exact List.Sublist.cons_cons nick ih
    · rw [if_neg hNick]
      exact List.Sublist.cons_cons header.1 ih

variable {f : List AbEntry → List AbEntry}

/- The value of one nickname is changed, and no other. -/
theorem Stores.change (hStores : Stores lines m) (hKey : nick ∈ lines.map Prod.fst)
    (value : Option (List Byte)) (es : List ListEntry) (hHeld : ∀ e, e ∈ es → Held e)
    (hSome : ∀ v, value = some v → Listing es v) (hNone : value = none → es = [])
    (hMap : f (m nick) = es.map listed) :
    Stores (changeLines nick value lines) (m.change nick f) := by
  rcases List.mem_map.mp hKey with ⟨old, hOld, hNick⟩
  constructor
  · intro header hMem c hC
    rcases mem_changeLines.mp hMem with ⟨hIn, _⟩ | ⟨_, v, _, rfl⟩
    · exact hStores.nick header hIn c hC
    · rw [← hNick] at hC
      exact hStores.nick old hOld c hC
  · exact hStores.nodup.sublist (changeLines_keys nick value lines)
  · intro header hMem
    rcases mem_changeLines.mp hMem with ⟨hIn, hOther⟩ | ⟨_, v, hValue, rfl⟩
    · unfold AbMap.change
      rw [if_neg hOther]
      exact hStores.value header hIn
    · refine ⟨es, hSome v hValue, hHeld, ?_⟩
      unfold AbMap.change
      rw [if_pos rfl, hMap]
  · intro other hAbsent
    unfold AbMap.change
    by_cases hSame : other = nick
    · rw [if_pos hSame, hMap]
      cases value with
      | none =>
        rw [hNone rfl]
        rfl
      | some v =>
        apply absurd _ hAbsent
        rw [hSame]
        exact List.mem_map.mpr ⟨(nick, v), mem_changeLines.mpr (Or.inr ⟨hKey, v, rfl, rfl⟩), rfl⟩
    · rw [if_neg hSame]
      apply hStores.absent
      intro hMem
      rcases List.mem_map.mp hMem with ⟨header, hIn, hIs⟩
      apply hAbsent
      exact List.mem_map.mpr ⟨header, mem_changeLines.mpr (Or.inl ⟨hIn, hIs ▸ hSame⟩), hIs⟩

/- A change that leaves the entries as they are. -/
theorem AbMap.change_same (hSame : f (m nick) = m nick) : m.change nick f = m := by
  funext other
  unfold AbMap.change
  by_cases hIs : other = nick
  · rw [if_pos hIs, hSame, hIs]
  · rw [if_neg hIs]

/- A nickname that is not there has nothing to change. -/
theorem Stores.change_absent (hStores : Stores lines m) (hKey : nick ∉ lines.map Prod.fst)
    (hNil : f [] = []) : m.change nick f = m := by
  apply AbMap.change_same
  rw [hStores.absent nick hKey, hNil]

/- A new nickname at the end of the book. -/
theorem Stores.add (hStores : Stores lines m) (hKey : nick ∉ lines.map Prod.fst)
    (hNick : ∀ c, c ∈ nick → inNick c = true) (hHeld : Held e) :
    Stores (lines ++ [(nick, e.text)]) (m.change nick (· ++ [listed e])) := by
  constructor
  · intro header hMem
    rcases List.mem_append.mp hMem with hIn | hIn
    · exact hStores.nick header hIn
    · rw [List.mem_singleton.mp hIn]
      exact hNick
  · rw [List.map_append, List.nodup_append]
    refine ⟨hStores.nodup, by simp, ?_⟩
    intro a hA b hB hSame
    rw [List.map_singleton, List.mem_singleton] at hB
    rw [hSame, hB] at hA
    exact hKey hA
  · intro header hMem
    unfold AbMap.change
    rcases List.mem_append.mp hMem with hIn | hIn
    · have hOther : header.1 ≠ nick := by
        intro hSame
        exact hKey (List.mem_map.mpr ⟨header, hIn, hSame⟩)
      rw [if_neg hOther]
      exact hStores.value header hIn
    · rw [List.mem_singleton.mp hIn]
      refine ⟨[e], Listing.one e, ?_, ?_⟩
      · intro f hF
        rw [List.mem_singleton.mp hF]
        exact hHeld
      · rw [if_pos rfl, hStores.absent nick hKey]
        rfl
  · intro other hAbsent
    rw [List.map_append, List.mem_append, not_or] at hAbsent
    unfold AbMap.change
    have hOther : other ≠ nick := by
      intro hSame
      apply hAbsent.2
      rw [hSame]
      exact List.mem_singleton_self nick
    rw [if_neg hOther]
    exact hStores.absent other hAbsent.1

------------
-- Requests
------------

section Edits

variable {α β : Type} {R S : α → β → Prop} {f : α → α}

/- A relation that holds of every pair. -/
theorem forall₂_map_of_mem {as : List α} {bs : List β} (hRel : List.Forall₂ R as bs)
    (hStep : ∀ a b, a ∈ as → R a b → S (f a) b) : List.Forall₂ S (as.map f) bs := by
  have hBoth := (List.forall₂_and_left as bs).mpr ⟨fun _ hMem => hMem, hRel⟩
  exact List.forall₂_map_left_iff.mpr (hBoth.imp fun a b hPair => hStep a b hPair.1 hPair.2)

/- Related lists without their elements `n`. -/
theorem forall₂_eraseIdx {as : List α} {bs : List β} (hRel : List.Forall₂ R as bs) (n : Nat)
    (hStep : ∀ a b, a ∈ as.eraseIdx n → R a b → S (f a) b) :
    List.Forall₂ S ((as.eraseIdx n).map f) (bs.eraseIdx n) := by
  induction hRel generalizing n with
  | nil => exact List.Forall₂.nil
  | @cons a b as bs hHere hThere ih =>
    cases n with
    | zero => exact forall₂_map_of_mem hThere hStep
    | succ n =>
      rw [List.eraseIdx_cons_succ] at hStep
      rw [List.eraseIdx_cons_succ, List.eraseIdx_cons_succ, List.map_cons]
      apply List.Forall₂.cons
      · exact hStep a b List.mem_cons_self hHere
      · exact ih n (fun c d hC hRel => hStep c d (List.mem_cons_of_mem a hC) hRel)

/- Related lists with their elements `n` replaced. -/
theorem forall₂_set {as : List α} {bs : List β} (hRel : List.Forall₂ R as bs) (n : Nat)
    (hStep : ∀ a b, a ∈ as.eraseIdx n → R a b → S (f a) b) {x : α} {y : β} (hNew : S x y) :
    List.Forall₂ S ((as.map f).set n x) (bs.set n y) := by
  induction hRel generalizing n with
  | nil => exact List.Forall₂.nil
  | @cons a b as bs hHere hThere ih =>
    cases n with
    | zero => exact List.Forall₂.cons hNew (forall₂_map_of_mem hThere hStep)
    | succ n =>
      rw [List.eraseIdx_cons_succ] at hStep
      apply List.Forall₂.cons
      · exact hStep a b List.mem_cons_self hHere
      · exact ih n (fun c d hC hRel => hStep c d (List.mem_cons_of_mem a hC) hRel)

end Edits

/- The entries that `dodel` writes into a value. -/
theorem listing_printed {es : List ListEntry} {addrs : List Addr}
    (hPrints : List.Forall₂ PrintsAs es addrs) (hSome : addrs ≠ []) (w : Nat) :
    (∀ e, e ∈ es → Held e) ∧ Listing es (indent (rfc822GetaddrsWrap addrs w)) := by
  have hAll : (∀ e, e ∈ es → Held e) ∧ (∀ a, a ∈ addrs → a.tokens ≠ []) ∧
        addrs.map printAddr = es.map ListEntry.text := by
    clear hSome
    induction hPrints with
    | nil => exact ⟨nofun, nofun, rfl⟩
    | @cons e a es addrs hHere hThere ih =>
      refine ⟨?_, ?_, ?_⟩
      · intro f hMem
        rcases List.mem_cons.mp hMem with rfl | hIn
        · exact hHere.held
        · exact ih.1 f hIn
      · intro b hMem
        rcases List.mem_cons.mp hMem with rfl | hIn
        · exact hHere.tokens
        · exact ih.2.1 b hIn
      · rw [List.map_cons, List.map_cons, hHere.text, ih.2.2]
  have hEntries : es ≠ [] := by
    intro hNil
    subst hNil
    cases hPrints
    exact hSome rfl
  exact ⟨hAll.1, listing_wrapped hEntries (fun e hE => (hAll.1 e hE).toEntryOk) hAll.2.1 hAll.2.2 w⟩

/- Headers with one value changed, printed. -/
theorem changeLines_print (nick : List Byte) (value : Option (List Byte))
    (lines : List (List Byte × List Byte)) :
    (changeLines nick value lines).flatMap printHeader =
      lines.flatMap fun header =>
        if header.1 = nick then
          value.toList.flatMap (fun v => printHeader (nick, v))
        else
          printHeader header := by
  unfold changeLines
  rw [List.flatMap_assoc]
  congr 1
  funext header
  by_cases hNick : header.1 = nick
  · rw [if_pos hNick, if_pos hNick, List.flatMap_map]
  · rw [if_neg hNick, if_neg hNick, List.flatMap_singleton]

/- The value of every other nickname stays. -/
theorem find?_changeLines {nick other : List Byte} (hOther : other ≠ nick)
    (value : Option (List Byte)) (lines : List (List Byte × List Byte)) :
    (changeLines nick value lines).find? (·.1 = other) = lines.find? (·.1 = other) := by
  induction lines with
  | nil => rfl
  | cons header lines ih =>
    unfold changeLines at ih ⊢
    rw [List.flatMap_cons, List.find?_append]
    by_cases hNick : header.1 = nick
    · have hNot : ¬ header.1 = other := by
        intro hIs
        exact hOther (hIs.symm.trans hNick)
      have hNone : (value.toList.map (fun v => (nick, v))).find? (·.1 = other) = none := by
        rw [List.find?_eq_none]
        intro h hMem
        rcases List.mem_map.mp hMem with ⟨v, _, rfl⟩
        simpa using fun hEq => hOther hEq.symm
      rw [if_pos hNick, hNone, Option.none_or, ih, List.find?_cons_of_neg (by simpa using hNot)]
    · rw [if_neg hNick, ih]
      by_cases hIs : header.1 = other
      · rw [List.find?_cons_of_pos (by simpa using hIs),
          List.find?_cons_of_pos (by simpa using hIs)]
        rfl
      · rw [List.find?_cons_of_neg (by simpa using hIs),
          List.find?_cons_of_neg (by simpa using hIs)]
        rfl

/- A book after a change of one nickname. -/
def Becomes (lines : List (List Byte × List Byte)) (nick : List Byte) (book : List Byte)
    (m : AbMap) : Prop :=
  ∃ after, book = after.flatMap printHeader ∧ Stores after m ∧
    ∀ other, other ≠ nick → after.find? (·.1 = other) = lines.find? (·.1 = other)

/- A change that finds nothing to change. -/
theorem Stores.unchanged (hStores : Stores lines m) (nick : List Byte) :
    Becomes lines nick (lines.flatMap printHeader) m :=
  ⟨lines, rfl, hStores, fun _ _ => rfl⟩

/- `dodel` with the list that it writes. -/
theorem Stores.dodel (hStores : Stores lines m)
    (hKey : nick.takeWhile (· ≠ 0) ∈ lines.map Prod.fst) {a : List Addr} {n : Nat}
    {replace : Option (List Byte × List Byte)} (es : List ListEntry)
    (hPrints : List.Forall₂ PrintsAs es (editList a n replace))
    (hMap : f (m (nick.takeWhile (· ≠ 0))) = es.map listed) :
    Becomes lines (nick.takeWhile (· ≠ 0)) (dodel nick a n replace (lines.flatMap printHeader))
      (m.change (nick.takeWhile (· ≠ 0)) f) := by
  unfold Sqwebmail.dodel
  rw [readHeaders_lines hStores.headerOk]
  dsimp only
  by_cases hNil : editList a n replace = []
  · refine ⟨changeLines (nick.takeWhile (· ≠ 0)) none lines, ?_, ?_, fun other hOther =>
        find?_changeLines hOther none lines⟩
    · rw [changeLines_print, hNil]
      rfl
    · rw [hNil] at hPrints
      cases hPrints
      exact hStores.change hKey none [] nofun nofun (fun _ => rfl) hMap
  · have hListing := listing_printed hPrints hNil 70
    refine ⟨changeLines (nick.takeWhile (· ≠ 0))
      (some (indent (rfc822GetaddrsWrap (editList a n replace)
        70))) lines, ?_, ?_, fun other hOther => find?_changeLines hOther _ lines⟩
    · rw [changeLines_print]
      congr 1
      funext header
      by_cases hNick : header.1 = nick.takeWhile (· ≠ 0)
      · rw [if_pos hNick, if_pos hNick, if_neg hNil, hNick]
        simp
      · rw [if_neg hNick, if_neg hNick]
    · apply hStores.change hKey (some _) es hListing.1 _ nofun hMap
      intro v hV
      cases hV
      exact hListing.2

/- Headers without one nickname, printed. -/
theorem changeLines_none (nick : List Byte) (lines : List (List Byte × List Byte)) :
    changeLines nick none lines = lines.filter (·.1 ≠ nick) := by
  induction lines with
  | nil => rfl
  | cons header lines ih =>
    unfold changeLines at ih ⊢
    rw [List.flatMap_cons, ih]
    by_cases hNick : header.1 = nick
    · rw [if_pos hNick, List.filter_cons_of_neg (by simpa using hNick)]
      rfl
    · rw [if_neg hNick, List.filter_cons_of_pos (by simpa using hNick)]
      rfl

/- `dodelall`. -/
theorem Stores.dodelall (hStores : Stores lines m) (nick : List Byte) :
    Becomes lines (nick.takeWhile (· ≠ 0)) (dodelall nick (lines.flatMap printHeader))
      (m.change (nick.takeWhile (· ≠ 0)) (fun _ => [])) := by
  refine ⟨changeLines (nick.takeWhile (· ≠ 0)) none lines, ?_, ?_, fun other hOther =>
      find?_changeLines hOther none lines⟩
  · unfold Sqwebmail.dodelall
    rw [readHeaders_lines hStores.headerOk, changeLines_none]
  by_cases hKey : nick.takeWhile (· ≠ 0) ∈ lines.map Prod.fst
  · exact hStores.change hKey none [] nofun nofun (fun _ => rfl) rfl
  · have hSame : changeLines (nick.takeWhile (· ≠ 0)) none lines = lines := by
      rw [changeLines_none, List.filter_eq_self]
      intro header hMem
      apply decide_eq_true
      intro hIs
      exact hKey (List.mem_map.mpr ⟨header, hMem, hIs⟩)
    rw [hSame, hStores.change_absent hKey rfl]
    exact hStores

/- `dodel` of one entry. -/
theorem Stores.del (hStores : Stores lines m) (nick : List Byte) (n : Nat)
    (hFits : (AbRequest.del nick n).Fits m) :
    Becomes lines (nick.takeWhile (· ≠ 0))
      ((AbRequest.del nick n).apply (lines.flatMap printHeader))
      ((AbRequest.del nick n).onMap m) := by
  unfold AbRequest.apply AbRequest.onMap
  dsimp only
  cases hFind : Sqwebmail.abFind nick (lines.flatMap printHeader) with
  | none =>
    rw [hStores.change_absent (hStores.not_found hFind) rfl]
    exact hStores.unchanged _
  | some value =>
    rcases hStores.found hFind with ⟨es, _, hHeld, hMap, hRead, hIn⟩
    have hKey := List.mem_map_of_mem (f := Prod.fst) hIn
    have hLength := hRead.length_eq
    dsimp only
    by_cases hRange : n < (parseaddr (tokenize value)).length
    · have hBare : ReprintsFit ((es.map listed).eraseIdx n) := by
        rw [← hMap]
        apply hFits
        rw [hMap, List.length_map, hLength]
        exact hRange
      rw [if_pos hRange]
      apply hStores.dodel hKey ((es.eraseIdx n).map ListEntry.reprinted)
      · unfold editList
        dsimp only
        rw [if_pos hRange]
        apply forall₂_eraseIdx hRead
        intro e a hMem hE
        apply printsAs_reprinted (hHeld e (List.mem_of_mem_eraseIdx hMem)) _ hE
        apply hBare
        rw [List.eraseIdx_map]
        exact List.mem_map_of_mem hMem
      · rw [hMap, List.map_map, List.eraseIdx_map]
        congr 1
        funext e
        exact (listed_reprinted e).symm
    · have hBeyond : (m (nick.takeWhile (· ≠ 0))).length ≤ n := by
        rw [hMap, List.length_map, hLength]
        exact Nat.not_lt.mp hRange
      have hSame : m.change (nick.takeWhile (· ≠ 0)) (·.eraseIdx n) = m :=
        AbMap.change_same (List.eraseIdx_of_length_le hBeyond)
      rw [if_neg hRange, hSame]
      exact hStores.unchanged _

/- `dodel` with a replacement. -/
theorem Stores.replace (hStores : Stores lines m) (nick : List Byte) (n : Nat)
    (name address : List Byte) (hFits : (AbRequest.replace nick n name address).Fits m) :
    Becomes lines (nick.takeWhile (· ≠ 0)) ((AbRequest.replace nick n name address).apply
        (lines.flatMap printHeader))
      ((AbRequest.replace nick n name address).onMap m) := by
  unfold AbRequest.apply AbRequest.onMap
  dsimp only
  cases hFind : Sqwebmail.abFind nick (lines.flatMap printHeader) with
  | none =>
    rw [hStores.change_absent (hStores.not_found hFind) rfl]
    exact hStores.unchanged _
  | some value =>
    rcases hStores.found hFind with ⟨es, hListing, hHeld, hMap, hRead, hIn⟩
    have hKey := List.mem_map_of_mem (f := Prod.fst) hIn
    have hLength := hRead.length_eq
    have hThere : m (nick.takeWhile (· ≠ 0)) ≠ [] := by
      rw [hMap]
      intro hNil
      exact hListing.ne_nil (List.map_eq_nil_iff.mp hNil)
    rcases hFits hThere with ⟨hRange, hApart, hBare⟩
    rw [hMap, List.length_map, hLength] at hRange
    rw [hMap, List.eraseIdx_map] at hBare
    rcases exists_replaced hApart with ⟨e, hPrints, hListed⟩
    dsimp only
    apply hStores.dodel hKey ((es.map ListEntry.reprinted).set n e)
    · unfold editList
      dsimp only
      rw [if_pos hRange]
      apply forall₂_set hRead n _ hPrints
      intro f a hMem hF
      exact printsAs_reprinted (hHeld f (List.mem_of_mem_eraseIdx hMem))
        (hBare _ (List.mem_map_of_mem hMem)) hF
    · have hOthers : (es.map ListEntry.reprinted).map listed = es.map listed := by
        rw [List.map_map]
        congr 1
        funext f
        exact listed_reprinted f
      rw [hMap, List.map_set, hOthers, hListed]

/- A header in front of the one that is looked for. -/
theorem split_at_key (hNodup : (lines.map Prod.fst).Nodup) (hKey : nick ∈ lines.map Prod.fst) :
    ∃ before value after, lines = before ++ (nick, value) :: after ∧
      lines.takeWhile (·.1 ≠ nick) = before ∧
      ∀ v, changeLines nick (some v) lines = before ++ (nick, v) :: after := by
  induction lines with
  | nil => cases hKey
  | cons header lines ih =>
    rw [List.map_cons, List.nodup_cons] at hNodup
    by_cases hNick : header.1 = nick
    · refine ⟨[], header.2, lines, ?_, ?_, ?_⟩
      · rw [← hNick]
        rfl
      · rw [List.takeWhile_cons_of_neg (by simpa using hNick)]
      · intro v
        have hRest : changeLines nick (some v) lines = lines := by
          unfold changeLines
          have hSame : ∀ h, h ∈ lines → (if h.1 = nick then
                (some v).toList.map (fun v => (nick, v))
              else
                [h]) = [h] := by
            intro h hMem
            rw [if_neg]
            intro hIs
            apply hNodup.1
            rw [hNick, ← hIs]
            exact List.mem_map_of_mem hMem
          rw [List.flatMap_congr hSame]
          exact List.flatMap_singleton' lines
        unfold changeLines at hRest ⊢
        rw [List.flatMap_cons, if_pos hNick, hRest]
        rfl
    · have hThere : nick ∈ lines.map Prod.fst := by
        rw [List.map_cons, List.mem_cons] at hKey
        rcases hKey with hHere | hThere
        · exact absurd hHere.symm hNick
        · exact hThere
      rcases ih hNodup.2 hThere with ⟨before, value, after, hLines, hFront, hChange⟩
      refine ⟨header :: before, value, after, ?_, ?_, ?_⟩
      · rw [hLines]
        rfl
      · rw [List.takeWhile_cons_of_pos (by simpa using hNick), hFront]
      · intro v
        have hRest := hChange v
        unfold changeLines at hRest ⊢
        rw [List.flatMap_cons, if_neg hNick, hRest]
        rfl

/- Something is left of the nickname and of the address. -/
theorem uncleaned_ne_nil {name address nick : List Byte} (hNick : fixNick nick ≠ [])
    (hAddress : (fixNameaddr name address).2 ≠ []) :
    ¬ (nick.takeWhile (· ≠ 0) = [] ∨ address.takeWhile (· ≠ 0) = []) := by
  intro hEither
  rcases hEither with hNil | hNil
  · apply hNick
    unfold fixNick
    rw [hNil]
    rfl
  · apply hAddress
    unfold fixNameaddr
    rw [hNil]
    rfl

/- `ab_add` to a nickname that is there. -/
theorem abAdd_found {name address nick book : List Byte} (hNick : fixNick nick ≠ [])
    (hAddress : (fixNameaddr name address).2 ≠ [])
    {headers before after : List (List Byte × List Byte)} {header value : List Byte}
    (hRead : readHeaders book = headers)
    (hBefore : headers.takeWhile (·.1 ≠ fixNick nick) = before)
    (hDrop : headers.drop before.length = (header, value) :: after) :
    abAdd name address nick book = before.flatMap printHeader ++
        (fixNick nick ++ bytes ": " ++ value ++
          bytes ",\n    " ++ (printNameaddr (fixNameaddr name address).1
              (fixNameaddr name address).2 ++
              after.flatMap printHeader)) := by
  unfold abAdd
  rw [if_neg (uncleaned_ne_nil hNick hAddress), if_neg hNick]
  dsimp only
  rw [if_neg hAddress, hRead, hBefore, hDrop]

/- `ab_add` to a new nickname. -/
theorem abAdd_new {name address nick book : List Byte} (hNick : fixNick nick ≠ [])
    (hAddress : (fixNameaddr name address).2 ≠ []) {headers : List (List Byte × List Byte)}
    (hRead : readHeaders book = headers)
    (hAll : headers.takeWhile (·.1 ≠ fixNick nick) = headers) :
    abAdd name address nick book = headers.flatMap printHeader ++ (fixNick nick ++ bytes ": " ++
          printNameaddr (fixNameaddr name address).1 (fixNameaddr name address).2) := by
  unfold abAdd
  rw [if_neg (uncleaned_ne_nil hNick hAddress), if_neg hNick]
  dsimp only
  rw [if_neg hAddress, hRead, hAll, List.drop_length]

/- `ab_add` when nothing is left of one of them. -/
theorem abAdd_empty {name address nick : List Byte}
    (hEmpty : fixNick nick = [] ∨ (fixNameaddr name address).2 = []) (book : List Byte) :
    abAdd name address nick book = book := by
  unfold abAdd
  split
  · rfl
  split
  · rfl
  · rename_i hNick
    rcases hEmpty with hNil | hNil
    · exact absurd hNil hNick
    · dsimp only
      rw [if_pos hNil]

/- `ab_add`. -/
theorem Stores.abAdd (hStores : Stores lines m) (name address nick : List Byte)
    (hFits : (AbRequest.add name address nick).Fits m) :
    Becomes lines (fixNick nick) (abAdd name address nick (lines.flatMap printHeader))
      ((AbRequest.add name address nick).onMap m) := by
  unfold AbRequest.onMap
  dsimp only
  by_cases hEmpty : fixNick nick = [] ∨ (fixNameaddr name address).2 = []
  · rw [if_pos hEmpty, abAdd_empty hEmpty]
    exact hStores.unchanged _
  rw [if_neg hEmpty]
  rw [not_or] at hEmpty
  rcases exists_added (hFits hEmpty.1) hEmpty.2 with ⟨e, hHeld, hText, hListed⟩
  have hRead := readHeaders_lines hStores.headerOk
  rw [← hListed]
  by_cases hKey : fixNick nick ∈ lines.map Prod.fst
  · rcases split_at_key hStores.nodup hKey with ⟨before, value, after, hLines, hBefore, hChange⟩
    have hMem : (fixNick nick, value) ∈ lines := by
      rw [hLines]
      exact List.mem_append_right _ List.mem_cons_self
    rcases hStores.value _ hMem with ⟨es, hListing, hEs, hMap⟩
    refine ⟨changeLines (fixNick nick) (some (value ++ bytes ",\n    " ++ e.text)) lines,
      ?_, ?_, fun other hOther => find?_changeLines hOther _ lines⟩
    · have hDrop : lines.drop before.length = (fixNick nick, value) :: after := by
        rw [hLines, List.drop_left]
      rw [hChange, abAdd_found hEmpty.1 hEmpty.2 hRead hBefore hDrop, hText]
      simp [printHeader]
    · apply hStores.change hKey (some _) (es ++ [e]) _ _
        fun hNone => absurd hNone (Option.some_ne_none _)
      · rw [hMap, List.map_append]
        rfl
      · intro f hF
        rcases List.mem_append.mp hF with hIn | hIn
        · exact hEs f hIn
        · rw [List.mem_singleton.mp hIn]
          exact hHeld
      · intro v hV
        cases hV
        exact hListing.add e
  · have hAll : lines.takeWhile (·.1 ≠ fixNick nick) = lines := by
      rw [List.takeWhile_eq_self_iff]
      intro header hMem
      apply decide_eq_true
      intro hIs
      exact hKey (List.mem_map.mpr ⟨header, hMem, hIs⟩)
    have hNick : ∀ c, c ∈ fixNick nick → inNick c = true := by
      intro c hMem
      exact (List.mem_filter.mp hMem).2
    refine ⟨lines ++ [(fixNick nick, e.text)], ?_, hStores.add hKey hNick hHeld, ?_⟩
    · rw [abAdd_new hEmpty.1 hEmpty.2 hRead hAll, hText]
      simp [printHeader]
    · intro other hOther
      have hLast : ¬ fixNick nick = other := by
        intro hIs
        exact hOther hIs.symm
      rw [List.find?_append, List.find?_cons_of_neg
        (by simpa using hLast), List.find?_nil, Option.or_none]

/- One request. -/
theorem Stores.apply (hStores : Stores lines m) (request : AbRequest) (hFits : request.Fits m) :
    Becomes lines request.nickname (request.apply (lines.flatMap printHeader))
      (request.onMap m) := by
  cases request with
  | add name address nick => exact hStores.abAdd name address nick hFits
  | del nick n => exact hStores.del nick n hFits
  | replace nick n name address => exact hStores.replace nick n name address hFits
  | delall nick => exact hStores.dodelall nick

/- A run of requests that fit. -/
theorem stores_after (requests : List AbRequest) (hFits : RequestsFit requests) :
    ∃ lines, bookAfter requests = lines.flatMap printHeader ∧ Stores lines (mapAfter requests) := by
  induction requests using List.reverseRecOn with
  | nil => exact ⟨[], rfl, nofun, List.nodup_nil, nofun, fun _ _ => rfl⟩
  | append_singleton requests request ih =>
    rcases ih hFits.front with ⟨lines, hBook, hStores⟩
    have hLast := hFits requests request [] rfl
    rcases hStores.apply request hLast with ⟨after, hAfter, hMap, _⟩
    refine ⟨after, ?_, ?_⟩
    · rw [← hAfter, ← hBook]
      exact List.foldl_append
    · have hStep : mapAfter (requests ++ [request]) = request.onMap (mapAfter requests) :=
        List.foldl_append
      rw [hStep]
      exact hMap

instance (m : AbMap) : DecidablePred (AbRequest.Fits m)
  | .add _ _ _ => inferInstanceAs (Decidable (_ → _))
  | .del nick n =>
    inferInstanceAs (Decidable (n < (m (nick.takeWhile (· ≠ 0))).length →
        ∀ e, e ∈ (m (nick.takeWhile (· ≠ 0))).eraseIdx n →
          e.name = none → standsBare e.address = true))
  | .replace nick n name address =>
    inferInstanceAs (Decidable (m (nick.takeWhile (· ≠ 0)) ≠ [] →
        n < (m (nick.takeWhile (· ≠ 0))).length ∧
          wordsStandApart (fixNameaddr name address).2 = true ∧
          ∀ e, e ∈ (m (nick.takeWhile (· ≠ 0))).eraseIdx n →
            e.name = none → standsBare e.address = true))
  | .delall _ => inferInstanceAs (Decidable True)

/-
  In a run of requests that fit, the entries that are read
  back are those of the map, and a request changes the value
  of its own nickname only.
-/
theorem addressbook_map (requests : List AbRequest) (hFits : RequestsFit requests) :
    (∀ nick, entriesUnder (bookAfter requests) nick =
      mapAfter requests (nick.takeWhile (· ≠ 0))) ∧
    ∀ front request back, requests = front ++ request :: back →
      ∀ nick, nick.takeWhile (· ≠ 0) ≠ request.nickname →
        abFind nick (bookAfter (front ++ [request])) = abFind nick (bookAfter front) := by
  constructor
  · intro nick
    rcases stores_after requests hFits with ⟨lines, hBook, hStores⟩
    rw [hBook]
    exact hStores.entriesUnder nick
  · intro front request back hSplit nick hOther
    have hFront : RequestsFit front := by
      rw [hSplit] at hFits
      exact hFits.front
    rcases stores_after front hFront with ⟨lines, hBook, hStores⟩
    rcases hStores.apply request (hFits front request back hSplit) with
      ⟨after, hAfter, hMap, hSame⟩
    have hStep : bookAfter (front ++ [request]) = after.flatMap printHeader := by
      rw [← hAfter, ← hBook]
      exact List.foldl_append
    rw [hStep, hBook, hMap.abFind, hStores.abFind, hSame _ hOther]

/- Two entries, and the first one is deleted. -/
def joeRequests : List AbRequest :=
  [.add (bytes "Joe") (bytes "joe@h") (bytes "n"),
    .add [] (bytes "b@h") (bytes "n"), .del (bytes "n") 0]

theorem addressbook_map_joe : entriesUnder (bookAfter joeRequests) (bytes "n") =
      [⟨none, bytes "b@h"⟩] :=
  ((addressbook_map joeRequests
    (((RequestsFit.nil.append (by decide)).append
      (by decide)).append (by decide))).1 (bytes "n")).trans
        (by decide +kernel)

/- An address with a comma, and another one that is deleted. -/
def commaRequests : List AbRequest :=
  [.add [] (bytes "a,b") (bytes "n"), .add [] (bytes "c") (bytes "n"), .del (bytes "n") 1]

/-
  The address is in brackets until the list is written again,
  and then it is two addresses.
-/
theorem addressbook_splits : mapAfter commaRequests (bytes "n") = [⟨none, bytes "a,b"⟩] ∧
      entriesUnder (bookAfter commaRequests) (bytes "n") =
        [⟨none, bytes "a"⟩, ⟨none, bytes "b"⟩] := by
  decide +kernel

end Wmail.Sqwebmail
