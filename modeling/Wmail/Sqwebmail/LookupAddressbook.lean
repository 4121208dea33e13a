import Wmail.Sqwebmail.Addressbook

/-
  Nicknames in the header of a message (sqwebmail,
  newmsg_create.c).

  The nicknames of a header are replaced by their entries of
  the address book, and the text is looked through again, until
  there is no nickname left that has not been replaced before.

  Key definitions include:
    * `lookupLoop`
-/

namespace Wmail.Sqwebmail

open Rfc822

end Wmail.Sqwebmail
