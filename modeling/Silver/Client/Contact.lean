import Silver.Protocol.Bundle

/-!
# Contacts

What the client keeps of a contact's keys: the bundle pinned for them and whether the user
compared safety numbers, each with the linked device it came from when it was not this
one.
-/

namespace Silver.Client

open Protocol

/-- A contact, without the numbering of messages with them. -/
structure Contact where
  userId : UserId
  aliasName : Option String
  bundle : Option KeyBundle
  verified : Bool
  pinnedBy : Option UserId
  verifiedBy : Option UserId
  caps : List String
  autoFiles : Bool
  revoked : Bool
  expireAfterS : Nat
deriving DecidableEq

namespace Contact

def new (userId : UserId) : Contact :=
  ⟨userId, none, none, false, none, none, [], false, false, 0⟩

def pin (contact : Contact) (bundle : Option KeyBundle) : Contact :=
  { contact with bundle, pinnedBy := none }

def setVerified (contact : Contact) (verified : Bool) : Contact :=
  { contact with verified, verifiedBy := none }

def key (contact : Contact) : Option DhPublic :=
  contact.bundle.map KeyBundle.dhPublic

end Contact

end Silver.Client
