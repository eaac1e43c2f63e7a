import Silver.Protocol.Transparency

/-!
# Frames about the log

What clients and relays say to each other about lookups and the log, and the reasons a
relay gives for refusing anything.
-/

namespace Silver.Protocol

/-- The answer to a lookup. -/
structure LookupResult (Hash : Type) where
  userId : UserId
  bundle : Option KeyBundle
  revocation : Option Revocation
  succession : Option Succession
  head : Option (LogHead Hash)
  logged : Option (LogPosition Hash)
  deviceBundles : List KeyBundle
  deviceRevocations : List DeviceRevocation
deriving DecidableEq

/-- Why a relay refuses a frame. -/
inductive ErrorCode where
  | unauthenticated
  | badSignature
  | malformed
  | tooLarge
  | forbidden
  | mailboxFull
  | rateLimited
  | inviteRequired
  | notFound
  | storageFull
  | stale
  | existsAlready
  | internal
deriving DecidableEq

/-- The name a code is shown under. -/
def ErrorCode.name : ErrorCode → String
  | .unauthenticated => "Unauthenticated"
  | .badSignature => "BadSignature"
  | .malformed => "Malformed"
  | .tooLarge => "TooLarge"
  | .forbidden => "Forbidden"
  | .mailboxFull => "MailboxFull"
  | .rateLimited => "RateLimited"
  | .inviteRequired => "InviteRequired"
  | .notFound => "NotFound"
  | .storageFull => "StorageFull"
  | .stale => "Stale"
  | .existsAlready => "Exists"
  | .internal => "Internal"

end Silver.Protocol
