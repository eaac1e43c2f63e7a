import Silver.Protocol.Bundle

/-!
# Signed statements

The statements that retire or replace a key: an identity's revocation of itself,
its handover to a successor, and an account's revocation of one of its devices.
-/

namespace Silver.Protocol

open Foundation

/-- Verification of Ed25519 signatures over a domain and a message. -/
structure Signatures where
  verify : UserId → List UInt8 → List UInt8 → Signature → Bool

def REVOCATION_DOMAIN : List UInt8 :=
  utf8 "silver-messenger/v4/revocation"

def SUCCESSION_DOMAIN : List UInt8 :=
  utf8 "silver-messenger/v4/succession"

def SUCCESSION_ACCEPT_DOMAIN : List UInt8 :=
  utf8 "silver-messenger/v4/succession-accept"

def DEVICE_REVOCATION_DOMAIN : List UInt8 :=
  utf8 "silver-messenger/v5/device-revocation"

/-- An identity's statement that it is dead. -/
structure Revocation where
  identity : UserId
  createdAtMs : Nat
  signature : Signature
deriving DecidableEq

namespace Revocation

def signedBytes (identity : UserId) (createdAtMs : Nat) : List UInt8 :=
  identity.data ++ beBytes 8 createdAtMs

def verify (signatures : Signatures) (revocation : Revocation) : Bool :=
  signatures.verify revocation.identity REVOCATION_DOMAIN
    (signedBytes revocation.identity revocation.createdAtMs) revocation.signature

end Revocation

/-- A statement, signed by both keys, that `old` has handed over to `new`. -/
structure Succession where
  old : UserId
  new : UserId
  createdAtMs : Nat
  oldSignature : Signature
  newSignature : Signature
deriving DecidableEq

namespace Succession

def signedBytes (old new : UserId) (createdAtMs : Nat) : List UInt8 :=
  old.data ++ new.data ++ beBytes 8 createdAtMs

def verify (signatures : Signatures) (succession : Succession) : Bool :=
  let message := signedBytes succession.old succession.new succession.createdAtMs
  !decide (succession.old = succession.new) &&
    signatures.verify succession.old SUCCESSION_DOMAIN message succession.oldSignature &&
    signatures.verify succession.new SUCCESSION_ACCEPT_DOMAIN message succession.newSignature

end Succession

/-- An account's statement that a device is no longer its own. -/
structure DeviceRevocation where
  account : UserId
  device : UserId
  createdAtMs : Nat
  signature : Signature
deriving DecidableEq

namespace DeviceRevocation

def signedBytes (account device : UserId) (createdAtMs : Nat) : List UInt8 :=
  account.data ++ device.data ++ beBytes 8 createdAtMs

def verify (signatures : Signatures) (revocation : DeviceRevocation) : Bool :=
  !decide (revocation.account = revocation.device) &&
    signatures.verify revocation.account DEVICE_REVOCATION_DOMAIN
      (signedBytes revocation.account revocation.device revocation.createdAtMs)
      revocation.signature

end DeviceRevocation

end Silver.Protocol
