import Silver.Foundation.Bytes

/-!
# Key bundles

The public keys a relay stores for an identity and hands out on lookups, with
the certificates that bind linked devices to an account.
-/

namespace Silver.Protocol

open Foundation

abbrev UserId : Type :=
  Bytes 32

abbrev DhPublic : Type :=
  Bytes 32

abbrev Signature : Type :=
  Bytes 64

/-- A medium-term X25519 key, signed by its owner. -/
structure SignedPrekey where
  id : Nat
  dhPublic : DhPublic
  createdAtMs : Nat
  signature : Signature
deriving DecidableEq

/-- An X25519 key handed out once. -/
structure OneTimePrekey where
  id : Nat
  dhPublic : DhPublic
deriving DecidableEq

/-- An ML-KEM key, signed by its owner. -/
structure SignedPqPrekey where
  id : Nat
  kemPublic : List UInt8
  createdAtMs : Nat
  signature : Signature
deriving DecidableEq

/-- The prekeys of a bundle. -/
structure Prekeys where
  signed : SignedPrekey
  oneTime : List OneTimePrekey
  pqSigned : Option SignedPqPrekey
  pqOneTime : List SignedPqPrekey
deriving DecidableEq

/-- The identity key's word that a device key belongs to it. -/
structure DeviceCertificate where
  account : UserId
  device : UserId
  createdAtMs : Nat
  name : String
  signature : Signature
  deviceSignature : Option Signature
deriving DecidableEq

def DeviceCertificate.signedBytes (account device : UserId) (createdAtMs : Nat)
    (name : String) : List UInt8 :=
  account.data ++ device.data ++ beBytes 8 createdAtMs ++
    [UInt8.ofNat (min (utf8 name).length 255)] ++ utf8 name

def DeviceCertificate.encode (certificate : DeviceCertificate) : List UInt8 :=
  signedBytes certificate.account certificate.device certificate.createdAtMs certificate.name ++
    certificate.signature.data

/-- What an identity publishes. -/
structure KeyBundle where
  userId : UserId
  dhPublic : DhPublic
  signature : Signature
  prekeys : Option Prekeys
  caps : List String
  capsSignature : Option Signature
  devices : List DeviceCertificate
  devicesSignature : Option Signature
  deviceOf : Option DeviceCertificate
deriving DecidableEq

def KeyBundle.account (bundle : KeyBundle) : Option UserId :=
  bundle.deviceOf.map DeviceCertificate.account

end Silver.Protocol
