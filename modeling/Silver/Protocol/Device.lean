import Silver.Protocol.Statements

/-!
# Linked devices

An account signs a certificate for each device key it links.  Whether a byte
string is a key, and whether a signature holds, are parameters.
-/

namespace Silver.Protocol

open Foundation

/-- What goes wrong with a value off the wire. -/
inductive ProtocolError where
  | invalidKey
  | invalidSignature
  | decryptFailed
  | malformed (what : String)
  | weakKey
  | missingPrekeys
  | sessionNotReady
  | tooManySkipped
deriving DecidableEq

/-- The words it is reported in. -/
def ProtocolError.text : ProtocolError → String
  | .invalidKey => "invalid public key"
  | .invalidSignature => "invalid signature"
  | .decryptFailed => "decryption failed"
  | .malformed what => "malformed message: " ++ what
  | .weakKey => "non-contributory Diffie-Hellman result"
  | .missingPrekeys => "the peer has not published prekeys"
  | .sessionNotReady => "the session cannot send until the peer's first message arrives"
  | .tooManySkipped => "message is too far ahead of the ones received so far"

/-- The curve: which byte strings are keys, and which signatures hold. -/
structure Keys extends Signatures where
  isKey : Bytes 32 → Bool

def Keys.userId (keys : Keys) (bytes : List UInt8) : Except ProtocolError UserId :=
  if long : bytes.length = 32 then
    if keys.isKey ⟨bytes, long⟩ then .ok ⟨bytes, long⟩ else .error .invalidKey
  else .error .invalidKey

/-- An identity with its private keys: what it signs, the Diffie-Hellman key it publishes, and
the one it published before, while that is held. -/
structure Identity where
  userId : UserId
  sign : List UInt8 → List UInt8 → Signature
  dhCurrent : Bytes 32
  dhPrevious : Option (Bytes 32)

def DEVICE_DOMAIN : List UInt8 :=
  utf8 "silver-messenger/v5/device"

def DEVICE_COUNTERSIGNATURE_DOMAIN : List UInt8 :=
  utf8 "silver-messenger/v5/device-countersignature"

def MAX_DEVICES : Nat := 8

def MAX_DEVICE_NAME_BYTES : Nat := 32

def isControl (character : Char) : Bool :=
  character.val < 0x20 || (0x7f ≤ character.val && character.val ≤ 0x9f)

namespace DeviceCertificate

def checkName (name : String) : Except ProtocolError Unit :=
  if (utf8 name).length > MAX_DEVICE_NAME_BYTES then
    .error (.malformed "device name too long")
  else if name.toList.any isControl then
    .error (.malformed "control character in device name")
  else .ok ()

/-- Whether the account's signature holds, the device's where there is one, and
the shape. -/
def verify (keys : Keys) (certificate : DeviceCertificate) : Except ProtocolError Unit := do
  checkName certificate.name
  if certificate.account = certificate.device then
    .error (.malformed "a device certificate must name a key other than the account's")
  else
    let signed := signedBytes certificate.account certificate.device certificate.createdAtMs
      certificate.name
    if !keys.verify certificate.account DEVICE_DOMAIN signed certificate.signature then
      .error .invalidSignature
    else
      match certificate.deviceSignature with
      | some countersignature =>
        if keys.verify certificate.device DEVICE_COUNTERSIGNATURE_DOMAIN signed
            countersignature then .ok ()
        else .error .invalidSignature
      | none => .ok ()

end DeviceCertificate

end Silver.Protocol
