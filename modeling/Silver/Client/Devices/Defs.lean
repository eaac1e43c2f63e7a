import Silver.Foundation.Checks
import Silver.Protocol.Device

/-!
# The devices of an account

The primary keeps the list of the devices it linked and the revocations it issued, and tells
its devices the list each time it changes.  A linked device keeps the list as the primary last
synced it.  What is read is taken from memory; a write to the disk may fail after memory has
changed.
-/

namespace Silver.Client

open Foundation Protocol

/-- What a linked device holds about its account. -/
structure Linked where
  account : UserId
  certificate : DeviceCertificate
deriving DecidableEq

/-- The linked devices and the revocations, as a device last knew them. -/
structure DevicesFile where
  devices : List DeviceCertificate
  revoked : List DeviceRevocation
deriving DecidableEq

/-- What goes wrong with the list of devices. -/
inductive DeviceError where
  | refused (why : String)
  | protocol (error : ProtocolError)
  | storage
deriving DecidableEq

/-- Which writes to the disk go through. -/
structure Writes where
  linked : Bool
  devices : Bool
deriving DecidableEq

/-- A device's view of its account's devices. -/
structure DeviceState where
  me : UserId
  linked : Option Linked
  list : DevicesFile
deriving DecidableEq

def verifyFor (keys : Keys) (account : UserId) (revocation : DeviceRevocation) :
    Except ProtocolError Unit :=
  if revocation.account ≠ account then
    .error (.malformed "a device revocation by another account")
  else if revocation.account = revocation.device then
    .error (.malformed "a device revocation must name a key other than the account's")
  else if revocation.verify keys.toSignatures then .ok ()
  else .error .invalidSignature

/-- A certificate signed by the device it names. -/
def countersignDevice (keys : Keys) (identity : Identity)
    (certificate : DeviceCertificate) : Except ProtocolError DeviceCertificate := do
  refuseIf (certificate.device ≠ identity.userId)
    (.malformed "a device signs only its own certificate")
  certificate.verify keys
  .ok
    { certificate with
      deviceSignature := some (identity.sign DEVICE_COUNTERSIGNATURE_DOMAIN
        (DeviceCertificate.signedBytes certificate.account certificate.device
          certificate.createdAtMs certificate.name)) }

def sortByDevice (devices : List DeviceCertificate) : List DeviceCertificate :=
  devices.insertionSort fun first second => first.device.data ≤ second.device.data

def checkedList (keys : Keys) (account : UserId) (devices : List DeviceCertificate)
    (revoked : List DeviceRevocation) : Except DeviceError DevicesFile := do
  refuseIf (devices.length > MAX_DEVICES) (.refused "more than 8 devices")
  devices.forM fun certificate => do
    (certificate.verify keys).mapError .protocol
    refuseIf (certificate.account ≠ account) (.refused "a listed device is another account's")
  revoked.forM fun revocation => (verifyFor keys account revocation).mapError .protocol
  .ok ⟨(sortByDevice devices).destutter (fun kept next => kept.device ≠ next.device), revoked⟩

def sameAccountStatement (theirs ours : DeviceCertificate) : Bool :=
  theirs.account = ours.account && theirs.device = ours.device &&
    theirs.createdAtMs = ours.createdAtMs && theirs.name = ours.name &&
    theirs.signature = ours.signature

namespace DeviceState

def account (state : DeviceState) : UserId :=
  match state.linked with
  | none => state.me
  | some linked => linked.account

def lists (state : DeviceState) (device : UserId) : Bool :=
  state.list.devices.any fun certificate => certificate.device = device

def isRevoked (state : DeviceState) (device : UserId) : Bool :=
  state.list.revoked.any fun revocation => revocation.device = device

def siblings (state : DeviceState) : List UserId :=
  let others := (state.list.devices.map DeviceCertificate.device).filter (· ≠ state.me)
  match state.linked with
  | none => others
  | some linked => linked.account :: others

def isOurs (state : DeviceState) (id : UserId) : Bool :=
  id = state.me || id = state.account || state.lists id

def persist (writes : Writes) : Except DeviceError Unit :=
  refuseIf (!writes.devices) .storage

def canLink (state : DeviceState) (device : UserId) : Except DeviceError Unit := do
  refuseIf state.linked.isSome (.refused "only the primary links devices")
  refuseIf (device = state.me) (.refused "an account is not its own device")
  refuseIf (state.isRevoked device)
    (.refused "that device was revoked; a device does not come back")
  refuseIf (state.lists device) (.refused "that device is linked already")
  refuseIf (state.list.devices.length ≥ MAX_DEVICES) (.refused "an account links at most 8 devices")

def checkCertificate (keys : Keys) (state : DeviceState) (certificate : DeviceCertificate) :
    Except DeviceError Unit := do
  (certificate.verify keys).mapError .protocol
  refuseIf (certificate.account ≠ state.me) (.refused "the certificate is for another account")

def link (keys : Keys) (writes : Writes) (state : DeviceState) (certificate : DeviceCertificate) :
    Except DeviceError Unit × DeviceState :=
  match state.checkCertificate keys certificate >>= fun _ => state.canLink certificate.device with
  | .error why => (.error why, state)
  | .ok () =>
    (persist writes,
      { state with
        list.devices := sortByDevice (state.list.devices ++ [certificate]) })

def checkRevocation (keys : Keys) (state : DeviceState) (revocation : DeviceRevocation) :
    Except DeviceError Unit := do
  refuseIf state.linked.isSome (.refused "only the primary revokes devices")
  (verifyFor keys revocation.account revocation).mapError .protocol
  refuseIf (revocation.account ≠ state.me) (.refused "the revocation is for another account")

/-- The primary records a revocation it signed and drops the device. -/
def revoke (keys : Keys) (writes : Writes) (state : DeviceState) (revocation : DeviceRevocation) :
    Except DeviceError Unit × DeviceState :=
  match state.checkRevocation keys revocation with
  | .error why => (.error why, state)
  | .ok () =>
    let revoked :=
      if state.isRevoked revocation.device then state.list.revoked
      else state.list.revoked ++ [revocation]
    (persist writes,
      { state with
        list :=
          { devices := state.list.devices.filter (·.device ≠ revocation.device)
            revoked := revoked } })

def replaceFirst (certificate : DeviceCertificate) : List DeviceCertificate → List DeviceCertificate
  | [] => []
  | entry :: entries =>
    if entry.device = certificate.device then certificate :: entries
    else entry :: replaceFirst certificate entries

def canRename (keys : Keys) (state : DeviceState) (certificate : DeviceCertificate) :
    Except DeviceError Unit := do
  refuseIf state.linked.isSome (.refused "only the primary names devices")
  state.checkCertificate keys certificate
  refuseIf (!state.lists certificate.device) (.refused "that device is not linked")

def rename (keys : Keys) (writes : Writes) (state : DeviceState)
    (certificate : DeviceCertificate) : Except DeviceError Unit × DeviceState :=
  match state.canRename keys certificate with
  | .error why => (.error why, state)
  | .ok () =>
    (persist writes, { state with list.devices := replaceFirst certificate state.list.devices })

/-- A linked device takes its own certificate from a list where the account changed what it
says. -/
def takeCertificate (keys : Keys) (identity : Identity) (writes : Writes) (state : DeviceState)
    (list : DevicesFile) : Except DeviceError Unit × DeviceState :=
  match state.linked, list.devices.find? (fun certificate => certificate.device = state.me) with
  | some linked, some mine =>
    if sameAccountStatement mine linked.certificate then (.ok (), state)
    else
      match (countersignDevice keys identity mine).mapError .protocol with
      | .error why => (.error why, state)
      | .ok certificate =>
        (refuseIf (!writes.linked) .storage,
          { state with linked := some { linked with certificate := certificate } })
  | _, _ => (.ok (), state)

/-- Take the list as the primary synced it, and say which devices it revokes anew. -/
def setList (keys : Keys) (identity : Identity) (writes : Writes) (state : DeviceState)
    (list : DevicesFile) : Except DeviceError (List UserId) × DeviceState :=
  if identity.userId ≠ state.me then
    (.error (.refused "the device state was given another key's identity"), state)
  else
    match checkedList keys state.account list.devices list.revoked with
    | .error why => (.error why, state)
    | .ok checked =>
      let newly := (checked.revoked.map DeviceRevocation.device).filter (!state.isRevoked ·)
      match takeCertificate keys identity writes state checked with
      | (.error why, state) => (.error why, state)
      | (.ok (), state) => ((persist writes).map fun _ => newly, { state with list := checked })

end DeviceState

end Silver.Client
