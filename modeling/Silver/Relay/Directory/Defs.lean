import Silver.Foundation.Table
import Silver.Protocol.Wire

/-!
# The relay's directory

The tables a relay answers lookups from: the published bundles, the statements
about identities and devices, and the transparency log with each subject's
latest position.  Every operation is one write transaction of the store.
-/

namespace Silver.Relay

open Foundation Protocol

/-- Where a subject last appears in the log, and the leaf of its last logged
bundle, which a later statement does not replace. -/
structure Latest (Hash : Type) where
  position : LogPosition Hash
  bundleLeaf : Option Hash
deriving DecidableEq

/-- The tables.  `devices` counts the bundles that claim an account, and
`deviceRevocationsByAccount` holds its keys in order. -/
structure Directory (Hash : Type) where
  bundles : Table UserId KeyBundle
  devices : Nat
  revocations : Table UserId Revocation
  successions : Table UserId Succession
  deviceRevocations : Table UserId DeviceRevocation
  deviceRevocationsByAccount : List (UserId × UserId)
  log : List (LogEntry Hash)
  logLatest : Table Hash (Latest Hash)

/-- A write to the directory, with the time it is made at. -/
inductive Operation where
  | putBundle (bundle : KeyBundle) (nowMs : Nat)
  | setRevocation (revocation : Revocation) (nowMs : Nat)
  | setSuccession (succession : Succession) (nowMs : Nat)
  | setDeviceRevocation (revocation : DeviceRevocation) (nowMs : Nat)
  | removeDeviceRevocation (device : UserId)
  | removeUser (user : UserId)
deriving DecidableEq

def indexOrder (left right : UserId × UserId) : Prop :=
  left.1.data ++ left.2.data ≤ right.1.data ++ right.2.data

instance : DecidableRel indexOrder :=
  fun left right =>
    inferInstanceAs (Decidable (left.1.data ++ left.2.data ≤ right.1.data ++ right.2.data))

def claimsAccount (bundle : Option KeyBundle) : Bool :=
  bundle.elim false fun bundle => bundle.deviceOf.isSome

namespace Directory

/-- A new database. -/
def empty : Directory Hash :=
  { bundles := Table.empty
    devices := 0
    revocations := Table.empty
    successions := Table.empty
    deviceRevocations := Table.empty
    deviceRevocationsByAccount := []
    log := []
    logLatest := Table.empty }

section Writing

variable [DecidableEq Hash] (sha256 : Sha256 Hash)

def logHead (directory : Directory Hash) : LogHead Hash :=
  directory.log.getLast?.elim (LogHead.EMPTY sha256) (LogEntry.head sha256)

/-- Append one entry after the head and note it as the subject's latest. -/
def appendLog (directory : Directory Hash) (subject : Hash) (kind : EntryKind) (leaf : Hash)
    (nowMs : Nat) : Directory Hash :=
  let entry := LogEntry.after (directory.logHead sha256) subject kind leaf nowMs
  let previous := (directory.logLatest.get subject).bind Latest.bundleLeaf
  { directory with
    log := directory.log ++ [entry]
    logLatest := directory.logLatest.insert subject
      { position := entry.position
        bundleLeaf := if kind = .bundle then some leaf else previous } }

/-- Store a bundle under its owner, keeping the count of devices right. -/
def storeBundleIn (directory : Directory Hash) (bundle : KeyBundle) : Directory Hash :=
  let wasDevice := claimsAccount (directory.bundles.get bundle.userId)
  let isDevice := bundle.deviceOf.isSome
  { directory with
    bundles := directory.bundles.insert bundle.userId bundle
    devices :=
      if isDevice && !wasDevice then directory.devices + 1
      else if !isDevice && wasDevice then directory.devices - 1
      else directory.devices }

def logBundleIn (directory : Directory Hash) (bundle : KeyBundle) (nowMs : Nat) : Directory Hash :=
  let leaf := bundle.transparencyLeaf sha256
  let latest := directory.logLatest.get (subject sha256 bundle.userId)
  if latest.bind Latest.bundleLeaf = some leaf then directory
  else directory.appendLog sha256 (subject sha256 bundle.userId) .bundle leaf nowMs

def putBundle (directory : Directory Hash) (bundle : KeyBundle) (nowMs : Nat) : Directory Hash :=
  (directory.storeBundleIn bundle).logBundleIn sha256 bundle nowMs

def setRevocation (directory : Directory Hash) (revocation : Revocation) (nowMs : Nat) :
    Directory Hash :=
  { directory with
      revocations := directory.revocations.insert revocation.identity revocation }.appendLog
    sha256 (subject sha256 revocation.identity) .revocation
    (revocation.transparencyLeaf sha256) nowMs

def setSuccession (directory : Directory Hash) (succession : Succession) (nowMs : Nat) :
    Directory Hash :=
  { directory with successions := directory.successions.insert succession.old succession }.appendLog
    sha256 (subject sha256 succession.old) .succession
    (succession.transparencyLeaf sha256) nowMs

/-- Record, index and log an account's revocation of one of its devices, under
the device.  A device already revoked stays as it was. -/
def setDeviceRevocation (directory : Directory Hash) (revocation : DeviceRevocation)
    (nowMs : Nat) : Directory Hash :=
  match directory.deviceRevocations.get revocation.device with
  | some _ => directory
  | none =>
    { directory with
        deviceRevocations := directory.deviceRevocations.insert revocation.device revocation
        deviceRevocationsByAccount :=
          directory.deviceRevocationsByAccount.orderedInsert indexOrder
            (revocation.account, revocation.device) }.appendLog
      sha256 (subject sha256 revocation.device) .revocation
      (revocation.transparencyLeaf sha256) nowMs

/-- Drop the revocation held for a device.  The log entry stays. -/
def removeDeviceRevocation (directory : Directory Hash) (device : UserId) : Directory Hash :=
  match directory.deviceRevocations.get device with
  | none => directory
  | some revocation =>
    { directory with
      deviceRevocations := directory.deviceRevocations.remove device
      deviceRevocationsByAccount :=
        directory.deviceRevocationsByAccount.filter fun key => key ≠ (revocation.account, device) }

def removeUser (directory : Directory Hash) (user : UserId) : Directory Hash :=
  { directory with
    bundles := directory.bundles.remove user
    devices :=
      if claimsAccount (directory.bundles.get user) then directory.devices - 1
      else directory.devices }

def step (directory : Directory Hash) : Operation → Directory Hash
  | .putBundle bundle nowMs => directory.putBundle sha256 bundle nowMs
  | .setRevocation revocation nowMs => directory.setRevocation sha256 revocation nowMs
  | .setSuccession succession nowMs => directory.setSuccession sha256 succession nowMs
  | .setDeviceRevocation revocation nowMs => directory.setDeviceRevocation sha256 revocation nowMs
  | .removeDeviceRevocation device => directory.removeDeviceRevocation device
  | .removeUser user => directory.removeUser user

def after (operations : List Operation) : Directory Hash :=
  operations.foldl (step sha256) empty

end Writing

section Reading

variable [DecidableEq Hash] (sha256 : Sha256 Hash)

def logLatestOf (directory : Directory Hash) (user : UserId) : Option (LogPosition Hash) :=
  (directory.logLatest.get (subject sha256 user)).map Latest.position

def logSince (directory : Directory Hash) (index limit : Nat) : List (LogEntry Hash) :=
  entriesSince directory.log index limit

def revokedBy (directory : Directory Hash) (account device : UserId) : Bool :=
  (directory.deviceRevocations.get device).any fun revocation => revocation.account = account

def deviceRevocationsBy (directory : Directory Hash) (account : UserId) : List DeviceRevocation :=
  (directory.deviceRevocationsByAccount.filter fun key => key.1 = account).filterMap
    fun key => directory.deviceRevocations.get key.2

def lifecycle (directory : Directory Hash) (user : UserId) :
    Option Revocation × Option Succession :=
  match directory.revocations.get user with
  | some revocation => (some revocation, none)
  | none => (none, directory.successions.get user)

end Reading

end Directory

/-- What a connection gets with its lookups: one-time prekeys, and the bundles of
linked devices. -/
structure Connection where
  prekeys : Bool
  devices : Bool
deriving DecidableEq

abbrev Handout : Type :=
  UserId → Option (Option OneTimePrekey × Option SignedPqPrekey)

def popOneTimePrekeys (handout : Handout) (bundle : KeyBundle) : KeyBundle :=
  match bundle.prekeys, handout bundle.userId with
  | some prekeys, some (oneTime, pqOneTime) =>
    { bundle with
      prekeys := some { prekeys with
        oneTime := oneTime.toList
        pqOneTime := pqOneTime.toList } }
  | _, _ => bundle

namespace Directory

variable [DecidableEq Hash] (sha256 : Sha256 Hash)

/-- The bundles of the linked devices to attach to a lookup of an account: every
listed device that is not revoked and whose bundle claims the account. -/
def deviceBundles (directory : Directory Hash) (handout : Handout) (account : UserId)
    (bundle : Option KeyBundle) : List KeyBundle :=
  match bundle with
  | none => []
  | some bundle =>
    (bundle.devices.filter fun certificate =>
        !directory.revokedBy account certificate.device).filterMap fun certificate =>
      (directory.bundles.get certificate.device).bind fun deviceBundle =>
        if deviceBundle.account = some account then
          some (popOneTimePrekeys handout deviceBundle)
        else none

def deviceRevocationsFor (directory : Directory Hash) (user : UserId) : List DeviceRevocation :=
  directory.deviceRevocationsBy user ++ (directory.deviceRevocations.get user).toList

/-- The answer to a lookup when every table is read at one instant. -/
def lookup (directory : Directory Hash) (connection : Connection) (handout : Handout)
    (user : UserId) : LookupResult Hash :=
  let stored := directory.bundles.get user
  let bundle := if connection.prekeys then stored.map (popOneTimePrekeys handout) else stored
  { userId := user
    bundle := bundle
    revocation := (directory.lifecycle user).1
    succession := (directory.lifecycle user).2
    head := some (directory.logHead sha256)
    logged := directory.logLatestOf sha256 user
    deviceBundles :=
      if connection.devices then directory.deviceBundles handout user bundle else []
    deviceRevocations := directory.deviceRevocationsFor user }

end Directory

end Silver.Relay
