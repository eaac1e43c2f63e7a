import Silver.Foundation.Calls
import Silver.Relay.Deposit
import Silver.Relay.Directory.Defs
import Silver.Relay.Mailbox.Defs

/-!
# Accounts and their devices at the relay

What the relay does with bundles and with the statements that end identities and devices.
Every handler is a call made of store transactions.  Whether signatures hold and what the
relay's rate limits and policy say are parameters.
-/

namespace Silver.Relay.Accounts

open Foundation Protocol

abbrev Rejection : Type :=
  ErrorCode × String

/-- A key package as deposited. -/
structure KeyPackageDeposit where
  ref : Bytes 32
  expiresAtMs : Nat
  data : List UInt8
deriving DecidableEq

/-- A user's key packages: those in the queue, those handed out, and the last resort. -/
structure KeyPackages where
  queue : List KeyPackageDeposit
  used : List (Bytes 32)
  lastResort : Option KeyPackageDeposit
deriving DecidableEq

/-- What the relay's store holds of identities. -/
structure RelayState (Hash : Type) where
  directory : Directory Hash
  mailbox : Mailbox.Store
  oneTime : Table UserId (Deposit OneTimePrekey)
  pqOneTime : Table UserId (Deposit SignedPqPrekey)
  keyPackages : Table UserId KeyPackages

/-- What is outside the store: hashing, signatures, the check of a bundle, the length an
envelope is stored in and the limits on mailboxes. -/
structure Setting (Hash : Type) where
  sha256 : Sha256 Hash
  signatures : Signatures
  verifies : KeyBundle → Bool
  encoded : Mailbox.Envelope → Nat
  limits : Mailbox.Limits

/-- What invites, room, registrations and log entries are left for a publish. -/
structure Admission where
  invited : Bool
  room : Bool
  registration : Bool
  logEntry : Bool
deriving DecidableEq

def MAX_ONE_TIME_PREKEYS : Nat := 200

def MAX_PQ_ONE_TIME_PREKEYS : Nat := 50

def MAX_CIPHERTEXT_BYTES : Nat := 32 * 1024 + 96 + 16 + 1024

namespace RelayState

def empty : RelayState Hash :=
  ⟨Directory.empty, Mailbox.Store.empty, Table.empty, Table.empty, Table.empty⟩

def bundle (state : RelayState Hash) (user : UserId) : Option KeyBundle :=
  state.directory.bundles.get user

def isRevoked (state : RelayState Hash) (user : UserId) : Bool :=
  (state.directory.revocations.get user).isSome

def deviceAccount (state : RelayState Hash) (user : UserId) : Option UserId :=
  (state.bundle user).bind KeyBundle.account

def revokedBy (state : RelayState Hash) (account device : UserId) : Bool :=
  state.directory.revokedBy account device

def isRevokedDevice (state : RelayState Hash) (user : UserId) : Bool :=
  match state.deviceAccount user with
  | some account => state.revokedBy account user
  | none => false

def loginRefusal (state : RelayState Hash) (user : UserId) : Option String :=
  if state.isRevoked user then some "this identity has been revoked"
  else if state.isRevokedDevice user then some "this device has been revoked by its account"
  else
    (state.deviceAccount user).bind fun account =>
      if state.isRevoked account then some "this device's account has been revoked" else none

def routeRefusal (state : RelayState Hash) (envelope : Mailbox.Envelope) : Option Rejection :=
  if MAX_CIPHERTEXT_BYTES < envelope.ciphertext.length then
    some (.tooLarge, "ciphertext too large")
  else if state.isRevokedDevice envelope.recipient then
    some (.notFound, "the recipient device has been revoked by its account")
  else if (state.bundle envelope.recipient).isNone then
    some (.notFound, "no such recipient on this relay")
  else none

def deviceBundles (state : RelayState Hash) (handout : Handout) (account : UserId) :
    List KeyBundle :=
  state.directory.deviceBundles handout account (state.bundle account)

def cutOff (state : RelayState Hash) (user : UserId) : RelayState Hash :=
  { state with
    mailbox := state.mailbox.removeUserData user
    oneTime := state.oneTime.remove user
    pqOneTime := state.pqOneTime.remove user
    keyPackages := state.keyPackages.remove user }

def removeUser (state : RelayState Hash) (user : UserId) : RelayState Hash :=
  { state.cutOff user with directory := state.directory.removeUser user }

def unrevokeDevice (state : RelayState Hash) (device : UserId) : RelayState Hash :=
  { state with directory := state.directory.removeDeviceRevocation device }

def popOneTimePrekeys (state : RelayState Hash) (user : UserId) : RelayState Hash :=
  { state with
    oneTime := state.oneTime.insert user (depositOf state.oneTime user).take.2
    pqOneTime := state.pqOneTime.insert user (depositOf state.pqOneTime user).take.2 }

def setOneTimePrekeys (state : RelayState Hash) (user : UserId) (keys : List OneTimePrekey) :
    RelayState Hash :=
  { state with
    oneTime := state.oneTime.insert user
      ((depositOf state.oneTime user).replace (keys.map fun key => (key.id, key))) }

def setPqOneTimePrekeys (state : RelayState Hash) (user : UserId) (keys : List SignedPqPrekey) :
    RelayState Hash :=
  { state with
    pqOneTime := state.pqOneTime.insert user
      ((depositOf state.pqOneTime user).replace (keys.map fun key => (key.id, key))) }

end RelayState

def withoutOneTime (bundle : KeyBundle) : KeyBundle :=
  { bundle with
    prekeys := bundle.prekeys.map fun prekeys => { prekeys with oneTime := [], pqOneTime := [] } }

section Handlers

def refuseIf (condition : RelayState Hash → Bool) (code : ErrorCode) (text : String)
    (next : Call (RelayState Hash) Rejection) : Call (RelayState Hash) Rejection :=
  .check (fun state => if condition state then some (code, text) else none) next

def refuseRevokedDevice (user : UserId) (text : String)
    (next : Call (RelayState Hash) Rejection) : Call (RelayState Hash) Rejection :=
  .read fun state =>
    match state.deviceAccount user with
    | some account => refuseIf (fun state => state.revokedBy account user) .forbidden text next
    | none => next

variable [DecidableEq Hash] (setting : Setting Hash)

/-- The writes of a publish: the bundle with its log entry, then the prekeys of each
kind. -/
def storePublished (me : UserId) (bundle : KeyBundle) (nowMs : Nat) :
    Call (RelayState Hash) Rejection :=
  .write (fun state =>
      { state with
        directory := state.directory.putBundle setting.sha256 (withoutOneTime bundle) nowMs })
    fun _ =>
      match bundle.prekeys with
      | none => .done
      | some prekeys =>
        .write (fun state => state.setOneTimePrekeys me prekeys.oneTime) fun _ =>
          .write (fun state => state.setPqOneTimePrekeys me prekeys.pqOneTime) fun _ => .done

def Admission.refusal (admission : Admission) : Option Rejection :=
  if !admission.invited then
    some (.inviteRequired, "this relay requires an invite token to register a new identity")
  else if !admission.room then some (.forbidden, "this relay has all the identities it takes")
  else if !admission.registration then
    some (.rateLimited, "too many new identities from this address; try again later")
  else none

/-- The checks of a publish that depend on how much a relay takes, and the writes. -/
def admitPublished (me : UserId) (bundle : KeyBundle) (admission : Admission) (nowMs : Nat) :
    Call (RelayState Hash) Rejection :=
  .check (fun state => if (state.bundle me).isNone then admission.refusal else none) <|
  if bundle.prekeys.any fun prekeys => MAX_ONE_TIME_PREKEYS < prekeys.oneTime.length then
    .fail (.tooLarge, "too many one-time prekeys")
  else if bundle.prekeys.any fun prekeys => MAX_PQ_ONE_TIME_PREKEYS < prekeys.pqOneTime.length then
    .fail (.tooLarge, "too many one-time ML-KEM prekeys")
  else
    refuseIf (fun state =>
        ((state.directory.logLatest.get (subject setting.sha256 me)).bind Latest.bundleLeaf ≠
          some ((withoutOneTime bundle).transparencyLeaf setting.sha256)) && !admission.logEntry)
      .rateLimited
      "too many key changes this hour; the transparency log keeps every one for good" <|
    storePublished setting me bundle nowMs

/-- The checks of the list of devices in a published bundle. -/
def checkListed (me : UserId) (devices : List DeviceCertificate)
    (next : Call (RelayState Hash) Rejection) : Call (RelayState Hash) Rejection :=
  devices.foldr
    (fun device next => refuseIf (fun state => state.revokedBy me device.device) .forbidden
      "the device list names a device that has been revoked" next) <|
  devices.foldr
    (fun device next => refuseIf
      (fun state => (state.deviceAccount device.device).any fun account => account ≠ me) .forbidden
      "the device list names another account's device" next)
    next

/-- Store a bundle. -/
def publish (me : UserId) (bundle : KeyBundle) (admission : Admission) (nowMs : Nat) :
    Call (RelayState Hash) Rejection :=
  if bundle.userId ≠ me then
    .fail (.forbidden, "bundle user_id does not match authenticated user")
  else if !setting.verifies bundle then
    .fail (.badSignature, "bundle signature is invalid")
  else
    refuseIf (fun state => state.isRevoked me) .forbidden "this identity has been revoked" <|
    refuseIf (fun state => bundle.account.any fun account => state.revokedBy account me) .forbidden
      "this device has been revoked by its account" <|
    refuseRevokedDevice me "this device has been revoked by its account" <|
    refuseIf (fun state => bundle.account.any fun account => (state.bundle account).isNone)
      .forbidden "the account this device claims is not on this relay" <|
    refuseIf (fun state => bundle.account.any fun account => state.isRevoked account)
      .forbidden "the account this device claims has been revoked" <|
    checkListed me bundle.devices <|
    admitPublished setting me bundle admission nowMs

/-- Store a self-signed revocation. -/
def applyRevocation (revocation : Revocation) (allowed : Bool) (nowMs : Nat) :
    Call (RelayState Hash) Rejection :=
  if !allowed then
    .fail (.rateLimited, "this address has made its share of identity changes for the hour")
  else if !revocation.verify setting.signatures then
    .fail (.badSignature, "revocation signature is invalid")
  else
    refuseIf (fun state => (state.bundle revocation.identity).isNone) .forbidden
      "no such identity on this relay" <|
    .write (fun state =>
        { state with directory := state.directory.setRevocation setting.sha256 revocation nowMs })
      fun _ => .done

/-- Store an account's revocation of one of its devices, and cut the device off where its
bundle claims the account and the statement is the first. -/
def applyDeviceRevocation (me : UserId) (revocation : DeviceRevocation) (allowed : Bool)
    (nowMs : Nat) : Call (RelayState Hash) Rejection :=
  if !allowed then
    .fail (.rateLimited, "this address has made its share of identity changes for the hour")
  else if revocation.account ≠ me then
    .fail (.forbidden, "a device is revoked by its own account")
  else if !revocation.verify setting.signatures then
    .fail (.badSignature, "device revocation signature is invalid")
  else
    .read fun state =>
      match state.bundle me with
      | none => .fail (.forbidden, "publish a bundle first")
      | some mine =>
        let listed := mine.devices.any fun device => device.device = revocation.device
        .read fun state =>
          let published := state.bundle revocation.device
          let claimsMe := published.any fun bundle => bundle.account = some me
          if !claimsMe && !(listed && published.isNone) then
            .fail (.forbidden, "that is not a device of this account on this relay")
          else
            .write (fun state =>
                { state with
                  directory :=
                    state.directory.setDeviceRevocation setting.sha256 revocation nowMs })
              fun before =>
                if claimsMe &&
                    (before.directory.deviceRevocations.get revocation.device).isNone then
                  .write (fun state => state.cutOff revocation.device) fun _ => .done
                else .done

/-- Store a cross-signed succession. -/
def applySuccession (succession : Succession) (allowed : Bool) (nowMs : Nat) :
    Call (RelayState Hash) Rejection :=
  if !allowed then
    .fail (.rateLimited, "this address has made its share of identity changes for the hour")
  else if !succession.verify setting.signatures then
    .fail (.badSignature, "succession signature is invalid")
  else
    refuseIf (fun state => (state.bundle succession.old).isNone) .forbidden
      "no such identity on this relay" <|
    refuseIf (fun state => state.isRevoked succession.old) .forbidden
      "that identity has been revoked and cannot hand over" <|
    refuseIf (fun state => state.isRevoked succession.new) .forbidden
      "the successor has been revoked" <|
    .write (fun state =>
        { state with directory := state.directory.setSuccession setting.sha256 succession nowMs })
      fun _ => .done

/-- Queue an envelope for its recipient; none where a counter does not fit. -/
def route (state : RelayState Hash) (envelope : Mailbox.Envelope) (nowMs : Nat) :
    Option (Except Rejection (RelayState Hash)) :=
  match state.routeRefusal envelope with
  | some refusal => some (.error refusal)
  | none =>
    (state.mailbox.enqueue setting.encoded envelope nowMs setting.limits).map
      fun (outcome, mailbox) =>
        match outcome with
        | .stored => .ok { state with mailbox }
        | .duplicate => .ok state
        | .mailboxFull => .error (.mailboxFull, "recipient mailbox is full")
        | .storageFull =>
          .error (.storageFull, "this relay is holding as much queued mail as it will")

end Handlers

/-- What the relay is asked to do, one after another. -/
inductive Operation where
  | publish (me : UserId) (bundle : KeyBundle) (admission : Admission) (nowMs : Nat)
  | applyRevocation (revocation : Revocation) (allowed : Bool) (nowMs : Nat)
  | applyDeviceRevocation (me : UserId) (revocation : DeviceRevocation) (allowed : Bool)
      (nowMs : Nat)
  | applySuccession (succession : Succession) (allowed : Bool) (nowMs : Nat)
  | unrevokeDevice (device : UserId)
  | removeUser (user : UserId)
  | popOneTimePrekeys (user : UserId)
  | route (envelope : Mailbox.Envelope) (nowMs : Nat)
  | ack (user : UserId) (id : String)
  | expire (cutoffMs : Nat)
deriving DecidableEq

section Steps

variable [DecidableEq Hash] (setting : Setting Hash)

def RelayState.settle (state : RelayState Hash) :
    Except Rejection (RelayState Hash) → RelayState Hash
  | .ok after => after
  | .error _ => state

/-- One request, made without interruption. -/
def RelayState.step (state : RelayState Hash) : Operation → RelayState Hash
  | .publish me bundle admission nowMs =>
    state.settle ((Accounts.publish setting me bundle admission nowMs).run state)
  | .applyRevocation revocation allowed nowMs =>
    state.settle ((Accounts.applyRevocation setting revocation allowed nowMs).run state)
  | .applyDeviceRevocation me revocation allowed nowMs =>
    state.settle ((Accounts.applyDeviceRevocation setting me revocation allowed nowMs).run state)
  | .applySuccession succession allowed nowMs =>
    state.settle ((Accounts.applySuccession setting succession allowed nowMs).run state)
  | .unrevokeDevice device => state.unrevokeDevice device
  | .removeUser user => state.removeUser user
  | .popOneTimePrekeys user => state.popOneTimePrekeys user
  | .route envelope nowMs => (Accounts.route setting state envelope nowMs).elim state state.settle
  | .ack user id => { state with mailbox := (state.mailbox.ack user id).2 }
  | .expire cutoffMs => { state with mailbox := state.mailbox.expire cutoffMs }

def RelayState.next (state : RelayState Hash) (operation : Operation) : Option (RelayState Hash) :=
  some (state.step setting operation)

end Steps

end Silver.Relay.Accounts
