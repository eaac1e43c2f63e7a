import Silver.Relay.Accounts.Spec

/-!
# An account revokes its device

The relay holds one statement for a device, the first.  Where that is the account's, the
device is refused from then on, until the operator drops the statement.  Where another
account's was lodged first, the account's own is answered and not held.
-/

namespace Silver.Relay.Accounts

open Foundation Protocol RelayState

section Revoking

variable [DecidableEq Hash] {setting : Setting Hash} {state after : RelayState Hash}

def RelayState.Filed (state : RelayState Hash) : Prop :=
  ∀ user bundle, state.bundle user = some bundle → bundle.userId = user

theorem RelayState.Filed.step (filed : state.Filed) (act : Operation) :
    (state.step setting act).Filed := by
  intro user bundle stored
  rcases bundle_step state setting act user with
    same | ⟨-, gone⟩ | ⟨_, _, _, -, answered, now⟩
  · exact filed user bundle (same ▸ stored)
  · cases gone.symm.trans stored
  cases now.symm.trans stored
  exact (publish_eq_ok answered).owner

/-- A device is cut off: its bundle claims an account whose revocation of it is held. -/
structure RelayState.Cut (state : RelayState Hash) (account device : UserId) : Prop where
  claims : state.deviceAccount device = some account
  revoked : state.revokedBy account device = true

namespace RelayState.Cut

omit [DecidableEq Hash] in
theorem isRevokedDevice (cut : state.Cut account device) : state.isRevokedDevice device = true := by
  rw [RelayState.isRevokedDevice, cut.claims]
  exact cut.revoked

theorem step (cut : state.Cut account device)
    (kept : act ≠ .unrevokeDevice device) (stays : act ≠ .removeUser device) :
    (state.step setting act).Cut account device where
  claims := by
    rcases bundle_step state setting act device with
      same | ⟨removed, -⟩ | ⟨_, _, _, -, answered, -⟩
    · rw [deviceAccount, same]
      exact cut.claims
    · exact absurd removed stays
    · exact absurd (cut.isRevokedDevice.symm.trans (publish_eq_ok answered).linked) (by simp)
  revoked := by
    have held := cut.revoked
    unfold revokedBy Directory.revokedBy at held ⊢
    rcases deviceRevocation_step state setting act device with
      same | dropped | ⟨unheld, -⟩
    · rwa [same]
    · exact absurd dropped kept
    rw [unheld] at held
    cases held

omit [DecidableEq Hash] in
theorem loginRefusal (cut : state.Cut account device) :
    (state.loginRefusal device).isSome = true := by
  unfold RelayState.loginRefusal
  split
  · rfl
  rw [cut.isRevokedDevice]
  rfl

theorem publish_refused
    (cut : state.Cut account device) (bundle : KeyBundle) (admission : Admission) (nowMs : Nat) :
    ∃ why, (publish setting device bundle admission nowMs).run state = .error why := by
  cases answer : (publish setting device bundle admission nowMs).run state with
  | error why => exact ⟨why, rfl⟩
  | ok => exact absurd (cut.isRevokedDevice.symm.trans (publish_eq_ok answer).linked) (by simp)

omit [DecidableEq Hash] in
theorem unserved (cut : state.Cut account device) (filed : state.Filed) (handout : Handout) :
    ∀ served ∈ state.deviceBundles handout account, served.userId ≠ device := by
  intro served mem
  unfold deviceBundles Directory.deviceBundles at mem
  split at mem
  · cases mem
  obtain ⟨certificate, listed, found⟩ := List.mem_filterMap.mp mem
  obtain ⟨stored, there, picked⟩ := Option.bind_eq_some_iff.mp found
  have unrevoked := (List.mem_filter.mp listed).2
  split at picked
  · cases picked
    have owner : (Relay.popOneTimePrekeys handout stored).userId = certificate.device := by
      rw [← filed certificate.device stored there]
      unfold Relay.popOneTimePrekeys
      split <;> rfl
    rw [owner]
    rintro rfl
    rw [Bool.not_eq_true', show state.directory.revokedBy account certificate.device = true from
      cut.revoked] at unrevoked
    cases unrevoked
  · cases picked

end RelayState.Cut

theorem cut_of_answered {account : UserId} {notice : DeviceRevocation}
    (claims : state.deviceAccount notice.device = some account)
    (answered : (applyDeviceRevocation setting account notice allowed nowMs).run state =
      .ok after)
    (unheld : ∀ held, state.directory.deviceRevocations.get notice.device = some held →
      held.account = account) :
    after.Cut account notice.device := by
  obtain ⟨own, wrote⟩ := applyDeviceRevocation_eq_ok answered
  have directory : after.directory =
      state.directory.setDeviceRevocation setting.sha256 notice nowMs := by
    rcases wrote with rfl | ⟨-, rfl⟩ <;> rfl
  obtain ⟨bundles, -, statements⟩ :=
    setDeviceRevocation_tables setting.sha256 state.directory notice nowMs
  constructor
  · unfold deviceAccount bundle at claims ⊢
    rwa [directory, bundles]
  unfold revokedBy Directory.revokedBy
  rw [directory, statements, if_pos rfl]
  cases held : state.directory.deviceRevocations.get notice.device with
  | none => simpa using own
  | some earlier => simpa using unheld earlier held

/-- From a revocation of a device by the account its bundle claims, answered while no other
account's statement about the device was held, the device may not log in or publish and is
not served among the account's devices, until the operator drops the statement or removes
the device. -/
theorem revoked_device_refused {before later : List Operation} {final : RelayState Hash}
    {account : UserId} {revocation : DeviceRevocation} {allowed : Bool} {nowMs : Nat}
    (reached : run (RelayState.next setting) RelayState.empty before = some state)
    (claims : state.deviceAccount revocation.device = some account)
    (answered : (applyDeviceRevocation setting account revocation allowed nowMs).run state =
      .ok after)
    (unheld : ∀ held, state.directory.deviceRevocations.get revocation.device = some held →
      held.account = account)
    (undisturbed : ∀ operation ∈ later, operation ≠ .unrevokeDevice revocation.device ∧
      operation ≠ .removeUser revocation.device)
    (ended : run (RelayState.next setting) after later = some final) :
    (final.loginRefusal revocation.device).isSome = true ∧ (∀ bundle admission nowMs, ∃ why,
        (publish setting revocation.device bundle admission nowMs).run final = .error why) ∧
      ∀ handout, ∀ served ∈ final.deviceBundles handout account,
        served.userId ≠ revocation.device := by
  have filedNext : ∀ operation state next, RelayState.Filed state →
      RelayState.next setting state operation = some next → RelayState.Filed next := by
    intro operation state next filed stepped
    cases stepped
    exact filed.step operation
  have filed : state.Filed := run_keeps (fun _ _ found => nomatch found) filedNext reached
  have filedAfter : after.Filed := by
    have settled : state.step setting (.applyDeviceRevocation account revocation allowed nowMs) =
        after := by
      show state.settle _ = after
      rw [answered]
      rfl
    rw [← settled]
    exact filed.step _
  have preserve : ∀ operation state next,
      RelayState.Filed state ∧ state.Cut account revocation.device →
      operation ≠ .unrevokeDevice revocation.device ∧ operation ≠ .removeUser revocation.device →
      RelayState.next setting state operation = some next →
      RelayState.Filed next ∧ next.Cut account revocation.device := by
    rintro operation state next ⟨filed, cut⟩ ⟨kept, stays⟩ stepped
    cases stepped
    exact ⟨filed.step operation, cut.step kept stays⟩
  obtain ⟨filedFinal, cut⟩ := EachState.run_keeps (EachState.of_forall undisturbed after)
    ⟨filedAfter, cut_of_answered claims answered unheld⟩ preserve ended
  exact ⟨cut.loginRefusal, cut.publish_refused, cut.unserved filedFinal⟩

end Revoking

namespace Example

def alice : UserId := Bytes.fill 32 1

def phone : UserId := Bytes.fill 32 2

def mallory : UserId := Bytes.fill 32 3

def setting : Setting (List UInt8) :=
  ⟨Sha256.plain, ⟨fun _ _ _ _ => true⟩, fun _ => true, fun _ => 100, Mailbox.Limits.default⟩

def welcome : Admission :=
  ⟨true, true, true, true⟩

def certificate (account : UserId) : DeviceCertificate :=
  ⟨account, phone, 3, "phone", Bytes.fill 64 0,
    if account = alice then some (Bytes.fill 64 0) else none⟩

def bundleOf (owner : UserId) (devices : List DeviceCertificate)
    (deviceOf : Option DeviceCertificate) : KeyBundle :=
  ⟨owner, Bytes.fill 32 0, Bytes.fill 64 0, none, [], none, devices, none, deviceOf⟩

def linking : List Operation :=
  [.publish alice (bundleOf alice [certificate alice] none) welcome 10,
    .publish phone (bundleOf phone [] (some (certificate alice))) welcome 11]

def lodging : List Operation :=
  [.publish mallory (bundleOf mallory [certificate mallory] none) welcome 5,
    .applyDeviceRevocation mallory ⟨mallory, phone, 6, Bytes.fill 64 0⟩ true 6]

def revocation : DeviceRevocation :=
  ⟨alice, phone, 12, Bytes.fill 64 0⟩

end Example

theorem revoked_phone_refused :
    ((run (RelayState.next Example.setting) RelayState.empty Example.linking).any fun state =>
      match (applyDeviceRevocation Example.setting Example.alice Example.revocation true 12).run
        state with
      | .ok after => after.loginRefusal Example.phone =
          some "this device has been revoked by its account"
      | .error _ => false) = true ∧
    ∀ state after final,
      run (RelayState.next Example.setting) RelayState.empty Example.linking = some state →
      (applyDeviceRevocation Example.setting Example.alice Example.revocation true 12).run state =
        .ok after →
      run (RelayState.next Example.setting) after Example.lodging = some final →
      (final.loginRefusal Example.phone).isSome = true := by
  refine ⟨by decide +kernel, fun state after final reached answered ended => ?_⟩
  have known : state = ((run (next Example.setting) empty
      Example.linking).getD empty) := by rw [reached]; rfl
  have claims : state.deviceAccount Example.phone = some Example.alice := by
    rw [known]
    decide +kernel
  have unheld : state.directory.deviceRevocations.get Example.phone = none := by
    rw [known]
    decide +kernel
  refine (revoked_device_refused reached claims answered (fun held found => ?_) (by decide)
    ended).1
  cases unheld.symm.trans found

/-- Where a stranger's statement about a device was lodged first, the account's own is answered
and the device may still log in and publish, and is served among the account's devices. -/
theorem revocation_of_a_lodged_device : ((run (RelayState.next Example.setting) RelayState.empty
        (Example.lodging ++ Example.linking)).any fun state =>
      state.deviceAccount Example.phone = some Example.alice &&
      match (applyDeviceRevocation Example.setting Example.alice Example.revocation true 12).run
        state with
      | .ok after => after.loginRefusal Example.phone = none &&
          (after.deviceBundles (fun _ => none) Example.alice).any fun served =>
            served.userId = Example.phone
      | .error _ => false) = true := by
  decide +kernel

end Silver.Relay.Accounts
