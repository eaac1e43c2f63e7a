import Silver.Relay.Accounts.Defs

/-!
# What each request does

A request that goes through found nothing to refuse it for, and changed what it says.  The
tables of everybody else are left.
-/

namespace Silver.Relay.Accounts

open Foundation Protocol Call Directory RelayState Table

variable {bundle : KeyBundle}

section Refusing

variable {state after : RelayState Hash} {next : Call (RelayState Hash) Rejection}

theorem run_refuseIf_eq_ok : (refuseIf condition code text next).run state = .ok after ↔
      condition state = false ∧ next.run state = .ok after := by
  rw [refuseIf, run_check_eq_ok]
  cases condition state with
  | false | true => simp

theorem run_refuseRevokedDevice_eq_ok {user : UserId} :
    (refuseRevokedDevice user text next).run state = .ok after ↔
      state.isRevokedDevice user = false ∧ next.run state = .ok after := by
  rw [refuseRevokedDevice, run_read, isRevokedDevice]
  cases state.deviceAccount user with
  | none => simp
  | some => exact run_refuseIf_eq_ok

theorem run_refuseEach_eq_ok
    {devices : List DeviceCertificate} {condition : DeviceCertificate → RelayState Hash → Bool} :
    (devices.foldr (fun device next => refuseIf (condition device) code text next) next).run
        state = .ok after ↔
      (∀ device ∈ devices, condition device state = false) ∧ next.run state = .ok after := by
  induction devices with
  | nil => simp
  | cons device _ ih =>
    rw [List.foldr_cons, run_refuseIf_eq_ok, ih, List.forall_mem_cons, and_assoc]

end Refusing

variable [DecidableEq Hash] {state after : RelayState Hash}

/-- What a publish that goes through found, and what it changed. -/
structure Published (setting : Setting Hash) (state after : RelayState Hash) (me : UserId)
    (bundle : KeyBundle) (nowMs : Nat) : Prop where
  owner : bundle.userId = me
  unrevoked : state.isRevoked me = false
  claimStands : ∀ account, bundle.account = some account → state.revokedBy account me = false
  linked : state.isRevokedDevice me = false
  directory : after.directory =
    state.directory.putBundle setting.sha256 (withoutOneTime bundle) nowMs
  mailbox : after.mailbox = state.mailbox
  oneTime : ∀ user, user ≠ me → after.oneTime.get user = state.oneTime.get user
  pqOneTime : ∀ user, user ≠ me → after.pqOneTime.get user = state.pqOneTime.get user

theorem storePublished_eq_ok
    (answered : (storePublished setting me bundle nowMs).run state = .ok after) :
    after.directory = state.directory.putBundle setting.sha256 (withoutOneTime bundle) nowMs ∧
      after.mailbox = state.mailbox ∧
      (∀ user, user ≠ me → after.oneTime.get user = state.oneTime.get user) ∧
      ∀ user, user ≠ me → after.pqOneTime.get user = state.pqOneTime.get user := by
  unfold storePublished at answered
  rw [run_write] at answered
  cases prekeys : bundle.prekeys with
  | none =>
    rw [prekeys] at answered
    cases answered
    exact ⟨rfl, rfl, fun _ _ => rfl, fun _ _ => rfl⟩
  | some =>
    rw [prekeys] at answered
    cases answered
    exact ⟨rfl, rfl, fun _ other => get_insert_of_ne other, fun _ other => get_insert_of_ne other⟩

theorem admitPublished_eq_ok
    (answered : (admitPublished setting me bundle admission nowMs).run state = .ok after) :
    (storePublished setting me bundle nowMs).run state = .ok after := by
  unfold admitPublished at answered
  obtain ⟨-, admitted⟩ := run_check_eq_ok.mp answered
  split at admitted
  · cases admitted
  split at admitted
  · cases admitted
  · exact (run_refuseIf_eq_ok.mp admitted).2

theorem publish_eq_ok
    (answered : (publish setting me bundle admission nowMs).run state = .ok after) :
    Published setting state after me bundle nowMs := by
  unfold publish at answered
  split at answered
  · cases answered
  next own =>
    split at answered
    · cases answered
    rw [run_refuseIf_eq_ok, run_refuseIf_eq_ok, run_refuseRevokedDevice_eq_ok, run_refuseIf_eq_ok,
      run_refuseIf_eq_ok, checkListed, run_refuseEach_eq_ok, run_refuseEach_eq_ok] at answered
    obtain ⟨unrevoked, claim, linked, -, -, -, -, admitted⟩ := answered
    obtain ⟨directory, mailbox, oneTime, pqOneTime⟩ :=
      storePublished_eq_ok (admitPublished_eq_ok admitted)
    refine ⟨not_not.mp own, unrevoked, fun account claims => ?_, linked, directory, mailbox,
      oneTime, pqOneTime⟩
    rwa [claims] at claim

theorem applyRevocation_eq_ok {notice : Revocation}
    (answered : (applyRevocation setting notice allowed nowMs).run state = .ok after) :
    (state.bundle notice.identity).isSome = true ∧
      after = { state with
        directory := state.directory.setRevocation setting.sha256 notice nowMs } := by
  unfold applyRevocation at answered
  split at answered
  · cases answered
  split at answered
  · cases answered
  obtain ⟨known, written⟩ := run_refuseIf_eq_ok.mp answered
  exact ⟨by simpa using known, (Except.ok.inj written).symm⟩

theorem applySuccession_eq_ok
    (answered : (applySuccession setting succession allowed nowMs).run state = .ok after) :
    after = { state with
      directory := state.directory.setSuccession setting.sha256 succession nowMs } := by
  unfold applySuccession at answered
  split at answered
  · cases answered
  split at answered
  · cases answered
  rw [run_refuseIf_eq_ok, run_refuseIf_eq_ok, run_refuseIf_eq_ok] at answered
  exact (Except.ok.inj answered.2.2.2).symm

def RelayState.revokingDevice (setting : Setting Hash) (state : RelayState Hash)
    (revocation : DeviceRevocation) (nowMs : Nat) : RelayState Hash :=
  { state with directory := state.directory.setDeviceRevocation setting.sha256 revocation nowMs }

theorem applyDeviceRevocation_eq_ok {notice : DeviceRevocation}
    (answered : (applyDeviceRevocation setting me notice allowed nowMs).run state = .ok after) :
    notice.account = me ∧ (after = state.revokingDevice setting notice nowMs ∨
        (state.bundle notice.device).bind KeyBundle.account = some me ∧
          after = (state.revokingDevice setting notice nowMs).cutOff notice.device) := by
  unfold applyDeviceRevocation at answered
  split at answered
  · cases answered
  split at answered
  · cases answered
  next own =>
    split at answered
    · cases answered
    refine ⟨not_not.mp own, ?_⟩
    rw [run_read] at answered
    split at answered
    · cases answered
    rw [run_read] at answered
    dsimp only at answered
    split at answered
    · cases answered
    rw [run_write] at answered
    split at answered
    next first =>
      rw [Bool.and_eq_true, Option.any_eq_true] at first
      obtain ⟨⟨bundle, published, claims⟩, -⟩ := first
      refine .inr ⟨?_, (Except.ok.inj answered).symm⟩
      rw [published]
      exact of_decide_eq_true claims
    · exact .inl (Except.ok.inj answered).symm

section Tables

variable (sha256 : Sha256 Hash) (directory : Directory Hash)

theorem putBundle_tables (bundle : KeyBundle) (nowMs : Nat) :
    (directory.putBundle sha256 bundle nowMs).bundles =
        directory.bundles.insert bundle.userId bundle ∧
      (directory.putBundle sha256 bundle nowMs).revocations = directory.revocations ∧
      (directory.putBundle sha256 bundle nowMs).deviceRevocations =
        directory.deviceRevocations := by
  unfold putBundle logBundleIn
  dsimp only
  split
  · exact ⟨rfl, rfl, rfl⟩
  · exact ⟨rfl, rfl, rfl⟩

theorem setDeviceRevocation_tables (notice : DeviceRevocation) (nowMs : Nat) :
    (directory.setDeviceRevocation sha256 notice nowMs).bundles = directory.bundles ∧
      (directory.setDeviceRevocation sha256 notice nowMs).revocations = directory.revocations ∧
      ∀ device, (directory.setDeviceRevocation sha256 notice nowMs).deviceRevocations.get device =
        if device = notice.device then
          (directory.deviceRevocations.get device).or (some notice)
        else directory.deviceRevocations.get device := by
  unfold setDeviceRevocation
  split
  next found =>
    refine ⟨rfl, rfl, fun device => ?_⟩
    split
    next same =>
      rw [same, found]
      rfl
    · rfl
  next unheld =>
    refine ⟨rfl, rfl, fun device => ?_⟩
    show (directory.deviceRevocations.insert notice.device notice).get device = _
    rw [get_insert]
    split
    next same =>
      rw [same, unheld]
      rfl
    · rfl

omit [DecidableEq Hash] in
theorem removeDeviceRevocation_tables (device : UserId) :
    (directory.removeDeviceRevocation device).bundles = directory.bundles ∧
      (directory.removeDeviceRevocation device).revocations = directory.revocations ∧
      ∀ other, other ≠ device → (directory.removeDeviceRevocation device).deviceRevocations.get
        other = directory.deviceRevocations.get other := by
  unfold removeDeviceRevocation
  split
  · exact ⟨rfl, rfl, fun _ _ => rfl⟩
  · exact ⟨rfl, rfl, fun _ other => get_remove_of_ne other⟩

end Tables

section Steps

omit [DecidableEq Hash] in
theorem directory_route (envelope : Mailbox.Envelope) (nowMs : Nat) :
    ((route setting state envelope nowMs).elim state state.settle).directory = state.directory := by
  unfold route
  split
  · rfl
  cases state.mailbox.enqueue setting.encoded envelope nowMs setting.limits with
  | none => rfl
  | some answer =>
    obtain ⟨outcome, mailbox⟩ := answer
    cases outcome <;> rfl

/-- What a request does to the directory: nothing, or the one write it is for. -/
inductive Writes (setting : Setting Hash) (state after : RelayState Hash) : Operation → Prop where
  | nothing (operation : Operation) (same : after.directory = state.directory) :
      Writes setting state after operation
  | publish (me : UserId) (bundle : KeyBundle) (admission : Admission) (nowMs : Nat)
      (answered : (Accounts.publish setting me bundle admission nowMs).run state = .ok after) :
      Writes setting state after (.publish me bundle admission nowMs)
  | revoke (revocation : Revocation) (allowed : Bool) (nowMs : Nat)
      (known : (state.bundle revocation.identity).isSome = true)
      (wrote : after.directory = state.directory.setRevocation setting.sha256 revocation nowMs) :
      Writes setting state after (.applyRevocation revocation allowed nowMs)
  | revokeDevice (revocation : DeviceRevocation) (allowed : Bool) (nowMs : Nat)
      (wrote : after.directory =
        state.directory.setDeviceRevocation setting.sha256 revocation nowMs) :
      Writes setting state after
        (.applyDeviceRevocation revocation.account revocation allowed nowMs)
  | succeed (succession : Succession) (allowed : Bool) (nowMs : Nat)
      (wrote : after.directory = state.directory.setSuccession setting.sha256 succession nowMs) :
      Writes setting state after (.applySuccession succession allowed nowMs)
  | unrevoke (device : UserId)
      (wrote : after.directory = state.directory.removeDeviceRevocation device) :
      Writes setting state after (.unrevokeDevice device)
  | remove (user : UserId) (wrote : after.directory = state.directory.removeUser user) :
      Writes setting state after (.removeUser user)

variable (setting : Setting Hash) (state) (act : Operation)

theorem writes_step : Writes setting state (state.step setting act) act := by
  have settled : ∀ answer, (∀ after, answer = .ok after → Writes setting state after act) →
      Writes setting state (state.settle answer) act := by
    intro answer writes
    cases answer with
    | error => exact .nothing _ rfl
    | ok after => exact writes after rfl
  cases act with
  | publish me bundle admission nowMs =>
    exact settled _ fun after answered => .publish me bundle admission nowMs answered
  | applyRevocation notice allowed nowMs =>
    refine settled _ fun after answered => ?_
    obtain ⟨known, rfl⟩ := applyRevocation_eq_ok answered
    exact .revoke notice allowed nowMs known rfl
  | applyDeviceRevocation me notice allowed nowMs =>
    refine settled _ fun after answered => ?_
    obtain ⟨rfl, rfl | ⟨-, rfl⟩⟩ := applyDeviceRevocation_eq_ok answered
    · exact .revokeDevice notice allowed nowMs rfl
    · exact .revokeDevice notice allowed nowMs rfl
  | applySuccession succession allowed nowMs =>
    refine settled _ fun after answered => ?_
    obtain rfl := applySuccession_eq_ok answered
    exact .succeed succession allowed nowMs rfl
  | unrevokeDevice device => exact .unrevoke device rfl
  | removeUser user => exact .remove user rfl
  | popOneTimePrekeys user | ack user | expire => exact .nothing _ rfl
  | route envelope nowMs => exact .nothing _ (directory_route envelope nowMs)

theorem bundle_step (user : UserId) :
    (state.step setting act).bundle user = state.bundle user ∨
      act = .removeUser user ∧ (state.step setting act).bundle user = none ∨
      ∃ bundle admission nowMs, act = .publish user bundle admission nowMs ∧
        (publish setting user bundle admission nowMs).run state = .ok (state.step setting act) ∧
        (state.step setting act).bundle user = some (withoutOneTime bundle) := by
  have writes := writes_step state setting act
  generalize state.step setting act = after at writes ⊢
  cases writes with
  | nothing act same => exact .inl (congrArg (fun d => d.bundles.get user) same)
  | publish me bundle admission nowMs answered =>
    have published := publish_eq_ok answered
    have stored : after.bundle user =
        (state.directory.bundles.insert bundle.userId (withoutOneTime bundle)).get user := by
      unfold RelayState.bundle
      rw [published.directory, (putBundle_tables _ _ _ _).1]
      rfl
    rw [get_insert, published.owner] at stored
    by_cases own : user = me
    · subst own
      rw [if_pos rfl] at stored
      exact .inr (.inr ⟨bundle, admission, nowMs, rfl, answered, stored⟩)
    rw [if_neg own] at stored
    exact .inl stored
  | revoke notice allowed nowMs _ wrote | succeed _ allowed nowMs wrote =>
    exact .inl (congrArg (fun d => d.bundles.get user) wrote)
  | revokeDevice notice allowed nowMs wrote =>
    left
    unfold bundle
    rw [wrote, (setDeviceRevocation_tables _ _ _ _).1]
  | unrevoke _ wrote =>
    left
    unfold bundle
    rw [wrote, (removeDeviceRevocation_tables _ _).1]
  | remove other wrote =>
    by_cases same : user = other
    · subst same
      have gone := congrArg (fun d => d.bundles.get user) wrote
      exact .inr (.inl ⟨rfl, gone.trans (get_remove_self _ _)⟩)
    left
    have kept : (state.directory.bundles.remove other).get user =
        state.directory.bundles.get user := get_remove_of_ne same
    exact (congrArg (fun d => d.bundles.get user) wrote).trans kept

theorem deviceRevocation_step (device : UserId) :
    (state.step setting act).directory.deviceRevocations.get device =
        state.directory.deviceRevocations.get device ∨
      act = .unrevokeDevice device ∨
      state.directory.deviceRevocations.get device = none ∧ ∃ notice allowed nowMs,
          act = .applyDeviceRevocation notice.account notice allowed nowMs ∧
          notice.device = device ∧
          (state.step setting act).directory.deviceRevocations.get device =
            some notice := by
  have writes := writes_step state setting act
  generalize state.step setting act = after at writes ⊢
  cases writes with
  | nothing act same => exact .inl (congrArg (fun d => d.deviceRevocations.get device) same)
  | publish _ _ _ nowMs answered =>
    left
    rw [(publish_eq_ok answered).directory, (putBundle_tables _ _ _ _).2.2]
  | revoke notice allowed nowMs known wrote | succeed succession allowed nowMs wrote
  | remove _ wrote => exact .inl (congrArg (fun d => d.deviceRevocations.get device) wrote)
  | revokeDevice notice allowed nowMs wrote =>
    have held := (setDeviceRevocation_tables setting.sha256 state.directory notice nowMs).2.2 device
    rw [← wrote] at held
    by_cases same : device = notice.device
    · subst same
      rw [if_pos rfl] at held
      cases before : state.directory.deviceRevocations.get notice.device with
      | some =>
        rw [before, Option.some_or] at held
        exact .inl held
      | none =>
        rw [before, Option.none_or] at held
        exact .inr (.inr ⟨rfl, notice, allowed, nowMs, rfl, rfl, held⟩)
    rw [if_neg same] at held
    exact .inl held
  | unrevoke other wrote =>
    by_cases same : device = other
    · subst same
      exact .inr (.inl rfl)
    left
    rw [wrote, (removeDeviceRevocation_tables _ _).2.2 device same]

end Steps

end Silver.Relay.Accounts
