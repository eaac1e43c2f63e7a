import Silver.Relay.Accounts.Revoking
import Silver.Relay.Mailbox.Accounting

/-!
# Strangers cut nobody off

A statement binds an identity where the identity's own bundle claims the account that made
it.  The statements of an account that an identity never claimed leave what the relay keeps
for the identity and have no bearing on whether it may log in or get mail, whenever they
were made.
-/

namespace Silver.Relay.Accounts

open Foundation Protocol EachState RelayState Table

section Strangers

variable [DecidableEq Hash] {setting : Setting Hash} {state after : RelayState Hash}
  {stranger user : UserId}

def claims (setting : Setting Hash) (user account : UserId) (state : RelayState Hash) :
    Operation -> Bool
  | .publish me bundle admission nowMs =>
    me = user && bundle.account = some account &&
      match (publish setting me bundle admission nowMs).run state with
      | .ok _ => true
      | .error _ => false
  | _ => false

def signedBy (identity : UserId) : Operation -> Bool
  | .applyRevocation revocation _ _ => revocation.identity = identity
  | .applyDeviceRevocation _ revocation _ _ => revocation.account = identity
  | .applySuccession succession _ _ => succession.old = identity || succession.new = identity
  | _ => false

/-- The relay without the statements an identity has made. -/
def RelayState.forget (state : RelayState Hash) (identity : UserId) : RelayState Hash :=
  { state with
    directory :=
      { state.directory with
        revocations := state.directory.revocations.remove identity
        successions := state.directory.successions.filter fun succession =>
          succession.old ≠ identity ∧ succession.new ≠ identity
        deviceRevocations := state.directory.deviceRevocations.filter fun revocation =>
          revocation.account ≠ identity } }

/-- What the relay keeps for a user, whether it lets them log in and whether it takes mail for
them are as they were, and there is no less room for that mail. -/
structure Untouched (user : UserId) (state after : RelayState Hash) : Prop where
  login : after.loginRefusal user = state.loginRefusal user
  bundle : after.bundle user = state.bundle user
  oneTime : depositOf after.oneTime user = depositOf state.oneTime user
  pqOneTime : depositOf after.pqOneTime user = depositOf state.pqOneTime user
  mail : (after.mailbox.mailbox.filter fun row => row.owner = user) =
    state.mailbox.mailbox.filter fun row => row.owner = user
  route : ∀ envelope, envelope.recipient = user ->
    after.routeRefusal envelope = state.routeRefusal envelope
  used : after.mailbox.used user = state.mailbox.used user
  room : after.mailbox.mailboxBytes <= state.mailbox.mailboxBytes

omit [DecidableEq Hash] in
theorem refusals_congr (bundle : after.bundle user = state.bundle user)
    (own : after.isRevoked user = state.isRevoked user)
    (account : ∀ account, state.deviceAccount user = some account ->
      after.revokedBy account user = state.revokedBy account user ∧
        after.isRevoked account = state.isRevoked account) :
    after.loginRefusal user = state.loginRefusal user ∧ ∀ envelope, envelope.recipient = user ->
        after.routeRefusal envelope = state.routeRefusal envelope := by
  have claimed : after.deviceAccount user = state.deviceAccount user := by
    unfold deviceAccount
    rw [bundle]
  have device : after.isRevokedDevice user = state.isRevokedDevice user := by
    unfold isRevokedDevice
    rw [claimed]
    cases found : state.deviceAccount user with
    | none => rfl
    | some claimed => exact (account claimed found).1
  constructor
  · unfold loginRefusal
    rw [own, device, claimed]
    cases found : state.deviceAccount user with
    | none => rfl
    | some claimed => rw [Option.bind_some, Option.bind_some, (account claimed found).2]
  rintro envelope rfl
  unfold routeRefusal
  rw [device, bundle]

namespace Untouched

omit [DecidableEq Hash] in
theorem refl (user : UserId) (state : RelayState Hash) : Untouched user state state :=
  ⟨rfl, rfl, rfl, rfl, rfl, fun _ _ => rfl, rfl, .refl⟩

omit [DecidableEq Hash] in
theorem trans (first : Untouched user state after) (second : Untouched user after last) :
    Untouched user state last where
  login := second.login.trans first.login
  bundle := second.bundle.trans first.bundle
  oneTime := second.oneTime.trans first.oneTime
  pqOneTime := second.pqOneTime.trans first.pqOneTime
  mail := second.mail.trans first.mail
  route envelope recipient := (second.route envelope recipient).trans (first.route envelope recipient)
  used := second.used.trans first.used
  room := second.room.trans first.room

end Untouched

theorem mail_removeUserData (different : other ≠ user) (store : Mailbox.Store) :
    ((store.removeUserData other).mailbox.filter fun row => row.owner = user) =
      store.mailbox.filter fun row => row.owner = user := by
  have each : ∀ (victims : List Mailbox.Row) (store : Mailbox.Store),
      (∀ victim ∈ victims, victim.owner = other) ->
      ((victims.foldl Mailbox.Store.removeRow store).mailbox.filter fun row => row.owner = user) =
        store.mailbox.filter fun row => row.owner = user := by
    intro victims
    induction victims with
    | nil => intro store _; rfl
    | cons victim _ ih =>
      intro store owned
      rw [List.foldl_cons, ih _ fun row mem => owned row (.tail _ mem)]
      show (store.without victim.owner victim.seq).filter _ = _
      rw [Mailbox.Store.without, List.filter_filter]
      refine List.filter_congr fun row _ => ?_
      by_cases own : row.owner = user
      · simp [own, owned victim (.head _), Ne.symm different]
      · simp [own]
  exact each _ store fun victim mem => of_decide_eq_true (List.mem_filter.mp mem).2

omit [DecidableEq Hash] in
theorem Untouched.cutOff (different : other ≠ user) (state : RelayState Hash) :
    Untouched user state (state.cutOff other) where
  login := rfl
  bundle := rfl
  oneTime := congrArg (Option.getD · _) (get_remove_of_ne (Ne.symm different))
  pqOneTime := congrArg (Option.getD · _) (get_remove_of_ne (Ne.symm different))
  mail := mail_removeUserData different state.mailbox
  route _ _ := rfl
  used := by
    obtain ⟨usage, -⟩ := Mailbox.Store.Accounted.counters_removeRows
      (state.mailbox.mailbox.filter fun row => row.owner = other) state.mailbox
    show ((remove _ other).get user).getD (0, 0) = _
    rw [usage, get_remove_of_ne (Ne.symm different)]
    rfl
  room := by
    obtain ⟨-, bytes⟩ := Mailbox.Store.Accounted.counters_removeRows
      (state.mailbox.mailbox.filter fun row => row.owner = other) state.mailbox
    show _ - _ <= _
    rw [bytes]
    omega

namespace Untouched

omit [DecidableEq Hash] in
theorem of_directory (state : RelayState Hash) (directory : Directory Hash)
    (bundle : directory.bundles.get user = state.bundle user)
    (own : (directory.revocations.get user).isSome = state.isRevoked user)
    (account : ∀ account, state.deviceAccount user = some account ->
      directory.revokedBy account user = state.revokedBy account user ∧
        (directory.revocations.get account).isSome = state.isRevoked account) :
    Untouched user state { state with directory } := by
  have refusals : ({ state with directory } : RelayState Hash).loginRefusal user =
      state.loginRefusal user ∧ _ := refusals_congr bundle own account
  exact ⟨refusals.1, bundle, rfl, rfl, rfl, refusals.2, rfl, .refl⟩

omit [DecidableEq Hash] in
theorem settle {answer : Except Rejection (RelayState Hash)}
    (answered : ∀ after, answer = .ok after -> Untouched user state after) :
    Untouched user state (state.settle answer) := by
  cases answer with
  | error => exact refl user state
  | ok after => exact answered after rfl

theorem revokingDevice {notice : DeviceRevocation}
    (unclaimed : state.deviceAccount user ≠ some notice.account) :
    Untouched user state (state.revokingDevice setting notice nowMs) := by
  obtain ⟨bundles, revocations, statements⟩ :=
    setDeviceRevocation_tables setting.sha256 state.directory notice nowMs
  refine of_directory state _ (by rw [bundles]; rfl) (by rw [revocations]; rfl) fun account claimed => ?_
  refine ⟨?_, by rw [revocations]; rfl⟩
  have other : notice.account ≠ account := fun same => unclaimed (same ▸ claimed)
  unfold Directory.revokedBy RelayState.revokedBy Directory.revokedBy
  rw [statements]
  split
  · cases held : state.directory.deviceRevocations.get user with
    | some => rfl
    | none => simp [other]
  · rfl

theorem statement (different : stranger ≠ user)
    (unclaimed : state.deviceAccount user ≠ some stranger)
    (signed : signedBy stranger act = true) :
    Untouched user state (state.step setting act) := by
  cases act with
  | applyRevocation notice allowed nowMs =>
    obtain rfl : notice.identity = stranger := of_decide_eq_true signed
    refine settle fun after answered => ?_
    obtain ⟨-, rfl⟩ := applyRevocation_eq_ok answered
    have stands : ∀ other, other ≠ notice.identity ->
        ((state.directory.revocations.insert notice.identity notice).get other).isSome =
          state.isRevoked other := by
      intro other apart
      rw [get_insert_of_ne apart]
      rfl
    exact of_directory state _ rfl (stands user (Ne.symm different)) fun account claimed =>
      ⟨rfl, stands account fun same => unclaimed (same ▸ claimed)⟩
  | applyDeviceRevocation _ notice allowed nowMs =>
    obtain rfl : notice.account = stranger := of_decide_eq_true signed
    refine settle fun after answered => ?_
    have recorded : Untouched user state (state.revokingDevice setting notice nowMs) :=
      revokingDevice unclaimed
    obtain ⟨rfl, rfl | ⟨claimed, rfl⟩⟩ := applyDeviceRevocation_eq_ok answered
    · exact recorded
    have other : notice.device ≠ user := fun same => unclaimed (same ▸ claimed)
    exact recorded.trans (cutOff other _)
  | applySuccession _ allowed nowMs =>
    refine settle fun after answered => ?_
    obtain rfl := applySuccession_eq_ok answered
    exact of_directory state _ rfl rfl fun _ _ => ⟨rfl, rfl⟩
  | _ => cases signed

end Untouched

theorem unclaimed_step (unclaimed : state.deviceAccount user ≠ some stranger)
    (unpublished : claims setting user stranger state act = false) :
    (state.step setting act).deviceAccount user ≠ some stranger := by
  unfold deviceAccount
  rcases bundle_step state setting act user with
    same | ⟨-, gone⟩ | ⟨bundle, _, _, rfl, answered, now⟩
  · rw [same]
    exact unclaimed
  · rw [gone]
    simp
  rw [now]
  intro named
  have account : bundle.account = some stranger := named
  simp [claims, account, answered] at unpublished

theorem unclaimed_of_unpublished {before : List Operation} (unpublished : EachState (next setting)
      (fun state act => claims setting user stranger state act = false)
      empty before)
    (reached : run (next setting) empty before = some state) :
    state.deviceAccount user ≠ some stranger := by
  let kept : RelayState Hash -> Prop := fun now => now.deviceAccount user ≠ some stranger
  have preserve : ∀ act now next, kept now ->
      claims setting user stranger now act = false ->
      RelayState.next setting now act = some next -> kept next := by
    intro act now next unclaimed unpublished ran
    cases ran
    exact unclaimed_step unclaimed unpublished
  have start : kept empty := by
    exact nofun
  have ends : kept state := run_keeps unpublished start preserve reached
  exact ends

omit [DecidableEq Hash] in
theorem forget_refusals
    (different : stranger ≠ user) (unclaimed : state.deviceAccount user ≠ some stranger) :
    (state.forget stranger).loginRefusal user = state.loginRefusal user ∧
      ∀ envelope, envelope.recipient = user ->
        (state.forget stranger).routeRefusal envelope = state.routeRefusal envelope := by
  have stands : ∀ other, other ≠ stranger ->
      (state.forget stranger).isRevoked other = state.isRevoked other := by
    intro other apart
    exact congrArg Option.isSome (get_remove_of_ne apart)
  refine refusals_congr rfl (stands user (Ne.symm different)) fun account claimed => ?_
  have other : account ≠ stranger := fun same => unclaimed (same ▸ claimed)
  refine ⟨?_, stands account other⟩
  show ((state.directory.deviceRevocations.filter _).get user).any _ = _
  rw [get_filter]
  unfold RelayState.revokedBy Directory.revokedBy
  cases held : state.directory.deviceRevocations.get user with
  | none => rfl
  | some notice =>
    by_cases own : notice.account = account
    · simp [own, other]
    · by_cases strange : notice.account = stranger <;> simp [own, strange, Option.filter, other.symm]

/-- An identity that has never published a bundle naming an account is never refused on the
strength of that account's statements, whenever they were made; and no sequence of such
statements changes what the relay keeps for the identity, whether it may log in, or whether
its mail is taken. -/
theorem strangers_cut_nobody_off {before : List Operation} (different : stranger ≠ user)
    (unpublished : EachState (RelayState.next setting)
      (fun state operation => claims setting user stranger state operation = false)
      RelayState.empty before)
    (reached : run (RelayState.next setting) RelayState.empty before = some state) :
    ((state.forget stranger).loginRefusal user = state.loginRefusal user ∧
      ∀ envelope, envelope.recipient = user →
        (state.forget stranger).routeRefusal envelope = state.routeRefusal envelope) ∧
    ∀ statements after, (∀ operation ∈ statements, signedBy stranger operation = true) →
      run (RelayState.next setting) state statements = some after →
      Untouched user state after := by
  have unclaimed := unclaimed_of_unpublished unpublished reached
  refine ⟨forget_refusals different unclaimed, fun statements after signed ended => ?_⟩
  let kept := fun now => Untouched user state now ∧ now.deviceAccount user ≠ some stranger
  have preserve : ∀ operation now next, kept now -> signedBy stranger operation = true ->
      RelayState.next setting now operation = some next -> kept next := by
    rintro operation now next ⟨untouched, apart⟩ signed stepped
    cases stepped
    refine ⟨untouched.trans (.statement different apart signed), unclaimed_step apart ?_⟩
    cases operation <;> first | rfl | cases signed
  exact (run_keeps (of_forall signed state)
    ⟨.refl user state, unclaimed⟩ preserve ended).1

end Strangers

def Example.statements : List Operation :=
  [.applyDeviceRevocation mallory ⟨mallory, phone, 20, Bytes.fill 64 0⟩ true 20,
    .applyRevocation ⟨mallory, 21, Bytes.fill 64 0⟩ true 21]

/-- A stranger's statements, made before and after the phone published, leave it alone. -/
theorem phone_left_alone : ((run (RelayState.next Example.setting) RelayState.empty
        (Example.lodging ++ Example.linking)).any fun state =>
      (state.directory.deviceRevocations.get Example.phone).isSome &&
        state.loginRefusal Example.phone = none) = true ∧
    ∀ state after, run (RelayState.next Example.setting) RelayState.empty
        (Example.lodging ++ Example.linking) = some state →
      run (RelayState.next Example.setting) state Example.statements = some after →
      (state.forget Example.mallory).loginRefusal Example.phone = state.loginRefusal Example.phone ∧
        Untouched Example.phone state after := by
  refine ⟨by decide +kernel, fun state after reached ended => ?_⟩
  obtain ⟨⟨login, -⟩, untouched⟩ := strangers_cut_nobody_off
    (show Example.mallory ≠ Example.phone by decide) (by decide +kernel) reached
  exact ⟨login, untouched _ _ (by decide) ended⟩

end Silver.Relay.Accounts
