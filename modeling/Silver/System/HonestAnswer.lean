import Silver.Client.LogStore.Lookup
import Silver.Relay.Directory.History

/-!
# Answers read at one instant

A relay answers a lookup from its tables, and a client that has replayed the relay's log
checks the answer.  Both keep what the log says of a user in records that are functions of
the log, so the check compares the tables with the history the log repeats.
-/

namespace Silver.System

open Foundation Protocol Client Relay Directory LogStore Option Sha256
open Function (Injective)

def AnswerPasses {Hash : Type} [DecidableEq Hash] (sha256 : Sha256 Hash) (store : LogStore Hash)
    (answer : LookupResult Hash) : Prop :=
  store.checkLookup sha256 answer.userId answer.bundle answer.revocation answer.succession
      answer.logged = .ok () ∧
    ∀ bundle ∈ answer.deviceBundles, store.checkDeviceLookup sha256 bundle.userId bundle
        (answer.deviceRevocations.find? fun revocation => revocation.device = bundle.userId) =
          .ok ()

/-- What an answer says of a user is what the log and the history it repeats say
last. -/
structure Truthful {Hash : Type} [DecidableEq Hash] (sha256 : Sha256 Hash)
    (log : List (LogEntry Hash)) (history : List Logged) (user : UserId)
    (answer : LookupResult Hash) : Prop where
  bundle : ∀ shown, answer.bundle = some shown →
    (lastLogged user .bundle history).map (Logged.leaf sha256) =
      some (shown.transparencyLeaf sha256)
  revocation : answer.revocation = lastSort Logged.asRevocation user .revocation history
  succession : answer.revocation = none →
    answer.succession = lastSort Logged.asSuccession user .succession history
  logged : answer.logged = (lastAbout (subject sha256 user) log).map LogEntry.position

section Prekeys

variable (handout : Handout) (bundle : KeyBundle)

@[simp] theorem popOneTimePrekeys_leaf :
    (popOneTimePrekeys handout bundle).transparencyLeaf sha256 =
      bundle.transparencyLeaf sha256 := by
  unfold popOneTimePrekeys
  split
  · rename_i prekeys oneTime pqOneTime held _
    simp only [KeyBundle.transparencyLeaf, held]
    rfl
  · rfl

@[simp] theorem popOneTimePrekeys_userId :
    (popOneTimePrekeys handout bundle).userId = bundle.userId := by
  unfold popOneTimePrekeys
  split <;> rfl

end Prekeys

section Instant

variable [DecidableEq Hash] {sha256 : Sha256 Hash}
variable {history : List Logged}
variable {revocation : DeviceRevocation}

theorem device_of_row (faithful : Faithful sha256 directory history) {device : UserId}
    (held : directory.deviceRevocations.get device = some revocation) :
    revocation.device = device := by
  obtain ⟨item, _, selected⟩ := lastSome_mem (faithful.holds.deviceRevocations _ _ held)
  obtain ⟨_, ofKind, sorted⟩ := bind_eq_some_iff.mp selected
  simp only [Logged.ofKind, ite_none_right_eq_some, some.injEq] at ofKind
  obtain ⟨⟨owned, _⟩, rfl⟩ := ofKind
  cases item with
  | deviceRevocation =>
    cases sorted
    exact owned
  | bundle | revocation | succession => cases sorted

theorem Truthful.checkClaim
    {log : List (LogEntry Hash)} (truthful : Truthful sha256 log history user answer)
    (mirrors : Mirrors sha256 store log) :
    LogStore.checkClaim sha256 (store.latestFor sha256 user) answer.logged = .ok () := by
  rw [truthful.logged, ← mirrors.last_eq user]
  cases store.latestFor sha256 user with
  | none => rfl
  | some => simp [LogStore.checkClaim]

theorem checkBundle_honest
    (faithful : Faithful sha256 directory history) (mirrors : Mirrors sha256 store directory.log)
    (noClash : Injective sha256.digest) {shown : KeyBundle}
    (last : (lastLogged user .bundle history).map (Logged.leaf sha256) =
      some (shown.transparencyLeaf sha256)) :
    checkBundle sha256 (store.latestFor sha256 user) shown = .ok () := by
  rw [← faithful.records.lastLeaf noClash, map_eq_some_iff] at last
  obtain ⟨_, last, leaf⟩ := last
  rw [checkBundle, mirrors.bundle_eq, last]
  simp [leaf]

section

variable (truthful : Truthful sha256 directory.log history user answer)
  (faithful : Faithful sha256 directory history)
include truthful faithful

theorem Truthful.statements (noClash : Injective sha256.digest) (notDevice : ∀ revocation,
      lastLogged user .revocation history ≠ some (.deviceRevocation revocation)) :
    answer.revocation.map (Revocation.transparencyLeaf sha256) =
        (lastOfKind (subject sha256 user) .revocation directory.log).map LogPosition.leaf ∧
      (lastOfKind (subject sha256 user) .revocation directory.log = none →
        answer.succession.map (Succession.transparencyLeaf sha256) =
          (lastOfKind (subject sha256 user) .succession directory.log).map LogPosition.leaf) := by
  have revocations := truthful.revocation
  rw [faithful.records.lastLeaf noClash, faithful.records.lastLeaf noClash]
  cases last : lastLogged user .revocation history with
  | none =>
    rw [lastSort_eq_none last] at revocations
    refine ⟨by rw [revocations]; rfl, fun _ => ?_⟩
    rw [truthful.succession revocations]
    cases handover : lastLogged user .succession history with
    | none => rw [lastSort_eq_none handover]; rfl
    | some item =>
      obtain ⟨_, _, ofKind⟩ := lastLogged_spec handover
      cases item with
      | succession statement =>
        rw [lastSort_of_lastLogged Logged.asSuccession handover rfl]
        rfl
      | bundle | revocation | deviceRevocation => cases ofKind
  | some item =>
    obtain ⟨_, _, ofKind⟩ := lastLogged_spec last
    cases item with
    | revocation statement =>
      rw [lastSort_of_lastLogged Logged.asRevocation last rfl] at revocations
      refine ⟨by rw [revocations]; rfl, ?_⟩
      intro absent
      have leaf := faithful.records.lastLeaf noClash user .revocation
      rw [absent, last] at leaf
      cases leaf
    | deviceRevocation statement => exact absurd last (notDevice statement)
    | bundle | succession => cases ofKind

variable (mirrors : Mirrors sha256 store directory.log) (noClash : Injective sha256.digest)
include mirrors noClash

theorem Truthful.checkLookup (notDevice : ∀ revocation,
      lastLogged user .revocation history ≠ some (.deviceRevocation revocation)) :
    store.checkLookup sha256 user answer.bundle answer.revocation answer.succession
      answer.logged = .ok () := by
  obtain ⟨revocations, successions⟩ := truthful.statements faithful noClash notDevice
  rw [checkLookup_eq_ok mirrors]
  refine ⟨truthful.checkClaim mirrors, ?_, ?_, ?_⟩
  · intro shown served
    exact checkBundle_honest faithful mirrors noClash (truthful.bundle shown served)
  · rw [checkStatement_eq_ok]
    exact revocations
  intro absent
  rw [checkStatement_eq_ok]
  exact successions absent

theorem Truthful.deviceStatement
    (last : lastLogged user .revocation history = some (.deviceRevocation revocation))
    (unrevoked : answer.revocation = none) (served : revocation ∈ answer.deviceRevocations)
    (verified : revocation.verify scheme = true) :
    (∃ logged, store.checkLookup sha256 user answer.bundle answer.revocation
        answer.succession answer.logged = .error (.withheldRevocation logged)) ∧
      store.revocationIsDeviceStatement sha256 scheme user answer.deviceRevocations = true := by
  have logged := faithful.records.lastLeaf noClash user .revocation
  rw [last, map_some, map_eq_some_iff] at logged
  obtain ⟨position, logged, leaf⟩ := logged
  constructor
  · rw [unrevoked]
    refine ⟨position.index, checkLookup_withheld mirrors (truthful.checkClaim mirrors) ?_ logged _⟩
    intro shown served
    exact checkBundle_honest faithful mirrors noClash (truthful.bundle shown served)
  have ownDevice := (lastLogged_spec last).2.1
  rw [revocationIsDeviceStatement, mirrors.revocation_eq, logged]
  simp only [List.any_eq_true, Bool.and_eq_true, decide_eq_true_eq]
  exact ⟨revocation, served, ⟨ownDevice, verified⟩, leaf.symm⟩

end

section

variable (faithful : Faithful sha256 directory history)
include faithful

theorem lastLogged_of_stored {shown : KeyBundle} (stored : directory.bundles.get user = some bundle)
    (sameLeaf : shown.transparencyLeaf sha256 = bundle.transparencyLeaf sha256) :
    (lastLogged user .bundle history).map (Logged.leaf sha256) =
      some (shown.transparencyLeaf sha256) := by
  rw [sameLeaf]
  exact (faithful.holds.bundles user bundle stored).2

theorem lifecycle_eq (user : UserId) :
    (directory.lifecycle user).1 = lastSort Logged.asRevocation user .revocation history ∧
      ((directory.lifecycle user).1 = none → (directory.lifecycle user).2 =
          lastSort Logged.asSuccession user .succession history) := by
  rw [← faithful.holds.revocations, ← faithful.holds.successions]
  unfold lifecycle
  cases directory.revocations.get user with
  | none => exact ⟨rfl, fun _ => rfl⟩
  | some => exact ⟨rfl, nofun⟩

theorem logLatestOf_eq (user : UserId) : directory.logLatestOf sha256 user =
      (lastAbout (subject sha256 user) directory.log).map LogEntry.position := by
  rw [logLatestOf, faithful.records.latest, map_map]
  rfl

theorem lookup_truthful (connection : Connection) (handout : Handout) (user : UserId) :
    Truthful sha256 directory.log history user
      (directory.lookup sha256 connection handout user) where
  bundle := by
    intro _ served
    simp only [lookup] at served
    split at served
    · obtain ⟨bundle, stored, rfl⟩ := map_eq_some_iff.mp served
      exact lastLogged_of_stored faithful stored (popOneTimePrekeys_leaf handout bundle)
    · exact lastLogged_of_stored faithful served rfl
  revocation := (lifecycle_eq faithful user).1
  succession := (lifecycle_eq faithful user).2
  logged := logLatestOf_eq faithful user

theorem row_eq_of_lastLogged
    (last : lastLogged user .revocation history = some (.deviceRevocation revocation))
    (row : directory.deviceRevocations.get user = some own) :
    own = revocation := by
  have rowLast := faithful.holds.deviceRevocations user own row
  rw [lastSort_of_lastLogged Logged.asDeviceRevocation last rfl] at rowLast
  exact (some.inj rowLast).symm

theorem attached_bundle
    (attached : bundle ∈ (directory.lookup sha256 connection handout user).deviceBundles) :
    ∃ stored, directory.bundles.get bundle.userId = some stored ∧
      bundle.transparencyLeaf sha256 = stored.transparencyLeaf sha256 := by
  simp only [lookup] at attached
  split at attached
  · unfold deviceBundles at attached
    split at attached
    · cases attached
    obtain ⟨_, _, given⟩ := List.mem_filterMap.mp attached
    obtain ⟨stored, held, claims⟩ := bind_eq_some_iff.mp given
    simp only [ite_none_right_eq_some, some.injEq] at claims
    obtain ⟨_, rfl⟩ := claims
    have owned := (faithful.holds.bundles _ _ held).1
    refine ⟨stored, ?_, popOneTimePrekeys_leaf handout stored⟩
    rw [popOneTimePrekeys_userId, owned]
    exact held
  · cases attached

theorem row_of_served (served : revocation ∈ directory.deviceRevocationsFor user) :
    directory.deviceRevocations.get revocation.device = some revocation := by
  simp only [deviceRevocationsFor, deviceRevocationsBy, List.mem_append,
    List.mem_filterMap, mem_toList] at served
  rcases served with ⟨_, _, row⟩ | row
  · rw [device_of_row faithful row]
    exact row
  rw [device_of_row faithful row]
  exact row

theorem checkDeviceLookup_honest (mirrors : Mirrors sha256 store directory.log)
    (noClash : Injective sha256.digest) (connection : Connection) (handout : Handout)
    (attached : bundle ∈ (directory.lookup sha256 connection handout user).deviceBundles)
    (unrevoked : lastLogged bundle.userId .revocation history = none) :
    store.checkDeviceLookup sha256 bundle.userId bundle
      ((directory.lookup sha256 connection handout user).deviceRevocations.find?
        fun revocation => revocation.device = bundle.userId) = .ok () := by
  obtain ⟨_, held, sameLeaf⟩ := attached_bundle faithful attached
  have nothingServed : ((directory.lookup sha256 connection handout user).deviceRevocations.find?
        fun revocation => revocation.device = bundle.userId) = none := by
    rw [List.find?_eq_none]
    intro revocation served isDevice
    have row := row_of_served faithful served
    rw [of_decide_eq_true isDevice] at row
    have rowLast := faithful.holds.deviceRevocations _ _ row
    rw [lastSort_eq_none unrevoked] at rowLast
    cases rowLast
  have nothingLogged : lastOfKind (subject sha256 bundle.userId) .revocation directory.log =
      none := by
    have leaf := faithful.records.lastLeaf noClash bundle.userId .revocation
    rw [unrevoked, map_none, map_eq_none_iff] at leaf
    exact leaf
  simp only [checkDeviceLookup, mirrors.revocation_eq, Client.bind_eq_ok, nothingServed,
    nothingLogged]
  exact ⟨checkBundle_honest faithful mirrors noClash
    (lastLogged_of_stored faithful held sameLeaf), rfl⟩

end

/-- For every sequence of writes and every user, an answer read at one instant
passes the check of a client that has replayed exactly the relay's log.  A user
whose last logged revocation is a device revocation that the relay still holds,
and who has not revoked itself, is reported as having a revocation withheld, and
the served statement bears that out.  A device in the answer passes if no
revocation of it was ever logged. -/
theorem honest_answer_holds_up (collisionFree : Function.Injective sha256.digest)
    (signatures : Signatures) (operations : List Operation)
    (connection : Connection) (handout : Handout) (user : UserId)
    (replayed : Replayed sha256 store (Directory.after sha256 operations).log) :
    let directory := after sha256 operations
    let history := Directory.history sha256 operations
    let answer := directory.lookup sha256 connection handout user
    ((∀ revocation, lastLogged user .revocation history ≠ some (.deviceRevocation revocation)) →
      store.checkLookup sha256 user answer.bundle answer.revocation answer.succession
        answer.logged = .ok ()) ∧
    (∀ revocation, lastLogged user .revocation history = some (.deviceRevocation revocation) →
      (directory.deviceRevocations.get user).isSome →
      directory.revocations.get user = none →
      revocation.verify signatures = true →
      (∃ logged, store.checkLookup sha256 user answer.bundle answer.revocation
        answer.succession answer.logged = .error (.withheldRevocation logged)) ∧
      store.revocationIsDeviceStatement sha256 signatures user answer.deviceRevocations = true ∧
      store.checkAnswer sha256 signatures answer = .ok ()) ∧
    (∀ bundle ∈ answer.deviceBundles, lastLogged bundle.userId .revocation history = none →
      store.checkDeviceLookup sha256 bundle.userId bundle
        (answer.deviceRevocations.find? fun revocation => revocation.device = bundle.userId) =
          .ok ()) := by
  intro directory history answer
  have faithful : Faithful sha256 directory history := Faithful.after collisionFree operations
  have mirrors := replayed.mirrors
  have truthful := lookup_truthful faithful connection handout user
  refine ⟨?_, ?_, ?_⟩
  · intro notDevice
    exact truthful.checkLookup faithful mirrors collisionFree notDevice
  · intro revocation last held unrevoked verified
    obtain ⟨own, row⟩ := isSome_iff_exists.mp held
    obtain rfl := row_eq_of_lastLogged faithful last row
    have noRevocation : answer.revocation = none := by
      simp [answer, lookup, lifecycle, unrevoked]
    have served : own ∈ answer.deviceRevocations := by
      simp [answer, lookup, deviceRevocationsFor, row]
    obtain ⟨⟨logged, withheld⟩, stated⟩ := truthful.deviceStatement faithful mirrors
      collisionFree last noRevocation served verified
    refine ⟨⟨logged, withheld⟩, stated, ?_⟩
    have asked : answer.userId = user := rfl
    rw [checkAnswer, asked, withheld]
    exact if_pos stated
  intro bundle attached unrevoked
  exact checkDeviceLookup_honest faithful mirrors collisionFree connection handout attached
    unrevoked

end Instant

/-- A bundle without prekeys or capabilities. -/
def bareBundle (owner : UserId) (devices : List DeviceCertificate)
    (deviceOf : Option DeviceCertificate) : KeyBundle :=
  { userId := owner
    dhPublic := Bytes.fill 32 0
    signature := Bytes.fill 64 0
    prekeys := none
    caps := []
    capsSignature := none
    devices := devices
    devicesSignature := none
    deviceOf := deviceOf }

def linkAndRevoke : List Operation :=
  let account : UserId := Bytes.fill 32 1
  let device : UserId := Bytes.fill 32 2
  let certificate : DeviceCertificate :=
    ⟨account, device, 3, "laptop", Bytes.fill 64 0, some (Bytes.fill 64 0)⟩
  [.putBundle (bareBundle account [certificate] none) 10,
    .putBundle (bareBundle device [] (some certificate)) 11,
    .setDeviceRevocation ⟨account, device, 12, Bytes.fill 64 0⟩ 12]

/-- Before the revocation the answer about the account passes, device and all;
after it the answer about the device is borne out by its account's statement. -/
theorem honest_answer_holds_up_linked_device : let account : UserId := Bytes.fill 32 1
    let device := Bytes.fill 32 2
    let everyone := ⟨fun _ _ _ _ => true⟩
    let linked := after plain (linkAndRevoke.take 2)
    let revoked := after plain linkAndRevoke
    let connection := ⟨true, true⟩
    let handout := fun _ => none
    let before := ofLog plain linked.log (linked.logHead plain)
    let later := ofLog plain revoked.log (revoked.logHead plain)
    (linked.lookup plain connection handout account).deviceBundles.length = 1 ∧
      AnswerPasses plain before (linked.lookup plain connection handout account) ∧
      later.checkAnswer plain everyone
        (revoked.lookup plain connection handout device) = .ok () := by
  intro account device everyone linked revoked connection handout before later
  have collisionFree : Function.Injective plain.digest := fun _ _ same => same
  have replayedBefore : Replayed plain before linked.log :=
    Replayed.ofLog (Faithful.after collisionFree _).records.chains
  have replayedLater : Replayed plain later revoked.log :=
    Replayed.ofLog (Faithful.after collisionFree _).records.chains
  obtain ⟨passes, _, attached⟩ := honest_answer_holds_up collisionFree everyone
    (linkAndRevoke.take 2) connection handout account replayedBefore
  obtain ⟨_, borneOut, _⟩ := honest_answer_holds_up collisionFree everyone
    linkAndRevoke connection handout device replayedLater
  refine ⟨by decide +kernel, ⟨?_, ?_⟩, ?_⟩
  · have nothing : lastLogged account .revocation
        (history plain (linkAndRevoke.take 2)) = none := by
      decide +kernel
    exact passes (by simp [nothing])
  · intro bundle member
    refine attached bundle member ?_
    revert bundle
    decide +kernel
  refine (borneOut ⟨account, device, 12, Bytes.fill 64 0⟩ ?_ ?_ ?_ ?_).2.2
  all_goals decide +kernel

/-- The check taken alone accuses a relay that answers a lookup of a revoked
device truthfully. -/
theorem not_answerPasses_revoked_device : let directory := after plain linkAndRevoke
    let store := ofLog plain directory.log (directory.logHead plain)
    Replayed plain store directory.log ∧ ¬AnswerPasses plain store
        (directory.lookup plain ⟨true, true⟩ (fun _ => none) (Bytes.fill 32 2)) := by
  intro directory store
  have collisionFree : Function.Injective plain.digest := fun _ _ same => same
  refine ⟨Replayed.ofLog (Faithful.after collisionFree _).records.chains, ?_⟩
  rintro ⟨passes, _⟩
  revert passes
  decide +kernel

end Silver.System
