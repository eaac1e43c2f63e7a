import Silver.Relay.Accounts.Revoking
import Silver.Relay.Directory.Seeding

/-!
# A revocation among publishes under way

Publishes and revocations take turns at the store, a transaction at a time; in any order
the log stays a chain.  A publish reads whether its identity is revoked before it writes:
once the calls under way when a revocation was entered have ended, the log has seen the
identity's last bundle.  The revocation itself deletes nothing.
-/

namespace Silver.Relay.Accounts

open Foundation Protocol Calls Directory Example
open Function (Injective)
open List hiding after count all

/-- What the relay is asked, each to be answered by a call. -/
inductive Request where
  | publish (me : UserId) (bundle : KeyBundle) (admission : Admission) (nowMs : Nat)
  | applyRevocation (revocation : Revocation) (allowed : Bool) (nowMs : Nat)
deriving DecidableEq

def Request.revokes : Request -> Bool
  | .applyRevocation _ _ _ => true
  | .publish _ _ _ _ => false

section Racing

variable [DecidableEq Hash] (setting : Setting Hash)

def Request.call : Request -> Call (RelayState Hash) Rejection
  | .publish me bundle admission nowMs => Accounts.publish setting me bundle admission nowMs
  | .applyRevocation revocation allowed nowMs =>
    Accounts.applyRevocation setting revocation allowed nowMs

abbrev Desk (Hash : Type) : Type :=
  Calls (RelayState Hash) Rejection Request

def LogRevoked (user : UserId) (state : RelayState Hash) : Prop :=
  ∃ entry ∈ state.directory.log,
    entry.subject = subject setting.sha256 user ∧ entry.kind = .revocation

instance (user : UserId) (state : RelayState Hash) : Decidable (LogRevoked setting user state) :=
  inferInstanceAs (Decidable (∃ entry ∈ state.directory.log, _))

def bundleEntries (user : UserId) (state : RelayState Hash) : List (LogEntry Hash) :=
  state.directory.log.filter fun entry =>
    entry.subject = subject setting.sha256 user ∧ entry.kind = .bundle

variable {setting}

section Publishing

omit [DecidableEq Hash] in
theorem harmless_refuseIf (harmless : rest.Harmless safe keeps) :
    (refuseIf condition code text rest).Harmless safe keeps :=
  Call.Harmless.check harmless

omit [DecidableEq Hash] in
theorem harmless_refuseRevokedDevice {user : UserId} (harmless : rest.Harmless safe keeps) :
    (refuseRevokedDevice user text rest).Harmless safe keeps := by
  intro state _
  dsimp only
  split
  · exact harmless_refuseIf harmless
  · exact harmless

omit [DecidableEq Hash] in
theorem harmless_refuseEach
    {devices : List DeviceCertificate} {condition : DeviceCertificate -> RelayState Hash -> Bool}
    (harmless : rest.Harmless safe keeps) :
    (devices.foldr (fun device next => refuseIf (condition device) code text next)
      rest).Harmless safe keeps := by
  induction devices with
  | nil => exact harmless
  | cons device _ ih => exact harmless_refuseIf ih

theorem harmless_publish (stores : bundle.userId = me ->
      (storePublished setting me bundle nowMs).Harmless safe keeps) :
    (publish setting me bundle admission nowMs).Harmless safe keeps := by
  unfold publish
  split
  · trivial
  next own =>
    split
    · trivial
    have stored := stores (not_not.mp own)
    have admitted : (admitPublished setting me bundle admission nowMs).Harmless safe keeps := by
      unfold admitPublished
      refine Call.Harmless.check ?_
      split
      · trivial
      split
      · trivial
      · exact harmless_refuseIf stored
    apply harmless_refuseIf
    apply harmless_refuseIf
    apply harmless_refuseRevokedDevice
    apply harmless_refuseIf
    apply harmless_refuseIf
    exact harmless_refuseEach (harmless_refuseEach admitted)

theorem harmless_publish_revoked {user : UserId}
    (revoked : ∀ state, safe state -> RelayState.isRevoked state user = true) :
    (publish setting user bundle admission nowMs).Harmless safe keeps := by
  unfold publish
  split
  · trivial
  split
  · trivial
  refine Call.Harmless.check_refused fun state holds => ?_
  rw [if_pos (revoked state holds)]
  rfl

theorem harmless_storePublished (stores : ∀ state, safe state -> keeps state
      { state with
        directory := state.directory.putBundle setting.sha256 (withoutOneTime bundle) nowMs })
    (deposits : ∀ state oneTime pqOneTime, keeps state { state with oneTime, pqOneTime }) :
    (storePublished setting me bundle nowMs).Harmless safe keeps := by
  intro state holds
  refine ⟨stores state holds, ?_⟩
  cases bundle.prekeys with
  | none => trivial
  | some prekeys =>
    intro state _
    refine ⟨deposits state _ _, fun state _ => ?_⟩
    exact ⟨deposits state _ _, trivial⟩

theorem harmless_applyRevocation {notice : Revocation} (sets : ∀ state, safe state -> keeps state
      { state with directory := state.directory.setRevocation setting.sha256 notice nowMs }) :
    (applyRevocation setting notice allowed nowMs).Harmless safe keeps := by
  unfold applyRevocation
  split
  · trivial
  split
  · trivial
  apply harmless_refuseIf
  exact fun state holds => ⟨sets state holds, trivial⟩

end Publishing

section Logging

variable (sha256 : Sha256 Hash) (directory : Directory Hash)

theorem log_putBundle (bundle : KeyBundle) (nowMs : Nat) :
    ∃ entries, (directory.putBundle sha256 bundle nowMs).log = directory.log ++ entries ∧
      ∀ entry ∈ entries, entry.subject = subject sha256 bundle.userId ∧ entry.kind = .bundle := by
  unfold putBundle logBundleIn
  dsimp only
  split
  · exact ⟨[], by simp [storeBundleIn], by simp⟩
  · exact ⟨_, rfl, by simp [LogEntry.after]⟩

theorem log_setRevocation (notice : Revocation) (nowMs : Nat) :
    ∃ entry, (directory.setRevocation sha256 notice nowMs).log = directory.log ++ [entry] ∧
      entry.subject = subject sha256 notice.identity ∧ entry.kind = .revocation :=
  ⟨_, rfl, rfl, rfl⟩

end Logging

def RevokedStays (setting : Setting Hash) (user : UserId) (state after : RelayState Hash) : Prop :=
  (state.isRevoked user = true -> after.isRevoked user = true) ∧
    ((LogRevoked setting user state -> state.isRevoked user = true) ->
      LogRevoked setting user after -> after.isRevoked user = true)

def BundlesStay (setting : Setting Hash) (user : UserId) (state after : RelayState Hash) : Prop :=
  bundleEntries setting user after = bundleEntries setting user state

def KeysStay (state after : RelayState Hash) : Prop :=
  after.directory.bundles = state.directory.bundles ∧ after.oneTime = state.oneTime ∧
    after.pqOneTime = state.pqOneTime ∧ after.keyPackages = state.keyPackages

section Calls

omit [DecidableEq Hash] in
theorem revokedStays_of_directory {state : RelayState Hash} {directory : Directory Hash}
    (table : state.isRevoked user = true -> (directory.revocations.get user).isSome = true)
    (logged : ∀ entry ∈ directory.log, entry.subject = subject setting.sha256 user ->
      entry.kind = .revocation ->
      entry ∈ state.directory.log ∨ (directory.revocations.get user).isSome = true) :
    RevokedStays setting user state { state with directory } := by
  refine ⟨table, fun before ⟨entry, mem, about, kind⟩ => ?_⟩
  rcases logged entry mem about kind with old | held
  · exact table (before ⟨entry, old, about, kind⟩)
  · exact held

theorem revokedStays_call (noClash : Injective setting.sha256.digest) (request : Request) :
    (request.call setting).Harmless (fun _ => True) (RevokedStays setting user) := by
  cases request with
  | publish _ bundle _ nowMs =>
    refine harmless_publish fun _ => harmless_storePublished (fun state _ => ?_)
      fun _ _ _ => ⟨id, id⟩
    obtain ⟨-, revocations, -⟩ :=
      putBundle_tables setting.sha256 state.directory (withoutOneTime bundle) nowMs
    obtain ⟨_, log, kinds⟩ :=
      log_putBundle setting.sha256 state.directory (withoutOneTime bundle) nowMs
    refine revokedStays_of_directory (fun held => by rwa [revocations])
      fun entry mem about kind => ?_
    rw [log] at mem
    rcases mem_append.mp mem with old | new
    · exact .inl old
    · cases kind.symm.trans (kinds entry new).2
  | applyRevocation notice _ nowMs =>
    refine harmless_applyRevocation fun state _ => ?_
    have inserted : ((state.directory.setRevocation setting.sha256 notice nowMs).revocations.get
          user) = if user = notice.identity then some notice
            else state.directory.revocations.get user := rfl
    obtain ⟨_, log, subject, -⟩ := log_setRevocation setting.sha256 state.directory notice nowMs
    refine revokedStays_of_directory (fun held => ?_) fun entry mem about kind => ?_
    · rw [inserted]
      split
      · rfl
      · exact held
    rw [log] at mem
    rcases mem_append.mp mem with old | new
    · exact .inl old
    obtain rfl := mem_singleton.mp new
    have own := subject_injective noClash (about.symm.trans subject)
    rw [inserted, if_pos own]
    exact .inr rfl

theorem bundlesStay_call (noClash : Injective setting.sha256.digest) (request : Request) :
    (request.call setting).Harmless (fun state => state.isRevoked user = true)
      (BundlesStay setting user) := by
  cases request with
  | publish me bundle _ nowMs =>
    by_cases own : me = user
    · subst own
      exact harmless_publish_revoked fun _ revoked => revoked
    refine harmless_publish fun owner => harmless_storePublished (fun state _ => ?_)
      fun _ _ _ => rfl
    obtain ⟨entries, log, kinds⟩ :=
      log_putBundle setting.sha256 state.directory (withoutOneTime bundle) nowMs
    show filter _ (state.directory.putBundle _ _ _).log = _
    rw [log, filter_append]
    have others : entries.filter (fun entry =>
        entry.subject = subject setting.sha256 user ∧ entry.kind = .bundle) = [] := by
      refine filter_eq_nil_iff.mpr fun entry mem => ?_
      have foreign : entry.subject ≠ subject setting.sha256 user := by
        rw [(kinds entry mem).1]
        intro same
        exact own (owner.symm.trans (subject_injective noClash same))
      simp [foreign]
    rw [others, append_nil]
    rfl
  | applyRevocation notice _ nowMs =>
    refine harmless_applyRevocation fun state _ => ?_
    obtain ⟨entry, log, -, kind⟩ := log_setRevocation setting.sha256 state.directory notice nowMs
    show filter _ (state.directory.setRevocation _ _ _).log = _
    rw [log, filter_append, filter_cons_of_neg (by simp [kind]), filter_nil, append_nil]
    rfl

theorem keysStay_call {request : Request} (revokes : request.revokes = true) :
    (request.call setting).Harmless (fun _ => True) KeysStay := by
  cases request with
  | publish _ _ _ nowMs => cases revokes
  | applyRevocation _ _ nowMs => exact harmless_applyRevocation fun _ _ => ⟨rfl, rfl, rfl, rfl⟩

end Calls

section Desks

/-- What holds of every desk reached: calls keep a revocation that is held or logged, and calls
for a revocation keep all keys. -/
structure Watched (setting : Setting Hash) (user : UserId) (desk : Desk Hash) : Prop where
  stays : desk.Harmless (fun _ _ => True) (fun _ => True) (RevokedStays setting user)
  logged : LogRevoked setting user desk.store -> desk.store.isRevoked user = true
  keys : desk.Harmless (fun _ request => request.revokes = true) (fun _ => True) KeysStay

theorem Watched.step (noClash : Injective setting.sha256.digest) {turn : Turn Request}
    (watched : Watched setting user desk)
    (ran : desk.step (Request.call setting) turn = some later) :
    Watched setting user later ∧
      (desk.store.isRevoked user = true -> later.store.isRevoked user = true) := by
  obtain ⟨stays, kept⟩ := watched.stays.step (fun _ => ⟨id, id⟩)
    (fun request _ => revokedStays_call noClash request) trivial ran
  obtain ⟨still, logged⟩ := kept fun _ _ _ _ _ => trivial
  have keys := watched.keys.step (fun _ => ⟨rfl, rfl, rfl, rfl⟩)
    (fun request revokes => keysStay_call revokes) trivial ran
  exact ⟨⟨stays, logged watched.logged, keys.1⟩, still⟩

/-- Where a user is revoked and no call that began before has a turn left, the log has the
user's last bundle. -/
structure Sealed (setting : Setting Hash) (user : UserId) (count : Nat) (desk : Desk Hash) :
    Prop where
  watched : Watched setting user desk
  revoked : desk.store.isRevoked user = true
  bundles : desk.Harmless (fun index _ => count <= index)
    (fun state => state.isRevoked user = true) (BundlesStay setting user)

theorem Sealed.step (noClash : Injective setting.sha256.digest) {turn : Turn Request}
    (sealed : Sealed setting user count desk)
    (ran : desk.step (Request.call setting) turn = some later) :
    Sealed setting user count later ∧
      (count = 0 -> BundlesStay setting user desk.store later.store) := by
  obtain ⟨watched, still⟩ := sealed.watched.step noClash ran
  obtain ⟨bundles, kept⟩ := sealed.bundles.step (fun _ => by rfl)
    (fun request _ => bundlesStay_call noClash request) sealed.revoked ran
  refine ⟨⟨watched, still sealed.revoked, bundles⟩, fun all => kept fun index _ _ _ _ => ?_⟩
  rw [all]
  omega

def LogKept (setting : Setting Hash) (state after : RelayState Hash) : Prop :=
  ∀ history, Faithful setting.sha256 state.directory history ->
    ∃ later, Faithful setting.sha256 after.directory later

theorem logKept_call (noClash : Injective setting.sha256.digest) (request : Request) :
    (request.call setting).Harmless (fun _ => True) (LogKept setting) := by
  cases request with
  | publish _ bundle _ nowMs =>
    refine harmless_publish fun _ => harmless_storePublished (fun _ _ history faithful => ?_)
      fun _ _ _ history faithful => ⟨history, faithful⟩
    exact ⟨_, faithful.step noClash (.putBundle (withoutOneTime bundle) nowMs)⟩
  | applyRevocation notice _ nowMs =>
    refine harmless_applyRevocation fun _ _ history faithful => ?_
    exact ⟨_, faithful.step noClash (.setRevocation notice nowMs)⟩

/-- However publishes and revocations take turns at a new relay's store, the log chains, its
index repeats it, and it covers every bundle stored. -/
theorem turns_keep_log_faithful (collisionFree : Function.Injective setting.sha256.digest)
    {turns : List (Turn Request)} {desk : Desk Hash}
    (reached : run (Calls.step (Request.call setting)) ⟨RelayState.empty, []⟩ turns = some desk) :
    desk.store.directory.Covered setting.sha256 := by
  let kept := fun desk : Desk Hash =>
    desk.Harmless (fun _ _ => True) (fun _ => True) (LogKept setting) ∧
      ∃ history, Faithful setting.sha256 desk.store.directory history
  have preserve : ∀ turn desk next, kept desk ->
      step (Request.call setting) desk turn = some next -> kept next := by
    rintro turn desk next ⟨harmless, history, faithful⟩ stepped
    obtain ⟨later, keeps⟩ := harmless.step (fun _ history faithful => ⟨history, faithful⟩)
      (fun request _ => logKept_call collisionFree request) trivial stepped
    exact ⟨later, keeps (fun _ _ _ _ _ => trivial) history faithful⟩
  obtain ⟨-, _, faithful⟩ : kept desk :=
    run_keeps ⟨by simp [Calls.Harmless], [], Faithful.empty⟩ preserve reached
  exact faithful.covered collisionFree

end Desks

end Racing

namespace Example

def published (key : UInt8) : KeyBundle :=
  { bundleOf alice [] none with
    dhPublic := Bytes.fill 32 key
    prekeys := some ⟨⟨1, Bytes.fill 32 0, 0, Bytes.fill 64 0⟩, [⟨7, Bytes.fill 32 0⟩], none, []⟩ }

def later : List (Turn Request) :=
  [.start (.publish alice (published 2) welcome 12)] ++ replicate 10 (.advance 2)

def racing : List (Turn Request) :=
  [.start (.publish alice (published 1) welcome 10)] ++ replicate 10 (.advance 0) ++
    [.start (.publish alice (published 2) welcome 12), .advance 1,
      .start (.applyRevocation ⟨alice, 11, Bytes.fill 64 0⟩ true 11), .advance 2, .advance 2] ++
    replicate 10 (.advance 1)

end Example

theorem raced_log_covered : (run (Calls.step (Request.call Example.setting))
      ⟨RelayState.empty, []⟩ Example.racing).isSome = true ∧ ∀ desk,
    run (Calls.step (Request.call Example.setting)) ⟨RelayState.empty, []⟩ Example.racing =
      some desk → desk.store.directory.Covered Sha256.plain :=
  ⟨by decide +kernel, fun _ reached => turns_keep_log_faithful Function.injective_id reached⟩

end Silver.Relay.Accounts
