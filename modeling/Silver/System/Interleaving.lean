import Silver.System.Following
import Silver.System.HonestAnswer

/-!
# Lookups while the tables change

A lookup is read table by table, and its answer is checked once the log has been replayed
up to the answer's head, or further.  What is written about other users meanwhile does not
matter.  What is written about the looked-up user does: the relay then stands accused of
what it did not do.
-/

namespace Silver.System

open Foundation Protocol Client Relay Bytes Directory LogStore Option Replayed Sha256
open Function (Injective)
open List hiding after count length head take lookup

section Conditions

variable [DecidableEq Hash] (sha256 : Sha256 Hash) (signatures : Signatures)

def touched (directory : Directory Hash) : Operation -> Option UserId
  | .removeDeviceRevocation device => some device
  | operation => (directory.entered sha256 operation).map Logged.user

/-- A lookup of a user is under way: its first table has been read, and its answer
has not been checked. -/
def Network.lookingUp (network : Network Hash) (user : UserId) : Bool :=
  (match network.reading with
    | some (.lookup _ stage draft) => decide (stage ≠ .bundle ∧ draft.userId = user)
    | _ => false) ||
  (network.replies.any fun
    | .lookupResult result => decide (result.userId = user)
    | _ => false) ||
  network.tail.deferred.any fun
    | .answer answer => decide (answer.result.userId = user)
    | _ => false

def readyFor (directory : Directory Hash) (history : List Logged) (user : UserId) : Bool :=
  match lastLogged user .revocation history with
  | some (.deviceRevocation revocation) =>
    decide ((directory.deviceRevocations.get user).isSome ∧
      directory.revocations.get user = none ∧ revocation.verify signatures = true)
  | _ => true

/-- A step that does not disturb a lookup: what it writes is not about a user who is
being looked up, and a lookup that it begins is of a user who is ready for it. -/
def Undisturbed (network : Network Hash) : Action -> Prop
  | .write operation =>
    (touched sha256 (network.directory sha256) operation).all fun user => !network.lookingUp user
  | .read _ =>
    match network.reading with
    | some (.lookup _ .bundle draft) =>
      readyFor signatures (network.directory sha256) (network.history sha256) draft.userId
    | _ => True
  | _ => True

instance (network : Network Hash) (action : Action) :
    Decidable (Undisturbed sha256 signatures network action) := by
  unfold Undisturbed
  split
  · infer_instance
  · split <;> infer_instance
  · infer_instance

def QuietSince (log : List (LogEntry Hash)) (user : UserId) (head : Option (LogHead Hash)) : Prop :=
  ∃ index ≤ log.length, head = some (headAt sha256 log index) ∧
    ∀ entry ∈ log.drop index, entry.subject ≠ subject sha256 user

/-- An answer that the log bears out, and after whose head nothing has been logged
about its user. -/
structure BorneOut (log : List (LogEntry Hash)) (result : LookupResult Hash) : Prop where
  quiet : QuietSince sha256 log result.userId result.head
  passes : ∀ store, Mirrors sha256 store log -> store.checkAnswer sha256 signatures result = .ok ()

def Stage.rank : Stage -> Nat
  | .bundle => 0
  | .revocation => 1
  | .succession => 2
  | .logged => 3
  | .head => 4
  | _ => 5

/-- What has been read of a lookup is what the history says last of the user. -/
structure Drafted (directory : Directory Hash) (history : List Logged) (stage : Stage)
    (draft : LookupResult Hash) : Prop where
  ready : readyFor signatures directory history draft.userId = true
  bundle : ∀ shown, draft.bundle = some shown ->
    (lastLogged draft.userId .bundle history).map (Logged.leaf sha256) =
      some (shown.transparencyLeaf sha256)
  unread : stage.rank <= 2 -> draft.revocation = none
  revocation : 2 <= stage.rank ->
    draft.revocation = lastSort Logged.asRevocation draft.userId .revocation history
  succession : 3 <= stage.rank -> draft.revocation = none ->
    draft.succession = lastSort Logged.asSuccession draft.userId .succession history
  logged : 4 <= stage.rank ->
    draft.logged = (lastAbout (subject sha256 draft.userId) directory.log).map LogEntry.position
  quiet : 5 <= stage.rank -> QuietSince sha256 directory.log draft.userId draft.head

/-- Everything read of a lookup holds up, and no caller has been refused. -/
structure Upheld (network : Network Hash) : Prop where
  started : ∀ connection draft, network.reading = some (.lookup connection .bundle draft) ->
    draft.revocation = none
  drafted : ∀ connection stage draft, network.reading = some (.lookup connection stage draft) ->
    stage ≠ .bundle ->
      Drafted sha256 signatures (network.directory sha256) (network.history sha256) stage draft
  replies : ∀ result, .lookupResult result ∈ network.replies ->
    BorneOut sha256 signatures (network.directory sha256).log result
  deferred : ∀ answer, .answer answer ∈ network.tail.deferred ->
    BorneOut sha256 signatures (network.directory sha256).log answer.result
  told : ∀ reply ∈ network.told, reply.2.isOk

end Conditions

variable [DecidableEq Hash]
  {network : Network Hash}

omit [DecidableEq Hash] in
theorem QuietSince.grow {log : List (LogEntry Hash)} {user : UserId} {head : Option (LogHead Hash)}
    (quiet : QuietSince sha256 log user head)
    (others : ∀ entry ∈ more, entry.subject ≠ subject sha256 user) :
    QuietSince sha256 (log ++ more) user head := by
  obtain ⟨index, within, came, before⟩ := quiet
  refine ⟨index, ?_, ?_, ?_⟩
  · rw [length_append]
    omega
  · rw [headAt_append within]
    exact came
  rw [drop_append_of_le_length within]
  intro entry mem
  rcases mem_append.mp mem with mem | mem
  · exact before entry mem
  · exact others entry mem

section

variable {log : List (LogEntry Hash)}
  (borneOut : BorneOut sha256 signatures log result) (chains : ChainsTo sha256 log last)
include borneOut chains

theorem BorneOut.checkAnswer (came : result.head = some (headAt sha256 log index))
    (reached : index <= length) (within : length <= log.length)
    {store : LogStore Hash} (mirrors : Mirrors sha256 store (log.take length)) :
    store.checkAnswer sha256 signatures result = .ok () := by
  obtain ⟨upTo, inside, same, others⟩ := borneOut.quiet
  have here : upTo = index := by
    rw [came, Option.some.injEq] at same
    have numbered := congrArg LogHead.index same
    rw [chains.index_headAt (by omega), chains.index_headAt inside] at numbered
    exact numbered.symm
  subst here
  have full := (ofLog chains).mirrors
  rw [← borneOut.passes _ full]
  refine checkAnswer_congr ?_
  have whole : Mirrors sha256 (ofLog sha256 log last) (log.take length ++ log.drop length) := by
    rw [take_append_drop]
    exact full
  symm
  refine mirrors.latestFor_append whole fun entry mem => ?_
  exact others entry (drop_subset_drop_left _ reached mem)

theorem BorneOut.grow (others : ∀ entry ∈ more, entry.subject ≠ subject sha256 result.userId) :
    BorneOut sha256 signatures (log ++ more) result := by
  refine ⟨borneOut.quiet.grow others, fun store mirrors => ?_⟩
  have before := (ofLog chains).mirrors
  rw [← borneOut.passes _ before]
  exact checkAnswer_congr (before.latestFor_append mirrors others)

end

section Writes

variable {directory : Directory Hash} {history : List Logged}

theorem user_ne_of_untouched (untouched : touched sha256 directory operation ≠ some user)
    {item : Logged} (entered : item ∈ (directory.entered sha256 operation).toList) :
    item.user ≠ user := by
  rw [mem_toList] at entered
  rintro rfl
  cases operation with
  | removeDeviceRevocation | removeUser => cases entered
  | putBundle | setRevocation | setSuccession | setDeviceRevocation =>
    exact untouched (congrArg (Option.map Logged.user) entered)

theorem log_step_untouched (noClash : Injective sha256.digest)
    (untouched : touched sha256 directory operation ≠ some user) :
    ∃ entries, (directory.step sha256 operation).log = directory.log ++ entries ∧
      ∀ entry ∈ entries, entry.subject ≠ subject sha256 user := by
  obtain ⟨entries, grown, standFor⟩ := log_step sha256 directory operation
  refine ⟨entries, grown, fun entry mem same => ?_⟩
  cases entered : directory.entered sha256 operation with
  | none =>
    rw [entered, toList_none, forall₂_nil_right_iff] at standFor
    rw [standFor] at mem
    cases mem
  | some =>
    rw [entered, toList_some, forall₂_cons_right_iff] at standFor
    obtain ⟨_, _, stands, nothing, rfl⟩ := standFor
    obtain rfl := forall₂_nil_right_iff.mp nothing
    obtain rfl := mem_singleton.mp mem
    rw [stands.1] at same
    exact user_ne_of_untouched untouched (by simp [entered]) (subject_injective noClash same)

section

variable (untouched : touched sha256 directory operation ≠ some user)
include untouched

theorem lastLogged_step_untouched (kind : EntryKind) :
    lastLogged user kind (history ++ (directory.entered sha256 operation).toList) =
      lastLogged user kind history := by
  cases entered : directory.entered sha256 operation with
  | none => rw [toList_none, append_nil]
  | some item =>
    have other : item.user ≠ user := user_ne_of_untouched untouched (by simp [entered])
    rw [toList_some, lastLogged_snoc, if_neg fun same => other same.1]

theorem lastSort_step_untouched (kind : EntryKind) :
    lastSort sort user kind (history ++ (directory.entered sha256 operation).toList) =
      lastSort sort user kind history := by
  cases entered : directory.entered sha256 operation with
  | none => rw [toList_none, append_nil]
  | some item =>
    have other : item.user ≠ user := user_ne_of_untouched untouched (by simp [entered])
    rw [toList_some, lastSort_snoc_other (.inl other)]

theorem row_step_untouched : (directory.step sha256 operation).deviceRevocations.get user =
      directory.deviceRevocations.get user := by
  cases operation with
  | putBundle _ nowMs =>
    simp only [Directory.step, Directory.putBundle, Directory.logBundleIn]
    split <;> rfl
  | setRevocation | setSuccession | removeUser => rfl
  | setDeviceRevocation revocation nowMs =>
    simp only [Directory.step, Directory.setDeviceRevocation]
    cases row : directory.deviceRevocations.get revocation.device with
    | some => rfl
    | none =>
      have other : user ≠ revocation.device := by
        rintro rfl
        simp [touched, entered, row, Logged.user] at untouched
      exact Table.get_insert_of_ne other
  | removeDeviceRevocation device =>
    simp only [Directory.step, Directory.removeDeviceRevocation]
    cases row : directory.deviceRevocations.get device with
    | none => rfl
    | some =>
      have other : user ≠ device := by
        rintro rfl
        exact untouched rfl
      exact Table.get_remove_of_ne other

end

end Writes

omit [DecidableEq Hash] in
theorem lookingUp_of_reply (underWay : .lookupResult result ∈ network.replies) :
    network.lookingUp result.userId = true := by
  simp only [Network.lookingUp, Bool.or_eq_true, List.any_eq_true]
  exact .inl (.inr ⟨_, underWay, by simp⟩)

omit [DecidableEq Hash] in
theorem lookingUp_of_deferred {answer : Answer Hash}
    (waiting : .answer answer ∈ network.tail.deferred) :
    network.lookingUp answer.result.userId = true := by
  simp only [Network.lookingUp, Bool.or_eq_true, List.any_eq_true]
  exact .inr ⟨_, waiting, by simp⟩

variable {directory : Directory Hash} {history : List Logged}

theorem Drafted.write {stage : Stage}
    (drafted : Drafted sha256 signatures directory history stage draft)
    (noClash : Injective sha256.digest) (faithful : Faithful sha256 directory history)
    (untouched : touched sha256 directory operation ≠ some draft.userId) :
    Drafted sha256 signatures (directory.step sha256 operation)
      (history ++ (directory.entered sha256 operation).toList) stage draft := by
  have after := faithful.step noClash operation
  obtain ⟨_, grown, others⟩ := log_step_untouched noClash untouched
  refine ⟨?_, ?_, drafted.unread, ?_, ?_, ?_, ?_⟩
  · have sameRevocation : (directory.step sha256 operation).revocations.get draft.userId =
        directory.revocations.get draft.userId := by
      rw [after.holds.revocations, faithful.holds.revocations, lastSort_step_untouched untouched]
    have before := drafted.ready
    unfold readyFor at before ⊢
    rw [lastLogged_step_untouched untouched, row_step_untouched untouched, sameRevocation]
    exact before
  · rw [lastLogged_step_untouched untouched]
    exact drafted.bundle
  · rw [lastSort_step_untouched untouched]
    exact drafted.revocation
  · rw [lastSort_step_untouched untouched]
    exact drafted.succession
  · rw [grown, lastAbout_append_others others]
    exact drafted.logged
  intro read
  rw [grown]
  exact (drafted.quiet read).grow others

theorem Upheld.write (upheld : Upheld sha256 signatures network) (noClash : Injective sha256.digest)
    (undisturbed : Undisturbed sha256 signatures network (.write operation)) :
    Upheld sha256 signatures
      { network with operations := network.operations ++ [operation] } := by
  have faithful := Faithful.after noClash network.operations
  have nextDirectory : ({ network with operations := network.operations ++ [operation] } :
      Network Hash).directory sha256 = (network.directory sha256).step sha256 operation :=
    Directory.after_snoc network.operations operation
  have nextHistory : ({ network with operations := network.operations ++ [operation] } :
      Network Hash).history sha256 = network.history sha256 ++
        ((network.directory sha256).entered sha256 operation).toList :=
    history_snoc network.operations operation
  have untouched : ∀ {user}, network.lookingUp user = true ->
      touched sha256 (network.directory sha256) operation ≠ some user := by
    intro user busy touches
    simp [Undisturbed, touches, busy] at undisturbed
  have grow : ∀ result, network.lookingUp result.userId = true ->
      BorneOut sha256 signatures (network.directory sha256).log result ->
      BorneOut sha256 signatures ((network.directory sha256).step sha256 operation).log
        result := by
    intro result busy borneOut
    obtain ⟨_, grown, others⟩ := log_step_untouched noClash (untouched busy)
    rw [grown]
    exact borneOut.grow faithful.records.chains others
  refine ⟨upheld.started, ?_, ?_, ?_, upheld.told⟩
  · intro connection stage draft occupied begun
    change network.reading = _ at occupied
    rw [nextDirectory, nextHistory]
    exact (upheld.drafted connection stage draft occupied begun).write noClash faithful
      (untouched (by simp [Network.lookingUp, occupied, begun]))
  · intro result underWay
    rw [nextDirectory]
    exact grow result (lookingUp_of_reply underWay) (upheld.replies result underWay)
  intro answer waiting
  rw [nextDirectory]
  exact grow answer.result (lookingUp_of_deferred waiting) (upheld.deferred answer waiting)

theorem Drafted.borneOut (drafted : Drafted sha256 signatures directory history .own draft)
    (noClash : Injective sha256.digest) (faithful : Faithful sha256 directory history)
    (complete : result = { draft with
      deviceRevocations := draft.deviceRevocations ++
        (directory.deviceRevocations.get draft.userId).toList }) :
    BorneOut sha256 signatures directory.log result := by
  have five : ∀ {count : Nat}, count <= 5 -> count <= Stage.own.rank := id
  subst complete
  have truthful : Truthful sha256 directory.log history draft.userId { draft with
      deviceRevocations := draft.deviceRevocations ++
        (directory.deviceRevocations.get draft.userId).toList } :=
    ⟨drafted.bundle, drafted.revocation (five (by decide)),
      drafted.succession (five (by decide)), drafted.logged (five (by decide))⟩
  refine ⟨drafted.quiet (five (by decide)), fun store mirrors => ?_⟩
  have ready := drafted.ready
  unfold readyFor at ready
  split at ready
  · rename_i revocation last
    obtain ⟨held, unrevoked, verified⟩ := of_decide_eq_true ready
    obtain ⟨own, row⟩ := isSome_iff_exists.mp held
    obtain rfl := row_eq_of_lastLogged faithful last row
    obtain ⟨⟨logged, withheld⟩, stated⟩ := truthful.deviceStatement faithful mirrors noClash
      last (by rw [truthful.revocation, ← faithful.holds.revocations]; exact unrevoked)
      (by simp [row]) verified
    rw [checkAnswer, withheld]
    exact if_pos stated
  rename_i notDevice
  have passes := truthful.checkLookup faithful mirrors noClash fun revocation last =>
    notDevice revocation last
  rw [checkAnswer, passes]

section Reads

variable {draft : LookupResult Hash}

theorem drafted_bundle (faithful : Faithful sha256 directory history)
    (ready : readyFor signatures directory history draft.userId = true)
    (unread : draft.revocation = none) (connection : Connection) (handout : Handout) :
    Drafted sha256 signatures directory history .revocation { draft with
      bundle := if connection.prekeys then
          (directory.bundles.get draft.userId).map (popOneTimePrekeys handout)
        else directory.bundles.get draft.userId } where
  ready := ready
  bundle := by
    intro _ served
    dsimp only at served
    split at served
    · obtain ⟨bundle, stored, rfl⟩ := map_eq_some_iff.mp served
      exact lastLogged_of_stored faithful stored (popOneTimePrekeys_leaf handout bundle)
    · exact lastLogged_of_stored faithful served rfl
  unread := fun _ => unread
  revocation := nofun
  succession := nofun
  logged := nofun
  quiet := nofun

theorem Drafted.late (drafted : Drafted sha256 signatures directory history stage draft)
    (read : stage.rank = 5) {further : Stage} (later : further.rank = 5)
    (deviceBundles : List KeyBundle) (deviceRevocations : List DeviceRevocation) :
    Drafted sha256 signatures directory history further { draft with
      deviceBundles := deviceBundles, deviceRevocations := deviceRevocations } := by
  have same : further.rank = stage.rank := later.trans read.symm
  refine ⟨drafted.ready, drafted.bundle, ?_, ?_, ?_, ?_, ?_⟩
  · rw [same]
    exact drafted.unread
  · rw [same]
    exact drafted.revocation
  · rw [same]
    exact drafted.succession
  · rw [same]
    exact drafted.logged
  rw [same]
  exact drafted.quiet

theorem rank_devices (listed : List DeviceCertificate) : (Stage.devices listed).rank = 5 := by
  cases listed <;> rfl

attribute [local simp] Stage.rank

/-- Every read of a lookup keeps the draft true, and the last one completes an
answer that is borne out. -/
theorem Drafted.read
    (drafted : Drafted sha256 signatures directory history stage draft) (begun : stage ≠ .bundle)
    (noClash : Injective sha256.digest)
    (faithful : Faithful sha256 directory history) (handout : Handout) (connection : Connection) :
    (∃ further shown, readLookup sha256 directory handout connection draft stage =
        .inl (.lookup connection further shown) ∧
      further.rank ≠ 0 ∧ Drafted sha256 signatures directory history further shown) ∨
    (∃ result,
      readLookup sha256 directory handout connection draft stage = .inr (.lookupResult result) ∧
      BorneOut sha256 signatures directory.log result) := by
  cases stage with
  | bundle => exact absurd rfl begun
  | revocation =>
    have unread := drafted.unread (by decide)
    have table := faithful.holds.revocations draft.userId
    cases held : directory.revocations.get draft.userId with
    | none =>
      refine .inl ⟨.succession, draft, by simp only [readLookup, held], by decide,
        drafted.ready, drafted.bundle, fun _ => unread, fun _ => ?_, by simp, by simp, by simp⟩
      rw [unread, ← table, held]
    | some revocation =>
      refine .inl ⟨.logged, { draft with revocation := some revocation },
        by simp only [readLookup, held], by decide, drafted.ready, drafted.bundle, by simp,
        fun _ => ?_, by simp, by simp, by simp⟩
      exact held.symm.trans table
  | succession =>
    exact .inl ⟨_, _, rfl, by decide, drafted.ready, drafted.bundle, by simp,
      fun _ => drafted.revocation (by decide), fun _ _ => faithful.holds.successions _, by simp,
      by simp⟩
  | logged =>
    exact .inl ⟨_, _, rfl, by decide, drafted.ready, drafted.bundle, by simp,
      fun _ => drafted.revocation (by decide), fun _ => drafted.succession (by decide),
      fun _ => logLatestOf_eq faithful _, by simp⟩
  | head =>
    have rank : (if connection.devices then
        Stage.devices (draft.bundle.elim [] KeyBundle.devices) else .issued).rank = 5 := by
      split
      · exact rank_devices _
      · rfl
    refine .inl ⟨_, _, rfl, by rw [rank]; decide, drafted.ready, drafted.bundle, ?_,
      fun _ => drafted.revocation (by decide), fun _ => drafted.succession (by decide),
      fun _ => drafted.logged (by decide), fun _ => ?_⟩
    · rw [rank]
      simp
    refine ⟨_, .refl, congrArg some (logHead_eq sha256 directory), ?_⟩
    rw [drop_length]
    exact fun _ mem => absurd mem not_mem_nil
  | revokedBy device listed =>
    have rank : (if directory.revokedBy draft.userId device then Stage.devices listed
        else .deviceBundle device listed).rank = 5 := by
      split
      · exact rank_devices _
      · rfl
    refine .inl ⟨_, _, rfl, by rw [rank]; decide, drafted.late rfl rank _ _⟩
  | deviceBundle device listed =>
    refine .inl ⟨_, _, rfl, ?_, drafted.late rfl (rank_devices listed) _ _⟩
    rw [rank_devices]
    decide
  | issued => exact .inl ⟨_, _, rfl, by decide, drafted.late rfl rfl _ _⟩
  | own => exact .inr ⟨_, rfl, drafted.borneOut noClash faithful rfl⟩

end Reads

theorem Upheld.read (upheld : Upheld sha256 signatures network) (noClash : Injective sha256.digest)
    (undisturbed : Undisturbed sha256 signatures network (.read handout))
    (occupied : network.reading = some reading) :
    Upheld sha256 signatures
      (match reading.next sha256 (network.directory sha256) handout with
        | .inl further => { network with reading := some further }
        | .inr reply =>
          { network with reading := none, replies := network.replies ++ [reply] }) := by
  have faithful : Faithful sha256 (network.directory sha256) (network.history sha256) :=
    Faithful.after noClash network.operations
  have goesOn : ∀ further, (∀ connection stage draft,
      further = .lookup connection stage draft -> stage.rank ≠ 0 ∧
        Drafted sha256 signatures (network.directory sha256) (network.history sha256) stage draft) ->
      Upheld sha256 signatures { network with reading := some further } := by
    intro further drafted
    refine { upheld with started := ?_, drafted := ?_ }
    · intro connection draft same
      exact absurd rfl (drafted connection .bundle draft (Option.some.inj same)).1
    intro connection stage draft same _
    exact (drafted connection stage draft (Option.some.inj same)).2
  have ends : ∀ reply, (∀ result, reply = .lookupResult result ->
      BorneOut sha256 signatures (network.directory sha256).log result) ->
      Upheld sha256 signatures
        { network with reading := none, replies := network.replies ++ [reply] } := by
    intro reply borneOut
    refine ⟨by simp, by simp, ?_, upheld.deferred, upheld.told⟩
    intro result mem
    rcases mem_append.mp mem with mem | mem
    · exact upheld.replies result mem
    · exact borneOut result (mem_singleton.mp mem).symm
  cases reading with
  | login | logHead => exact ends _ (by simp)
  | logSince => exact goesOn _ (by simp)
  | lookup connection stage draft =>
    by_cases begun : stage = .bundle
    · subst begun
      refine goesOn _ fun _ _ _ same => ?_
      cases same
      refine ⟨by decide, drafted_bundle faithful ?_ (upheld.started connection draft occupied)
        connection handout⟩
      simpa [Undisturbed, occupied] using undisturbed
    rw [Reading.next]
    rcases (upheld.drafted connection stage draft occupied begun).read begun noClash
        faithful handout connection with
      ⟨further, shown, next, notFirst, drafted⟩ | ⟨result, next, borneOut⟩
    · rw [next]
      refine goesOn _ fun _ _ _ same => ?_
      cases same
      exact ⟨notFirst, drafted⟩
    rw [next]
    refine ends _ fun _ same => ?_
    cases same
    exact borneOut

section

variable (upheld : Upheld sha256 signatures network)
  (chains : ChainsTo sha256 (network.directory sha256).log last)
include upheld chains

theorem Upheld.dispatch
    (deals : Deals sha256 signatures (network.directory sha256).log pending dealt.1 dealt.2)
    (borneOut : ∀ answer, pending answer ->
      BorneOut sha256 signatures (network.directory sha256).log answer.result) :
    Upheld sha256 signatures (network.dispatch dealt) := by
  refine
    { upheld with
      deferred := fun answer waiting => borneOut answer (deals.waits answer waiting)
      told := fun reply mem => ?_ }
  rcases mem_append.mp mem with mem | mem
  · exact upheld.told reply mem
  obtain ⟨answer, _, _, _, was, came, reached, within, mirrors, given⟩ := deals.replies reply mem
  rw [resolve, (borneOut answer was).checkAnswer chains came reached within mirrors] at given
  obtain ⟨_, _, rfl⟩ := mem_map.mp given
  rfl

theorem Upheld.receive {reply : Reply Hash} (replies : network.replies = reply :: rest)
    (deals : Deals sha256 signatures (network.directory sha256).log (network.Pending reply)
      dealt.1 dealt.2) :
    Upheld sha256 signatures
      ({ network with replies := rest, lookups := lookups }.dispatch dealt) := by
  have arrived : Upheld sha256 signatures
      { network with replies := rest, lookups := lookups } := by
    refine { upheld with replies := ?_ }
    intro result mem
    exact upheld.replies result (replies ▸ .tail _ mem)
  refine arrived.dispatch chains deals ?_
  rintro answer (waiting | rfl)
  · exact upheld.deferred answer waiting
  · exact upheld.replies answer.result (replies ▸ (.head _))

end

theorem Upheld.step {store : LogStore Hash} (upheld : Upheld sha256 signatures network)
    (follows : Follows sha256 network store length)
    (noClash : Injective sha256.digest) {next : Network Hash}
    (undisturbed : Undisturbed sha256 signatures network action)
    (ran : network.step sha256 signatures action = some next) :
    Upheld sha256 signatures next := by
  have chains := chains_directory noClash network
  cases action with
  | write =>
    cases ran
    exact upheld.write noClash undisturbed
  | ask =>
    cases ran
    exact { upheld with }
  | take =>
    rw [Network.step] at ran
    split at ran
    · rename_i request rest unoccupied requests
      cases ran
      refine { upheld with started := ?_, drafted := ?_ }
      · intro other draft started
        cases request <;> cases started
        rfl
      intro other _ draft started begun
      cases request <;> cases started
      exact absurd rfl begun
    · cases ran
  | read =>
    obtain ⟨_, occupied, rfl⟩ := map_eq_some_iff.mp ran
    exact upheld.read noClash undisturbed occupied
  | deliver nowMs =>
    rw [Network.step] at ran
    split at ran
    · cases ran
    rename_i reply rest replies
    obtain ⟨_, _, _, _, received, _, deals⟩ := follows.receive chains replies signatures nowMs
    rw [some.injEq, received] at ran
    subst ran
    exact upheld.receive chains replies deals
  | hear peer =>
    rw [Network.step] at ran
    split at ran
    · rename_i within
      cases ran
      exact upheld.dispatch chains (follows.hear chains within signatures peer).2 upheld.deferred
    · cases ran

theorem upheld_connect (operations : List Operation) (store : LogStore Hash) :
    Upheld sha256 signatures (Network.connect operations (some store)) where
  started := by simp [Network.connect]
  drafted := by simp [Network.connect]
  replies := by simp [Network.connect]
  deferred := by simp [Network.connect, Tail.new]
  told := by simp [Network.connect]

/-- The tail accuses nobody of anything in any run of a connection to an honest
relay, and it refuses no answer in a run whose steps disturb no lookup. -/
theorem honest_relay_is_trusted (collisionFree : Function.Injective sha256.digest)
    (signatures : Signatures) (operations : List Operation) {store : LogStore Hash} {length : Nat}
    (replayed : Replayed sha256 store ((Directory.after sha256 operations).log.take length))
    (within : length ≤ (Directory.after sha256 operations).log.length)
    (actions : List Action) {final : Network Hash}
    (ended : run (Network.step sha256 signatures) (Network.connect operations (some store))
      actions = some final) :
    (∀ event ∈ final.raised, ¬Accuses event) ∧
    (EachState (Network.step sha256 signatures) (Undisturbed sha256 signatures)
        (Network.connect operations (some store)) actions →
      ∀ reply ∈ final.told, reply.2.isOk) := by
  constructor
  · obtain ⟨_, _, follows⟩ := Follows.run collisionFree (.connect replayed.mirrors within) ended
    exact follows.calm
  intro undisturbed
  let keeps := fun network =>
    (∃ store length, Follows sha256 network store length) ∧ Upheld sha256 signatures network
  have start : keeps (Network.connect operations (some store)) :=
    ⟨⟨store, length, Follows.connect replayed.mirrors within⟩, upheld_connect operations store⟩
  have preserve : ∀ action network next, keeps network ->
      Undisturbed sha256 signatures network action ->
      Network.step sha256 signatures network action = some next -> keeps next := by
    rintro action network next ⟨⟨_, _, follows⟩, upheld⟩ met stepped
    exact ⟨follows.step collisionFree stepped, upheld.step follows collisionFree met stepped⟩
  exact (undisturbed.run_keeps start preserve ended).2.told

section Examples

def lookupAtLogin (user : UserId) (meanwhile : Operation) : List Action :=
  let connection : Connection := ⟨false, false⟩
  let read : Action := .read fun _ => none
  [.ask user 7, .take connection, read, .take connection, read, read, read, read, read, read, read,
    .deliver 0, .deliver 0, .write meanwhile, .take connection, read, read, .deliver 0]

def firstConnection : Network (List UInt8) :=
  Network.connect [.putBundle (bareBundle (Bytes.fill 32 1) [] none) 0]
    (some (LogStore.empty Sha256.plain []))

/-- Another user's bundle does not disturb the lookup. -/
theorem honest_relay_is_trusted_lookup_at_login :
    let signatures : Signatures := ⟨fun _ _ _ _ => true⟩
    let actions := lookupAtLogin (fill 32 1) (.putBundle (bareBundle (fill 32 2) [] none) 5)
    ∃ final, run (Network.step plain signatures) firstConnection actions = some final ∧
      final.told ≠ [] ∧ (∀ event ∈ final.raised, ¬Accuses event) ∧
      ∀ reply ∈ final.told, reply.2.isOk := by
  intro signatures actions
  have answered : (run (Network.step plain signatures) firstConnection actions).any
      (fun final => decide (final.told ≠ [])) = true := by
    decide +kernel
  have undisturbed : EachState (Network.step plain signatures)
      (Undisturbed Sha256.plain signatures) firstConnection actions := by
    decide +kernel
  cases ended : run (Network.step Sha256.plain signatures) firstConnection actions with
  | none =>
    rw [ended] at answered
    cases answered
  | some final =>
    rw [ended] at answered
    obtain ⟨calm, trusted⟩ := honest_relay_is_trusted (fun _ _ same => same) signatures _
      (empty []) (Nat.zero_le _) actions ended
    exact ⟨final, rfl, of_decide_eq_true answered, calm, trusted undisturbed⟩

/-- A new bundle of the looked-up user, published after the answer was given and
before the page is read, has the answer refused. -/
theorem true_answer_is_refused_after_publish : let signatures : Signatures := ⟨fun _ _ _ _ => true⟩
    let renewed := { bareBundle (fill 32 1) [] none with dhPublic := fill 32 9 }
    let actions := lookupAtLogin (fill 32 1) (.putBundle renewed 5)
    (run (Network.step plain signatures) firstConnection actions).map Network.told =
      some [(7, .error (Discrepancy.claimMismatch 1 2).text)] := by
  decide +kernel

end Examples

end Silver.System
