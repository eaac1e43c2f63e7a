import Silver.Relay.Directory.Defs

/-!
# What a directory has logged

The log and each subject's latest position repeat the history of what was entered, under
hashes, and the tables hold the last statement of each kind that the history has, except
that a bundle may have been removed and a device revocation undone.
-/

namespace Silver.Relay

open Foundation Protocol List Option Table
open Directory (empty logHead after)

/-- What a write enters in the log. -/
inductive Logged where
  | bundle (published : KeyBundle)
  | revocation (statement : Revocation)
  | succession (statement : Succession)
  | deviceRevocation (statement : DeviceRevocation)
deriving DecidableEq

namespace Logged

def user : Logged → UserId
  | .bundle published => published.userId
  | .revocation statement => statement.identity
  | .succession statement => statement.old
  | .deviceRevocation statement => statement.device

def kind : Logged → EntryKind
  | .bundle _ => .bundle
  | .revocation _ => .revocation
  | .succession _ => .succession
  | .deviceRevocation _ => .revocation

def leaf {Hash : Type} (sha256 : Sha256 Hash) : Logged → Hash
  | .bundle published => published.transparencyLeaf sha256
  | .revocation statement => statement.transparencyLeaf sha256
  | .succession statement => statement.transparencyLeaf sha256
  | .deviceRevocation statement => statement.transparencyLeaf sha256

def asRevocation : Logged → Option Revocation
  | .revocation statement => some statement
  | _ => none

def asSuccession : Logged → Option Succession
  | .succession statement => some statement
  | _ => none

def asDeviceRevocation : Logged → Option DeviceRevocation
  | .deviceRevocation statement => some statement
  | _ => none

def ofKind (user : UserId) (kind : EntryKind) (item : Logged) : Option Logged :=
  if item.user = user ∧ item.kind = kind then some item else none

end Logged

def lastLogged (user : UserId) (kind : EntryKind) (history : List Logged) : Option Logged :=
  lastSome (Logged.ofKind user kind) history

def lastSort (sort : Logged → Option α) (user : UserId) (kind : EntryKind)
    (history : List Logged) : Option α :=
  lastSome (fun item => (Logged.ofKind user kind item).bind sort) history

section Histories

variable [DecidableEq Hash] (sha256 : Sha256 Hash)

namespace Directory

/-- What one write enters in the log. -/
def entered (directory : Directory Hash) : Operation → Option Logged
  | .putBundle bundle _ =>
    if (directory.logLatest.get (subject sha256 bundle.userId)).bind Latest.bundleLeaf =
        some (bundle.transparencyLeaf sha256) then none
    else some (.bundle bundle)
  | .setRevocation revocation _ => some (.revocation revocation)
  | .setSuccession succession _ => some (.succession succession)
  | .setDeviceRevocation revocation _ =>
    if (directory.deviceRevocations.get revocation.device).isSome then none
    else some (.deviceRevocation revocation)
  | .removeDeviceRevocation _ => none
  | .removeUser _ => none

def history : List Operation → List Logged :=
  let rec go (directory : Directory Hash) : List Operation → List Logged
    | [] => []
    | operation :: rest =>
      (directory.entered sha256 operation).toList ++ go (directory.step sha256 operation) rest
  go empty

end Directory

def StandsFor (entry : LogEntry Hash) (item : Logged) : Prop :=
  entry.subject = subject sha256 item.user ∧ entry.kind = item.kind ∧ entry.leaf = item.leaf sha256

/-- The log and its index of latest positions repeat the history. -/
structure Records (directory : Directory Hash) (history : List Logged) : Prop where
  standsFor : List.Forall₂ (StandsFor sha256) directory.log history
  chains : ChainsTo sha256 directory.log (directory.logHead sha256)
  latest : ∀ subject, directory.logLatest.get subject =
    (lastAbout subject directory.log).map fun entry =>
      { position := entry.position
        bundleLeaf := (lastOfKind subject .bundle directory.log).map LogPosition.leaf }

/-- The tables hold the last statements of the history. -/
structure Holds (directory : Directory Hash) (history : List Logged) : Prop where
  bundles : ∀ user bundle, directory.bundles.get user = some bundle → bundle.userId = user ∧
      (lastLogged user .bundle history).map (Logged.leaf sha256) =
        some (bundle.transparencyLeaf sha256)
  revocations : ∀ user, directory.revocations.get user =
    lastSort Logged.asRevocation user .revocation history
  successions : ∀ user, directory.successions.get user =
    lastSort Logged.asSuccession user .succession history
  deviceRevocations : ∀ device revocation,
    directory.deviceRevocations.get device = some revocation →
      lastSort Logged.asDeviceRevocation device .revocation history = some revocation
  indexed : ∀ account device, (account, device) ∈ directory.deviceRevocationsByAccount →
    ∃ revocation, directory.deviceRevocations.get device = some revocation ∧
      revocation.account = account

end Histories

theorem lastLogged_snoc {user : UserId} {kind : EntryKind} {history : List Logged} :
    lastLogged user kind (history ++ [item]) = if item.user = user ∧ item.kind = kind then some item
      else lastLogged user kind history := by
  by_cases same : item.user = user ∧ item.kind = kind <;>
    simp [lastLogged, lastSome_snoc, Logged.ofKind, same]

theorem lastSort_snoc {user : UserId} {kind : EntryKind} {history : List Logged} :
    lastSort sort user kind (history ++ [item]) =
      ((Logged.ofKind user kind item).bind sort).or (lastSort sort user kind history) :=
  lastSome_snoc

theorem lastSort_of_lastLogged
    (sort : Logged → Option α) {user : UserId} {kind : EntryKind} {history : List Logged}
    (last : lastLogged user kind history = some item)
    (sorted : sort item = some value) :
    lastSort sort user kind history = some value :=
  lastSome_bind_of_some last sorted

theorem lastSort_eq_none {user : UserId} {kind : EntryKind} {history : List Logged}
    (nothing : lastLogged user kind history = none) :
    lastSort sort user kind history = none :=
  lastSome_bind_of_none nothing

theorem lastLogged_spec {user : UserId} {kind : EntryKind} {history : List Logged}
    (last : lastLogged user kind history = some item) :
    item ∈ history ∧ item.user = user ∧ item.kind = kind := by
  obtain ⟨_, mem, given⟩ := lastSome_mem last
  simp only [Logged.ofKind, ite_none_right_eq_some, some.injEq] at given
  obtain ⟨⟨ofUser, ofKind⟩, rfl⟩ := given
  exact ⟨mem, ofUser, ofKind⟩

theorem lastSort_snoc_other {user : UserId} {kind : EntryKind} {history : List Logged}
    (other : item.user ≠ user ∨ item.kind ≠ kind ∨ sort item = none) :
    lastSort sort user kind (history ++ [item]) = lastSort sort user kind history := by
  have nothing : (Logged.ofKind user kind item).bind sort = none := by
    unfold Logged.ofKind
    by_cases same : item.user = user ∧ item.kind = kind
    · rcases other with other | other | other
      · exact absurd same.1 other
      · exact absurd same.2 other
      · simp [same, other]
    · simp [same]
  rw [lastSort_snoc, nothing, none_or]

theorem lastSort_snoc_same {user : UserId} {kind : EntryKind} {history : List Logged}
    (owned : item.user = user) (same : item.kind = kind) (sorted : sort item = some value) :
    lastSort sort user kind (history ++ [item]) = some value := by
  rw [lastSort_snoc, Logged.ofKind, if_pos ⟨owned, same⟩, bind_some, sorted, some_or]

section Tables

namespace Holds

variable {directory : Directory Hash}

theorem empty : Holds sha256 empty [] where
  bundles := nofun
  revocations := fun _ => rfl
  successions := fun _ => rfl
  deviceRevocations := nofun
  indexed := nofun

section

variable (holds : Holds sha256 directory history)
include holds

theorem storeBundleIn (bundle : KeyBundle)
    (latest : (lastLogged bundle.userId .bundle history).map (Logged.leaf sha256) =
      some (bundle.transparencyLeaf sha256)) :
    Holds sha256 (directory.storeBundleIn bundle) history := by
  refine { holds with bundles := ?_ }
  intro user held stored
  rw [Directory.storeBundleIn, get_insert] at stored
  split at stored
  · rename_i same
    cases stored
    subst same
    exact ⟨rfl, latest⟩
  · exact holds.bundles user held stored

theorem bundles_snoc {item : Logged} (other : item.kind ≠ .bundle) :
    ∀ user bundle, directory.bundles.get user = some bundle → bundle.userId = user ∧
        (lastLogged user .bundle (history ++ [item])).map (Logged.leaf sha256) =
          some (bundle.transparencyLeaf sha256) := by
  intro user bundle held
  rw [lastLogged_snoc, if_neg fun same => other same.2]
  exact holds.bundles user bundle held

theorem snoc_bundle (bundle : KeyBundle) :
    Holds sha256 (directory.storeBundleIn bundle) (history ++ [.bundle bundle]) := by
  refine ⟨?_, ?_, ?_, ?_, holds.indexed⟩
  · intro user held stored
    rw [Directory.storeBundleIn, get_insert] at stored
    split at stored
    · rename_i same
      cases stored
      subst same
      exact ⟨rfl, by rw [lastLogged_snoc, if_pos ⟨rfl, rfl⟩]; rfl⟩
    rename_i apart
    obtain ⟨owned, last⟩ := holds.bundles user held stored
    have other : ¬((Logged.bundle bundle).user = user ∧ (Logged.bundle bundle).kind = .bundle) :=
      fun same => apart same.1.symm
    exact ⟨owned, by rw [lastLogged_snoc, if_neg other]; exact last⟩
  · intro user
    rw [lastSort_snoc_other (.inr (.inr rfl))]
    exact holds.revocations user
  · intro user
    rw [lastSort_snoc_other (.inr (.inr rfl))]
    exact holds.successions user
  intro device notice held
  rw [lastSort_snoc_other (.inr (.inr rfl))]
  exact holds.deviceRevocations device notice held

theorem setRevocation (notice : Revocation) : Holds sha256
      { directory with revocations := directory.revocations.insert notice.identity notice }
      (history ++ [.revocation notice]) := by
  refine ⟨holds.bundles_snoc nofun, ?_, ?_, ?_, holds.indexed⟩
  · intro user
    rw [get_insert]
    split
    · rename_i same
      subst same
      symm
      exact lastSort_snoc_same rfl rfl rfl
    rename_i apart
    rw [lastSort_snoc_other (.inl fun same => apart same.symm)]
    exact holds.revocations user
  · intro user
    rw [lastSort_snoc_other (.inr (.inr rfl))]
    exact holds.successions user
  intro device statement held
  rw [lastSort_snoc_other (.inr (.inr rfl))]
  exact holds.deviceRevocations device statement held

theorem setSuccession (succession : Succession) : Holds sha256
      { directory with successions := directory.successions.insert succession.old succession }
      (history ++ [.succession succession]) := by
  refine ⟨holds.bundles_snoc nofun, ?_, ?_, ?_, holds.indexed⟩
  · intro user
    rw [lastSort_snoc_other (.inr (.inr rfl))]
    exact holds.revocations user
  · intro user
    rw [get_insert]
    split
    · rename_i same
      subst same
      symm
      exact lastSort_snoc_same rfl rfl rfl
    rename_i apart
    rw [lastSort_snoc_other (.inl fun same => apart same.symm)]
    exact holds.successions user
  intro device statement held
  rw [lastSort_snoc_other (.inr (.inr rfl))]
  exact holds.deviceRevocations device statement held

theorem setDeviceRevocation (notice : DeviceRevocation)
    (unrevoked : directory.deviceRevocations.get notice.device = none) :
    Holds sha256
      { directory with
        deviceRevocations := directory.deviceRevocations.insert notice.device notice
        deviceRevocationsByAccount :=
          directory.deviceRevocationsByAccount.orderedInsert indexOrder
            (notice.account, notice.device) }
      (history ++ [.deviceRevocation notice]) := by
  refine ⟨holds.bundles_snoc nofun, ?_, ?_, ?_, ?_⟩
  · intro user
    rw [lastSort_snoc_other (.inr (.inr rfl))]
    exact holds.revocations user
  · intro user
    rw [lastSort_snoc_other (.inr (.inr rfl))]
    exact holds.successions user
  · intro device statement held
    rw [get_insert] at held
    split at held
    · rename_i same
      cases held
      subst same
      exact lastSort_snoc_same rfl rfl rfl
    rename_i apart
    rw [lastSort_snoc_other (.inl fun same => apart same.symm)]
    exact holds.deviceRevocations device statement held
  intro account device mem
  rw [mem_orderedInsert] at mem
  rcases mem with new | old
  · cases new
    exact ⟨notice, get_insert_self _ _ _, rfl⟩
  obtain ⟨statement, held, issued⟩ := holds.indexed account device old
  -- A device that has a row is not the one that gets one.
  have apart : device ≠ notice.device := by
    rintro rfl
    rw [unrevoked] at held
    cases held
  exact ⟨statement, by rw [get_insert_of_ne apart]; exact held, issued⟩

theorem removeDeviceRevocation (device : UserId) :
    Holds sha256 (directory.removeDeviceRevocation device) history := by
  unfold Directory.removeDeviceRevocation
  cases row : directory.deviceRevocations.get device with
  | none => exact holds
  | some =>
    refine { holds with deviceRevocations := ?_, indexed := ?_ }
    · intro other statement held
      rw [get_remove] at held
      split at held
      · cases held
      · exact holds.deviceRevocations other statement held
    intro account other mem
    obtain ⟨old, kept⟩ := mem_filter.mp mem
    obtain ⟨statement, held, issued⟩ := holds.indexed account other old
    have apart : other ≠ device := by
      rintro rfl
      rw [row] at held
      cases held
      simp [issued] at kept
    exact ⟨statement, by rw [get_remove_of_ne apart]; exact held, issued⟩

theorem removeUser (user : UserId) : Holds sha256 (directory.removeUser user) history := by
  refine { holds with bundles := ?_ }
  intro other bundle stored
  rw [Directory.removeUser, get_remove] at stored
  split at stored
  · cases stored
  · exact holds.bundles other bundle stored

end

end Holds

end Tables

variable [DecidableEq Hash] {sha256 : Sha256 Hash}

namespace Directory

theorem history_go_snoc
    (directory : Directory Hash) (operations : List Operation) (act : Operation) :
    history.go sha256 directory (operations ++ [act]) =
      history.go sha256 directory operations ++
        ((operations.foldl (step sha256) directory).entered sha256 act).toList := by
  induction operations generalizing directory with
  | nil => simp [history.go]
  | cons _ _ ih =>
    simp only [cons_append, history.go, foldl_cons]
    rw [ih, append_assoc]

theorem history_snoc (operations : List Operation) (act : Operation) :
    history sha256 (operations ++ [act]) =
      history sha256 operations ++ ((after sha256 operations).entered sha256 act).toList :=
  history_go_snoc empty operations act

theorem after_snoc (operations : List Operation) (act : Operation) :
    after sha256 (operations ++ [act]) = (after sha256 operations).step sha256 act := by
  simp [after]

theorem logHead_appendLog
    (directory : Directory Hash) (subject leaf : Hash) (kind : EntryKind) (nowMs : Nat) :
    (directory.appendLog sha256 subject kind leaf nowMs).logHead sha256 =
      (LogEntry.after (directory.logHead sha256) subject kind leaf nowMs).head sha256 := by
  simp [logHead, appendLog]

theorem log_step (sha256 : Sha256 Hash) (directory : Directory Hash) (act : Operation) :
    ∃ entries, (directory.step sha256 act).log = directory.log ++ entries ∧
      List.Forall₂ (StandsFor sha256) entries (directory.entered sha256 act).toList := by
  cases act with
  | putBundle bundle nowMs =>
    have sameLatest : (directory.storeBundleIn bundle).logLatest = directory.logLatest := rfl
    simp only [step, putBundle, logBundleIn, entered, sameLatest]
    split
    · exact ⟨[], (append_nil _).symm, .nil⟩
    · exact ⟨[_], rfl, .cons ⟨rfl, rfl, rfl⟩ .nil⟩
  | setRevocation _ nowMs | setSuccession _ nowMs => exact ⟨[_], rfl, .cons ⟨rfl, rfl, rfl⟩ .nil⟩
  | setDeviceRevocation notice nowMs =>
    simp only [step, setDeviceRevocation, entered]
    cases directory.deviceRevocations.get notice.device with
    | some => exact ⟨[], (append_nil _).symm, .nil⟩
    | none => exact ⟨[_], rfl, .cons ⟨rfl, rfl, rfl⟩ .nil⟩
  | removeDeviceRevocation device =>
    refine ⟨[], ?_, .nil⟩
    rw [append_nil, step, removeDeviceRevocation]
    split <;> rfl
  | removeUser => exact ⟨[], (append_nil _).symm, .nil⟩

end Directory

namespace Records

theorem empty : Records sha256 empty [] where
  standsFor := .nil
  chains := chainsTo_nil
  latest := fun _ => rfl

section

variable (records : Records sha256 directory history)
include records

theorem lastLeaf (noClash : Function.Injective sha256.digest) (user : UserId) (kind : EntryKind) :
    (lastOfKind (subject sha256 user) kind directory.log).map LogPosition.leaf =
      (lastLogged user kind history).map (Logged.leaf sha256) := by
  rw [lastOfKind, lastLogged, lastSome_map, lastSome_map]
  apply lastSome_eq_of_forall₂ records.standsFor
  rintro entry item ⟨sameSubject, sameKind, sameLeaf⟩
  have subjects : entry.subject = subject sha256 user ↔ item.user = user := by
    rw [sameSubject]
    exact ⟨subject_injective noClash, fun same => by rw [same]⟩
  simp only [Logged.ofKind, subjects, sameKind]
  by_cases wanted : item.user = user ∧ item.kind = kind
  · simp [wanted, LogEntry.position, sameLeaf]
  · simp [wanted]

theorem bundleLeaf (asked : Hash) : (directory.logLatest.get asked).bind Latest.bundleLeaf =
      (lastOfKind asked .bundle directory.log).map LogPosition.leaf := by
  rw [records.latest asked]
  cases absent : lastAbout asked directory.log with
  | none => simp [lastOfKind_eq_none_of_absent absent]
  | some => rfl

theorem appendLog (item : Logged) (nowMs : Nat) : Records sha256
      (directory.appendLog sha256 (subject sha256 item.user) item.kind (item.leaf sha256) nowMs)
      (history ++ [item]) where
  standsFor := by
    apply rel_append records.standsFor
    exact .cons ⟨rfl, rfl, rfl⟩ .nil
  chains := by
    rw [Directory.logHead_appendLog]
    exact records.chains.append (by simp)
  latest := by
    intro asked
    have before := records.latest asked
    have previous := records.bundleLeaf asked
    simp only [Directory.appendLog, lastAbout_snoc, lastOfKind_snoc, get_insert]
    by_cases same : asked = subject sha256 item.user
    · subst same
      by_cases isBundle : item.kind = .bundle
      · simp [LogEntry.after, LogEntry.position, isBundle]
      · simp [LogEntry.after, LogEntry.position, isBundle, previous]
    have apart : ¬(subject sha256 item.user = asked) := fun equal => same equal.symm
    simp [same, before, LogEntry.after, apart]

theorem congr {other : Directory Hash} (sameLog : other.log = directory.log)
    (sameLatest : other.logLatest = directory.logLatest) :
    Records sha256 other history := by
  refine ⟨?_, ?_, ?_⟩
  · rw [sameLog]
    exact records.standsFor
  · simpa [logHead, sameLog] using records.chains
  rw [sameLog, sameLatest]
  exact records.latest

end

end Records

theorem Holds.appendLog
    {directory : Directory Hash} {history : List Logged} (holds : Holds sha256 directory history)
    (subject leaf : Hash) (kind : EntryKind) (nowMs : Nat) :
    Holds sha256 (directory.appendLog sha256 subject kind leaf nowMs) history :=
  { holds with }

/-- A directory that records its history and holds the last of it. -/
structure Faithful (sha256 : Sha256 Hash) (directory : Directory Hash)
    (history : List Logged) : Prop where
  records : Records sha256 directory history
  holds : Holds sha256 directory history

namespace Faithful

theorem empty : Faithful sha256 empty [] :=
  ⟨Records.empty, Holds.empty⟩

theorem step {directory : Directory Hash} {history : List Logged}
    (faithful : Faithful sha256 directory history)
    (noClash : Function.Injective sha256.digest) (act : Operation) :
    Faithful sha256 (directory.step sha256 act)
      (history ++ (directory.entered sha256 act).toList) := by
  obtain ⟨records, holds⟩ := faithful
  cases act with
  | putBundle bundle nowMs =>
    have stored : Records sha256 (directory.storeBundleIn bundle) history := records.congr rfl rfl
    have sameLatest : (directory.storeBundleIn bundle).logLatest = directory.logLatest := rfl
    simp only [Directory.step, Directory.putBundle, Directory.logBundleIn, Directory.entered,
      sameLatest]
    split
    · rename_i unchanged
      have latest : (lastLogged bundle.userId .bundle history).map (Logged.leaf sha256) =
          some (bundle.transparencyLeaf sha256) := by
        rw [← records.lastLeaf noClash, ← unchanged, records.bundleLeaf]
      rw [toList_none, append_nil]
      exact ⟨stored, holds.storeBundleIn bundle latest⟩
    · exact ⟨stored.appendLog (.bundle bundle) nowMs, (holds.snoc_bundle bundle).appendLog ..⟩
  | setRevocation notice nowMs =>
    have table : Records sha256 { directory with
        revocations := directory.revocations.insert notice.identity notice } history :=
      records.congr rfl rfl
    exact ⟨table.appendLog (.revocation notice) nowMs, (holds.setRevocation notice).appendLog ..⟩
  | setSuccession succession nowMs =>
    have table : Records sha256 { directory with
        successions := directory.successions.insert succession.old succession } history :=
      records.congr rfl rfl
    exact ⟨table.appendLog (.succession succession) nowMs,
      (holds.setSuccession succession).appendLog ..⟩
  | setDeviceRevocation notice nowMs =>
    simp only [Directory.step, Directory.setDeviceRevocation, Directory.entered]
    cases row : directory.deviceRevocations.get notice.device with
    | some =>
      simp only [isSome_some, if_true, toList_none, append_nil]
      exact ⟨records, holds⟩
    | none =>
      have table : Records sha256 { directory with
          deviceRevocations := directory.deviceRevocations.insert notice.device notice
          deviceRevocationsByAccount :=
            directory.deviceRevocationsByAccount.orderedInsert indexOrder
              (notice.account, notice.device) } history :=
        records.congr rfl rfl
      exact ⟨table.appendLog (.deviceRevocation notice) nowMs,
        (holds.setDeviceRevocation notice row).appendLog ..⟩
  | removeDeviceRevocation device =>
    simp only [Directory.step, Directory.entered, toList_none, append_nil]
    refine ⟨?_, holds.removeDeviceRevocation device⟩
    unfold Directory.removeDeviceRevocation
    split
    · exact records
    · exact records.congr rfl rfl
  | removeUser user =>
    simp only [Directory.step, Directory.entered, toList_none, append_nil]
    exact ⟨records.congr rfl rfl, holds.removeUser user⟩

theorem after (noClash : Function.Injective sha256.digest) (operations : List Operation) :
    Faithful sha256 (after sha256 operations) (Directory.history sha256 operations) := by
  induction operations using reverseRecOn with
  | nil => exact empty
  | append_singleton _ act ih =>
    rw [Directory.after_snoc, Directory.history_snoc]
    exact ih.step noClash act

end Faithful

end Silver.Relay
