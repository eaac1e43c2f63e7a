import Silver.Relay.Directory.History

/-!
# Databases from before the log

A relay that finds a database without a transparency log enters every bundle and statement
it holds, in one transaction.  From then on, as from a new database, the log chains, its
index repeats it, and every bundle stored is the last one logged for its owner.
-/

namespace Silver.Relay

open Foundation Protocol Directory List Logged Table KeyBundle
open Function (Injective)

def SCHEMA_VERSION : Nat := 3

/-- A database from before there was a log: its rows, one for each key, in key order. -/
structure OldDatabase where
  bundles : List KeyBundle
  devices : Nat
  revocations : List Revocation
  successions : List Succession
  bundlesOnce : (bundles.map KeyBundle.userId).Nodup
  revocationsOnce : (revocations.map Revocation.identity).Nodup
  successionsOnce : (successions.map Succession.old).Nodup

section Seeding

variable [DecidableEq Hash] (sha256 : Sha256 Hash)

namespace OldDatabase

def tables (old : OldDatabase) : Directory Hash :=
  { Directory.empty with
    bundles := Table.ofRows KeyBundle.userId old.bundles
    devices := old.devices
    revocations := Table.ofRows Revocation.identity old.revocations
    successions := Table.ofRows Succession.old old.successions }

def statements (old : OldDatabase) : List Logged :=
  old.revocations.map .revocation ++ old.successions.map .succession

def logStatement (nowMs : Nat) (directory : Directory Hash) (item : Logged) : Directory Hash :=
  directory.appendLog sha256 (subject sha256 item.user) item.kind (item.leaf sha256) nowMs

def seedLog (old : OldDatabase) (nowMs : Nat) (directory : Directory Hash) : Directory Hash :=
  if 0 < (directory.logHead sha256).index then directory
  else
    old.statements.foldl (logStatement sha256 nowMs)
      (old.bundles.foldl (fun directory bundle => directory.logBundleIn sha256 bundle nowMs)
        directory)

def migrate (old : OldDatabase) (nowMs : Nat) (directory : Directory Hash) :
    Nat → Option (Directory Hash)
  | 0 => some directory
  | 1 => some (old.seedLog sha256 nowMs directory)
  | 2 => some directory
  | _ => none

end OldDatabase

def Directory.init (nowMs : Nat) : Option (Nat × OldDatabase) → Option (Directory Hash)
  | none => some Directory.empty
  | some (version, old) =>
    (List.range' version (SCHEMA_VERSION - version)).foldlM (old.migrate sha256 nowMs) old.tables

end Seeding

section Seeded

variable [DecidableEq Hash] {sha256 : Sha256 Hash}
variable {directory : Directory Hash} {history : List Logged}

theorem get_ofRows
    {Key Value : Type} [DecidableEq Key] (key : Value → Key) (rows : List Value) (asked : Key) :
    (ofRows key rows).get asked =
      lastSome (fun row => if key row = asked then some row else none) rows := by
  induction rows using reverseRecOn with
  | nil => rfl
  | append_singleton before row ih =>
    have snoc : ofRows key (before ++ [row]) = (ofRows key before).insert (key row) row := by
      simp [ofRows]
    rw [snoc, get_insert, lastSome_snoc, ih]
    by_cases same : asked = key row
    · simp [same]
    · rw [if_neg same, if_neg (Ne.symm same), Option.none_or]

theorem Holds.logBundleIn
    (holds : Holds sha256 directory history) (bundle : KeyBundle) (nowMs : Nat) :
    Holds sha256 (directory.logBundleIn sha256 bundle nowMs) history := by
  unfold Directory.logBundleIn
  dsimp only
  split
  · exact holds
  · exact holds.appendLog ..

theorem Records.logBundleIn {bundle : KeyBundle} (records : Records sha256 directory history)
    (noClash : Injective sha256.digest)
    (first : lastLogged bundle.userId .bundle history = none) (nowMs : Nat) :
    Records sha256 (directory.logBundleIn sha256 bundle nowMs) (history ++ [.bundle bundle]) := by
  have unlogged : (directory.logLatest.get (subject sha256 bundle.userId)).bind
      Latest.bundleLeaf = none := by
    rw [records.bundleLeaf, records.lastLeaf noClash, first]
    rfl
  unfold Directory.logBundleIn
  dsimp only
  rw [unlogged, if_neg (by simp)]
  exact records.appendLog (.bundle bundle) nowMs

namespace OldDatabase

theorem records_bundles (noClash : Injective sha256.digest)
    {bundles : List KeyBundle} {directory : Directory Hash} {history : List Logged}
    (records : Records sha256 directory history) (once : (bundles.map userId).Nodup)
    (first : ∀ bundle ∈ bundles, lastLogged bundle.userId .bundle history = none) (nowMs : Nat) :
    Records sha256
      (bundles.foldl (fun directory bundle => directory.logBundleIn sha256 bundle nowMs) directory)
      (history ++ bundles.map .bundle) := by
  induction bundles generalizing directory history with
  | nil => simpa using records
  | cons bundle rest ih =>
    obtain ⟨fresh, restOnce⟩ := nodup_cons.mp once
    have logged := records.logBundleIn noClash (first bundle (.head _)) nowMs
    have later : ∀ other ∈ rest,
        lastLogged other.userId .bundle (history ++ [.bundle bundle]) = none := by
      intro other mem
      rw [lastLogged_snoc, if_neg, first other (.tail _ mem)]
      rintro ⟨same, -⟩
      exact fresh (mem_map.mpr ⟨other, mem, same.symm⟩)
    have done := ih logged restOnce later
    simpa using done

theorem records_statements {items history : List Logged} {directory : Directory Hash}
    (records : Records sha256 directory history) (nowMs : Nat) :
    Records sha256 (items.foldl (logStatement sha256 nowMs) directory) (history ++ items) := by
  induction items generalizing directory history with
  | nil => simpa using records
  | cons item _ ih =>
    have done := ih (records.appendLog item nowMs)
    rw [append_assoc] at done
    exact done

theorem lastLogged_bundle (old : OldDatabase) (user : UserId) :
    lastLogged user .bundle (old.bundles.map .bundle ++ old.statements) =
      ((Table.ofRows userId old.bundles).get user).map .bundle := by
  have statements : lastSome (ofKind user .bundle) old.statements = none := by
    refine lastSome_eq_none.mpr fun item mem => if_neg fun same => ?_
    rcases mem_append.mp mem with listed | listed
    · obtain ⟨_, -, rfl⟩ := mem_map.mp listed
      cases same.2
    obtain ⟨_, -, rfl⟩ := mem_map.mp listed
    cases same.2
  rw [lastLogged, lastSome_append, statements, Option.none_or, lastSome_of_map, get_ofRows,
    lastSome_map]
  congr 1
  funext bundle
  by_cases own : bundle.userId = user <;> simp [Logged.ofKind, Logged.user, Logged.kind, own]

theorem lastSort_statements
    {Statement : Type} {owner : Statement → UserId} {wrap : Statement → Logged}
    {sort : Logged → Option Statement} {kind : EntryKind}
    {rows : List Statement} {before later : List Logged} {user : UserId}
    (sorted : ∀ row, (ofKind user kind (wrap row)).bind sort =
      if owner row = user then some row else none)
    (othersBefore : ∀ item ∈ before, (ofKind user kind item).bind sort = none)
    (othersLater : ∀ item ∈ later, (ofKind user kind item).bind sort = none) :
    lastSort sort user kind (before ++ (rows.map wrap ++ later)) =
      (ofRows owner rows).get user := by
  rw [lastSort, lastSome_append, lastSome_append, lastSome_eq_none.mpr othersBefore,
    lastSome_eq_none.mpr othersLater, Option.none_or, Option.or_none, lastSome_of_map, get_ofRows]
  congr 1
  funext row
  exact sorted row

omit [DecidableEq Hash] in
theorem holds_tables (old : OldDatabase) :
    Holds sha256 old.tables (old.bundles.map .bundle ++ old.statements) where
  bundles user bundle held := by
    constructor
    · rw [tables, get_ofRows] at held
      obtain ⟨_, -, given⟩ := lastSome_mem held
      split at given
      next own =>
        cases given
        exact own
      · cases given
    have stored : (ofRows userId old.bundles).get user = some bundle := held
    rw [lastLogged_bundle, stored]
    rfl
  revocations user := by
    refine (lastSort_statements (fun notice => ?_) ?_ ?_).symm
    · by_cases own : notice.identity = user <;>
        simp [Logged.ofKind, Logged.user, Logged.kind, Logged.asRevocation, own]
    · intro item mem
      obtain ⟨bundle, -, rfl⟩ := mem_map.mp mem
      simp [ofKind, kind]
    intro item mem
    obtain ⟨succession, -, rfl⟩ := mem_map.mp mem
    simp [ofKind, kind]
  successions user := by
    have split : old.bundles.map bundle ++ old.statements =
        (old.bundles.map bundle ++ old.revocations.map .revocation) ++
          (old.successions.map .succession ++ []) := by
      simp [statements]
    rw [split]
    refine (lastSort_statements (fun succession => ?_) ?_ ?_).symm
    · by_cases own : succession.old = user <;>
        simp [Logged.ofKind, Logged.user, Logged.kind, Logged.asSuccession, own]
    · intro item mem
      rcases mem_append.mp mem with listed | listed
      · obtain ⟨bundle, -, rfl⟩ := mem_map.mp listed
        simp [ofKind, kind]
      obtain ⟨notice, -, rfl⟩ := mem_map.mp listed
      simp [ofKind, kind]
    · simp
  deviceRevocations device notice held := by cases held
  indexed account device mem := by cases mem

theorem faithful_seedLog (noClash : Injective sha256.digest) (old : OldDatabase) (nowMs : Nat) :
    Faithful sha256 (old.seedLog sha256 nowMs old.tables)
      (old.bundles.map .bundle ++ old.statements) := by
  have records : Records sha256 old.tables [] := ⟨.nil, chainsTo_nil, fun _ => rfl⟩
  have logged := records_bundles noClash records old.bundlesOnce (fun _ _ => rfl) nowMs
  unfold seedLog
  rw [if_neg (by simp [tables, Directory.logHead, Directory.empty, LogHead.EMPTY])]
  refine ⟨records_statements logged nowMs, ?_⟩
  let kept := fun directory => Holds sha256 directory (old.bundles.map .bundle ++ old.statements)
  have bundlesLogged :=
    foldlRecOn (motive := kept) old.bundles _ old.holds_tables fun _ holds bundle _ =>
      holds.logBundleIn bundle nowMs
  exact foldlRecOn (motive := kept) old.statements _ bundlesLogged
    fun _ holds _ _ => holds.appendLog ..

end OldDatabase

theorem Directory.faithful_init (noClash : Injective sha256.digest)
    (unlogged : ∀ version old, found = some (version, old) → version < 2)
    (opened : init sha256 nowMs found = some directory) :
    ∃ history, Faithful sha256 directory history := by
  match found with
  | none =>
    cases opened
    exact ⟨[], Faithful.empty⟩
  | some (version, old) =>
    have seeded : init sha256 nowMs (some (version, old)) =
        some (old.seedLog sha256 nowMs old.tables) := by
      match version, unlogged version old rfl with
      | 0, _ | 1, _ => rfl
    rw [seeded] at opened
    cases opened
    exact ⟨_, old.faithful_seedLog noClash nowMs⟩

theorem Faithful.steps (noClash : Injective sha256.digest)
    (faithful : Faithful sha256 directory history) (operations : List Operation) :
    ∃ later, Faithful sha256 (operations.foldl (Directory.step sha256) directory) later := by
  induction operations generalizing directory history with
  | nil => exact ⟨history, faithful⟩
  | cons act _ ih => exact ih (faithful.step noClash act)

/-- The log is a chain, its index repeats it, and it covers every bundle stored. -/
structure Directory.Covered (sha256 : Sha256 Hash) (directory : Directory Hash) : Prop where
  indices : ∀ (position : Nat) (entry : LogEntry Hash),
    directory.log[position]? = some entry → entry.index = position + 1
  follows : ∀ (position : Nat) (entry : LogEntry Hash), directory.log[position]? = some entry →
      entry.follows (headAt sha256 directory.log position) = true
  head : directory.logHead sha256 = headAt sha256 directory.log directory.log.length
  latest : ∀ subject, directory.logLatest.get subject =
    (lastAbout subject directory.log).map fun entry =>
      { position := entry.position
        bundleLeaf := (lastOfKind subject .bundle directory.log).map LogPosition.leaf }
  bundles : ∀ user bundle, directory.bundles.get user = some bundle →
    (lastOfKind (subject sha256 user) .bundle directory.log).map LogPosition.leaf =
      some (bundle.transparencyLeaf sha256)
  unchanged : ∀ (bundle : KeyBundle) (nowMs : Nat),
    (lastOfKind (subject sha256 bundle.userId) .bundle directory.log).map LogPosition.leaf =
      some (bundle.transparencyLeaf sha256) →
    (directory.putBundle sha256 bundle nowMs).log = directory.log

theorem Faithful.covered (noClash : Injective sha256.digest)
    (faithful : Faithful sha256 directory history) :
    directory.Covered sha256 where
  indices _ _ stands := faithful.records.chains.index_entry stands
  follows _ _ stands := (extend_eq_some.mp (faithful.records.chains.extend_headAt stands)).1
  head := faithful.records.chains.eq_headAt
  latest := faithful.records.latest
  bundles user bundle stored := by
    rw [faithful.records.lastLeaf noClash]
    exact (faithful.holds.bundles user bundle stored).2
  unchanged bundle nowMs last := by
    have noted := (faithful.records.bundleLeaf (subject sha256 bundle.userId)).trans last
    have skipped : directory.putBundle sha256 bundle nowMs = directory.storeBundleIn bundle :=
      if_pos noted
    rw [skipped]
    rfl

/-- After every sequence of writes to a database that was new, or had no log before it was
opened, the log chains from its first entry, its index repeats it, every bundle stored is
the last one logged for its owner, and storing that one again adds nothing. -/
theorem log_faithful (collisionFree : Function.Injective sha256.digest)
    {nowMs : Nat} {found : Option (Nat × OldDatabase)} {directory : Directory Hash}
    (unlogged : ∀ version old, found = some (version, old) → version < 2)
    (opened : Directory.init sha256 nowMs found = some directory) (operations : List Operation) :
    (operations.foldl (Directory.step sha256) directory).Covered sha256 := by
  obtain ⟨_, faithful⟩ := faithful_init collisionFree unlogged opened
  obtain ⟨_, kept⟩ := faithful.steps collisionFree operations
  exact kept.covered collisionFree

end Seeded

/-- A database with the bundles of two identities, one of them revoked. -/
def twoIdentities : OldDatabase where
  bundles := [⟨Bytes.fill 32 1, Bytes.fill 32 0, Bytes.fill 64 0, none, [], none, [], none, none⟩,
    ⟨Bytes.fill 32 2, Bytes.fill 32 0, Bytes.fill 64 0, none, [], none, [], none, none⟩]
  devices := 0
  revocations := [⟨Bytes.fill 32 2, 5, Bytes.fill 64 0⟩]
  successions := []
  bundlesOnce := by decide
  revocationsOnce := by decide
  successionsOnce := by decide

/-- The old database is opened with three entries; removing an identity adds none. -/
theorem two_identities_logged :
    ((Directory.init Sha256.plain 9 (some (0, twoIdentities))).any fun directory =>
      directory.log.length = 3) = true ∧
    ∀ directory, Directory.init Sha256.plain 9 (some (0, twoIdentities)) = some directory →
      ([Operation.removeUser (Bytes.fill 32 1)].foldl (Directory.step Sha256.plain)
        directory).Covered Sha256.plain :=
  ⟨by decide +kernel, fun _ opened =>
    log_faithful (fun _ _ same => same) (fun _ _ same => by cases same; decide) opened _⟩

end Silver.Relay
