import Silver.Client.Store.Chronicle

/-!
# Putting some of a directory's files back

Somebody without the key replaces files of a closed directory by copies the same
files have had.  While every write starts with no file ahead of the record, and
the vault put back carries a number, what the next unlock lets be read is what
the directory held at one single moment.
-/

namespace Silver.Client

open Foundation Action Disk FileImage Machine Table
open Option (map_some map_none)

variable {disk : Disk} {record : State}

def Moment (initial : Machine) (actions : List Action) (disk : Disk) : Prop :=
  ∃ machine, Reached Machine.step initial actions machine ∧ machine.disk = disk

theorem moment_snoc {next : Machine} (ended : run step initial actions = some last)
    (ran : last.step action = some next) :
    Moment initial (actions ++ [action]) = Later (Moment initial actions) next.disk := by
  funext disk
  refine propext ⟨?_, ?_⟩
  · rintro ⟨machine, reached, rfl⟩
    rcases (reached_snoc ended ran).mp reached with before | rfl
    · exact .inl ⟨machine, before, rfl⟩
    · exact .inr rfl
  rintro (⟨machine, before, rfl⟩ | rfl)
  · exact ⟨machine, (reached_snoc ended ran).mpr (.inl before), rfl⟩
  · exact ⟨next, (reached_snoc ended ran).mpr (.inr rfl), rfl⟩

/-- A directory that has never been bound: no record, no number in the vault,
and no file past the generation an adoption cut short leaves. -/
structure Disk.Unbound (disk : Disk) : Prop where
  state : disk.state = none
  previous : disk.statePrevious = none
  vault : disk.stateGeneration = none
  early : ∀ name image, disk.files.get name = some image -> image.generation.getD FIRST = FIRST

def Disk.Settles (disk : Disk) (record : State) : Prop :=
  ∀ name, disk.Holds record name ∨ disk.AheadOf record name

namespace Machine

def Guarded (machine : Machine) : Action -> Prop
  | .writeFile _ _ | .noteHistoryWrite _ _ _ | .forgetHistoryFile _ => machine.NoneAhead none
  | .clearSessions _ => False
  | .crash => WithinReach machine.disk.state machine.disk.stateGeneration
  | .unlock | .persist => True

instance (machine : Machine) : (action : Action) -> Decidable (machine.Guarded action)
  | .writeFile _ _ | .noteHistoryWrite _ _ _ | .forgetHistoryFile _ =>
    inferInstanceAs (Decidable (machine.NoneAhead none))
  | .clearSessions _ => inferInstanceAs (Decidable False)
  | .crash => inferInstanceAs (Decidable (WithinReach _ _))
  | .unlock | .persist => inferInstanceAs (Decidable True)

/-- Where a write stands, given the newest record and the vault's number. -/
def Underway (machine : Machine) (newest : State) (anchor : Nat) : Prop :=
  match machine.phase with
  | .closed =>
    (newest.generation = anchor ∨ newest.generation = anchor + 1) ∧ machine.disk.Settles newest
  | .unlocked (.bound record) =>
    record = newest ∧ (newest.generation = anchor ∨ newest.generation = anchor + 1) ∧
      machine.disk.Settles newest
  | .unlocked _ => False
  | .keeping next | .storing next =>
    (newest.generation = anchor ∨ newest.generation = anchor + 1) ∧
      machine.disk.Settles newest ∧ next.generation = newest.generation + 1 ∧
      COVERS_LOG_AND_OUTBOX <= next.covers ∧ ∀ name, machine.disk.Holds next name
  | .raising next =>
    next = newest ∧ (newest.generation = anchor + 1 ∨ newest.generation = anchor + 2) ∧
      ∀ name, machine.disk.Holds newest name

/-- A bound directory and the moments it has been through. -/
structure Traced (seen : Disk -> Prop) (machine : Machine) (newest : State) (anchor : Nat) :
    Prop where
  chronicle : Chronicle seen newest machine.disk.files
  present : seen machine.disk
  state : machine.disk.state = some newest
  vault : machine.disk.stateGeneration = some anchor
  underway : machine.Underway newest anchor

end Machine

theorem Disk.Settles.opens
    {anchor : Nat} (settles : disk.Settles record) (covers : COVERS_LOG_AND_OUTBOX <= record.covers)
    (state : disk.state = some record) (vault : disk.stateGeneration = some anchor)
    (vouched : record.generation = anchor ∨ record.generation = anchor + 1) :
    disk.Opens record := by
  refine ⟨covers, .current state vault vouched, fun name => ?_⟩
  rcases settles name with holds | ahead
  · exact holds.matches.allows
  intro _ held
  rw [AheadOf, held, Option.bind_some] at ahead
  exact ⟨_, ahead, .inr rfl⟩

namespace Machine

section Steps

section

variable (traced : Traced seen machine newest anchor)
include traced

theorem Traced.moveOn {phase : Phase} (underway : Underway { machine with phase } newest anchor) :
    Traced (Later seen machine.disk) { machine with phase } newest anchor :=
  { traced with
    chronicle := traced.chronicle.still traced.present rfl fun _ held =>
      ⟨machine.disk, traced.present, held⟩
    present := .inr rfl
    underway }

theorem Traced.unlocked (phase : machine.phase = .unlocked generations) :
    generations = .bound newest ∧ (newest.generation = anchor ∨ newest.generation = anchor + 1) ∧
      machine.disk.Settles newest := by
  have underway := traced.underway
  cases generations with
  | bound =>
    simp only [Underway, phase] at underway
    exact ⟨congrArg Generations.bound underway.1, underway.2⟩
  | unbound | unreadable => simp only [Underway, phase] at underway

theorem Traced.holds
    (phase : machine.phase = .unlocked (.bound newest)) (guarded : machine.NoneAhead none) :
    (∀ name, ¬ machine.disk.AheadOf newest name) ∧ ∀ name, machine.disk.Holds newest name := by
  have noneAhead : ∀ name, ¬ machine.disk.AheadOf newest name := fun name =>
    guarded newest (by simp [record, phase]) name (mem_recryptedFiles name) (by simp)
  obtain ⟨-, -, settles⟩ := traced.unlocked phase
  exact ⟨noneAhead, fun name => (settles name).resolve_right (noneAhead name)⟩

theorem Traced.crash (guarded : machine.Guarded .crash) :
    Traced (Later seen machine.disk) { machine with phase := .closed } newest anchor := by
  refine traced.moveOn (?_)
  have underway := traced.underway
  cases phase : machine.phase with
  | closed =>
    simp only [Underway, phase] at underway
    exact underway
  | unlocked => exact (traced.unlocked phase).2
  | keeping next | storing next =>
    simp only [Underway, phase] at underway
    exact ⟨underway.1, underway.2.1⟩
  | raising next =>
    simp only [Underway, phase] at underway
    obtain ⟨-, _, holds⟩ := underway
    simp only [Guarded, WithinReach, traced.state, traced.vault] at guarded
    exact ⟨.inr (by omega), fun name => .inl (holds name)⟩

theorem Traced.writeFile
    (phase : machine.phase = .unlocked (.bound newest)) (guarded : machine.NoneAhead none)
    (name : FileName) (bytes : List UInt8) :
    Traced (Later seen (writeFile machine.disk (.bound newest) name bytes).disk)
      (writeFile machine.disk (.bound newest) name bytes) newest anchor := by
  obtain ⟨-, vouched, -⟩ := traced.unlocked phase
  obtain ⟨noneAhead, holds⟩ := traced.holds phase guarded
  refine ⟨traced.chronicle.write traced.present noneAhead holds name bytes, .inr rfl, traced.state,
    traced.vault, vouched, fun other => ?_, rfl,
    traced.chronicle.covers newest traced.chronicle.recorded, fun other => ?_⟩
  · by_cases same : other = name
    · subst same
      exact .inr (by simp [Disk.AheadOf, Machine.writeFile, writeAtomic, FileImage.generation])
    exact .inl (by simpa [Disk.Holds, Machine.writeFile, writeAtomic,
      get_insert_of_ne same] using holds other)
  by_cases same : other = name
  · subst same
    simp [Disk.Holds, Machine.writeFile, writeAtomic, State.wrote, FileImage.generation]
  simpa [Disk.Holds, Machine.writeFile, writeAtomic, State.wrote,
    Table.get_insert_of_ne same] using holds other

theorem Traced.step (guarded : machine.Guarded action) (ran : machine.step action = some next) :
    ∃ newest anchor, Traced (Later seen next.disk) next newest anchor := by
  have underway := traced.underway
  have covers := traced.chronicle.covers newest traced.chronicle.recorded
  cases steps_of_step ran with
  | crash => exact ⟨newest, anchor, traced.crash guarded⟩
  | unlock phase =>
    simp only [Underway, phase] at underway
    obtain ⟨vouched, settles⟩ := underway
    rw [(settles.opens covers traced.state traced.vault vouched).unlock]
    exact ⟨newest, anchor, traced.moveOn ⟨rfl, vouched, settles⟩⟩
  | writeFile name bytes phase =>
    obtain ⟨rfl, -⟩ := traced.unlocked phase
    exact ⟨newest, anchor, traced.writeFile phase guarded name bytes⟩
  | @recordHistory _ _ change records phase =>
    obtain ⟨rfl, vouched, settles⟩ := traced.unlocked phase
    have noneAhead : machine.NoneAhead none := by
      rcases records with ⟨file, _, bytes, rfl, -⟩ | ⟨file, rfl, -⟩
      · exact guarded
      · exact guarded
    obtain ⟨-, holds⟩ := traced.holds phase noneAhead
    obtain ⟨files, sameCovers⟩ := records.frame newest
    refine ⟨newest, anchor, traced.moveOn (show _ ∧ _ ∧ _ ∧ _ ∧ _ from
      ⟨vouched, settles, rfl, sameCovers ▸ covers, fun name => ?_⟩)⟩
    rw [Disk.Holds, show ({ change newest with generation := _ } : State).files = _ from files]
    exact holds name
  | clearSessions name phase => exact guarded.elim
  | @keep record phase =>
    simp only [Underway, phase] at underway
    have kept : machine.disk.keepPrevious = { machine.disk with statePrevious := some newest } := by
      simp only [keepPrevious, traced.state]
    rw [kept]
    refine ⟨newest, anchor, traced.chronicle.still traced.present rfl ?_, .inr rfl, traced.state,
      traced.vault, underway⟩
    rintro other (held | held)
    · exact ⟨machine.disk, traced.present, .inl held⟩
    cases held
    exact traced.chronicle.recorded
  | @store record phase =>
    simp only [Underway, phase] at underway
    obtain ⟨vouched, -, generation, nextCovers, holds⟩ := underway
    refine ⟨record, anchor, traced.chronicle.record traced.present generation nextCovers holds,
      .inr rfl, rfl, traced.vault, rfl, ?_, holds⟩
    omega
  | @raise record phase =>
    simp only [Underway, phase] at underway
    obtain ⟨rfl, -, holds⟩ := underway
    refine ⟨record, record.generation, traced.chronicle.still traced.present rfl ?_, .inr rfl,
      traced.state, rfl, rfl, .inl rfl, fun name => .inl (holds name)⟩
    exact fun other held => ⟨machine.disk, traced.present, held⟩

end

end Steps

end Machine

theorem Disk.holds_unlock (unanchored : disk.stateGeneration = none) (name : FileName) :
    disk.unlock.2.Holds disk.adopted name := by
  rw [Holds, files_unlock unanchored, files_adopted]
  cases disk.files.get name with
  | none => rfl
  | some image => exact congrArg some (generation_stamp_encrypt image)

theorem Disk.Unbound.chronicle (unbound : disk.Unbound) :
    Chronicle (Later (· = disk) disk.unlock.2) disk.adopted disk.unlock.2.files := by
  obtain ⟨-, held, -, covers⟩ := disk.unlock_eq_bound unbound.vault
  have first : disk.adopted.generation = FIRST := generation_adopted unbound.early
  have previous := (statePrevious_unlock unbound.vault unbound.state).trans unbound.previous
  have records : ∀ record, RecordedIn (Later (· = disk) disk.unlock.2) record ->
      record = disk.adopted := by
    intro record within
    rcases recordedIn_later.mp within with ⟨_, rfl, kept | kept⟩ | kept | kept
    · rw [unbound.state] at kept
      cases kept
    · rw [unbound.previous] at kept
      cases kept
    · exact Option.some.inj (kept.symm.trans held)
    rw [previous] at kept
    cases kept
  have versions : ∀ name generation bytes,
      VersionIn (Later (· = disk) disk.unlock.2) name generation bytes ->
      generation = FIRST ∧ disk.contents name = some bytes := by
    intro name generation bytes within
    rcases versionIn_later.mp within with ⟨_, rfl, was⟩ | became
    · exact ⟨unbound.early name _ was, by rw [contents, was]; rfl⟩
    rw [files_unlock unbound.vault] at became
    obtain ⟨image, was, stamped⟩ := Option.map_eq_some_iff.mp became
    have carried := image.generation_stamp_encrypt
    rw [stamped, unbound.early name image was] at carried
    refine ⟨Option.some.inj carried, ?_⟩
    rw [contents, was, map_some, ← image.bytes_encrypt, ← image.encrypt.bytes_stamp, stamped]
    rfl
  refine ⟨⟨_, .inr rfl, .inl held⟩, ?_, ?_, ?_, ?_, ?_, ?_, ?_, ?_, ?_⟩
  · intro record within
    exact Nat.le_of_eq (by rw [records record within])
  · intro record within
    exact Nat.le_of_eq (by rw [records record within, covers])
  · intro record other one two _
    rw [records record one, records other two]
  · intro name generation bytes others one two
    have same := (versions _ _ _ one).2.symm.trans (versions _ _ _ two).2
    exact Option.some.inj same
  · intro name generation bytes within
    exact .inl (Nat.le_of_eq (by rw [(versions _ _ _ within).1, first]))
  · intro record within
    rw [records record within]
    exact ⟨_, .inr rfl, holds_unlock unbound.vault⟩
  · intro record name bytes within version
    have reached := (versions _ _ _ version).1
    rw [records record within, first] at reached
    omega
  · intro record name other bytes others within version
    have reached := (versions _ _ _ version).1
    rw [records record within, first] at reached
    omega
  rintro name absent _ (rfl | rfl)
  · rw [files_unlock unbound.vault] at absent
    exact Option.map_eq_none_iff.mp absent
  · exact absent

theorem traced_of_run (closed : initial.phase = .closed) (unbound : initial.disk.Unbound)
    (guarded : EachState step Machine.Guarded initial actions)
    (ended : run step initial actions = some final) :
    (∀ disk, Moment initial actions disk ↔ disk = initial.disk) ∨
      ∃ newest anchor, Machine.Traced (Moment initial actions) final newest anchor := by
  let relates := fun before machine =>
    run step initial before = some machine ∧
      (machine.phase = .closed ∧ machine.disk = initial.disk ∧
          (∀ disk, Moment initial before disk ↔ disk = initial.disk) ∨
        ∃ newest anchor, Machine.Traced (Moment initial before) machine newest anchor)
  have start : relates [] initial := by
    refine ⟨rfl, .inl ⟨closed, rfl, fun disk => ?_⟩⟩
    constructor
    · rintro ⟨machine, reached, rfl⟩
      rw [reached_nil.mp reached]
    rintro rfl
    exact ⟨initial, reached_nil.mpr rfl, rfl⟩
  have extend : ∀ before action machine next, relates before machine ->
      machine.Guarded action -> machine.step action = some next ->
      relates (before ++ [action]) next := by
    rintro before action machine next ⟨reached, waiting | ⟨newest, anchor, traced⟩⟩ met ran
    · obtain ⟨phase, same, only⟩ := waiting
      have moments : Moment initial before = (· = initial.disk) := by
        funext disk
        exact propext (only disk)
      refine ⟨by rw [run_snoc, reached]; exact ran, ?_⟩
      rw [moment_snoc reached ran, moments]
      cases steps_of_step ran with
      | crash =>
        refine .inl ⟨rfl, same, fun disk => ?_⟩
        rw [Later, same, or_self]
      | unlock =>
        rw [same]
        obtain ⟨bound, held, vault, -⟩ := initial.disk.unlock_eq_bound unbound.vault
        refine .inr ⟨initial.disk.adopted, _, unbound.chronicle, .inr rfl, held, vault, ?_⟩
        rw [bound]
        exact ⟨rfl, .inl rfl, fun name => .inl (holds_unlock unbound.vault name)⟩
      | writeFile _ _ other | recordHistory _ other | clearSessions _ other | keep other
      | store other | raise other => cases phase.symm.trans other
    refine ⟨by rw [run_snoc, reached]; exact ran, .inr ?_⟩
    rw [moment_snoc reached ran]
    exact traced.step met ran
  obtain ⟨-, ⟨-, -, only⟩ | traced⟩ := EachState.run_relates guarded start extend ended
  · exact .inl only
  · exact .inr traced

/-- A directory in which any of the vault, the two copies of the record and the
files have been replaced by copies they had at moments of a run. -/
structure PutBack (initial final : Machine) (actions : List Action) (disk : Disk) : Prop where
  vault : ∃ moment, Moment initial actions moment ∧ disk.stateGeneration = moment.stateGeneration
  state : ∃ moment, Moment initial actions moment ∧ disk.state = moment.state
  previous : ∃ moment, Moment initial actions moment ∧ disk.statePrevious = moment.statePrevious
  files : ∀ name, ∃ moment, Moment initial actions moment ∧
    disk.files.get name = moment.files.get name ∧
    (moment.files.get name = none -> final.disk.files.get name = none)

theorem Disk.mem_of_readGenerations
    {anchor : Nat} (taken : disk.readGenerations anchor = .ok record) :
    disk.state = some record ∨ disk.statePrevious = some record := by
  have copied : ∀ file copy, readRecord file copy anchor = .ok record -> copy = some record := by
    intro file copy read
    cases copy with
    | none => cases read
    | some state =>
      simp only [readRecord] at read
      split at read
      · exact congrArg some (Except.ok.inj read)
      · cases read
  unfold readGenerations at taken
  split at taken
  · rename_i current read
    cases taken
    exact .inl (copied _ _ read)
  split at taken
  · rename_i older read
    cases taken
    exact .inr (copied _ _ read)
  · cases taken

theorem Disk.version_of_readFile {read : Option (List UInt8)}
    (succeeds : disk.sealStragglers.readFile (.bound record) name = .ok read) :
    disk.files.get name = none ∧ read = none ∨
      ∃ generation bytes, disk.files.get name = some (.sealed (some generation) bytes) ∧
        read = some bytes ∧
        (record.files.get name = some generation ∨ generation = record.generation + 1) := by
  have files : disk.sealStragglers.files.get name = (disk.files.get name).map encrypt :=
    get_map _ _ _
  cases held : disk.files.get name with
  | none =>
    rw [held, map_none] at files
    simp only [readFile, files, Except.ok.injEq] at succeeds
    exact .inl ⟨rfl, succeeds.symm⟩
  | some image =>
    rw [held, map_some] at files
    cases image with
    | plain bytes =>
      obtain ⟨-, _, never, -⟩ := (readFile_bound_eq_ok files).mp succeeds
      cases never
    | «sealed» generation bytes =>
      obtain ⟨rfl, carried, rfl, allowed⟩ := (readFile_bound_eq_ok files).mp succeeds
      exact .inr ⟨carried, bytes, rfl, rfl, allowed⟩

theorem Disk.absent_of_readFile {read : Option (List UInt8)}
    (succeeds : disk.sealStragglers.readFile (.unreadable trouble) name = .ok read) :
    disk.files.get name = none ∧ read = none := by
  have files : disk.sealStragglers.files.get name = (disk.files.get name).map encrypt :=
    get_map _ _ _
  cases held : disk.files.get name with
  | none =>
    rw [held, map_none] at files
    simp only [readFile, files, Except.ok.injEq] at succeeds
    exact ⟨rfl, succeeds.symm⟩
  | some image =>
    rw [held, map_some] at files
    cases image with
    | plain bytes =>
      simp only [readFile, files, encrypt] at succeeds
      cases succeeds
    | «_» _ bytes =>
      simp only [readFile, files, encrypt] at succeeds
      cases succeeds

section

variable {files : Table FileName FileImage} (chronicle : Chronicle seen newest files)
include chronicle

theorem Chronicle.contents_eq {generation : Nat} {bytes : List UInt8} (present : seen moment)
    (holds : moment.Holds record name) (recorded : record.files.get name = some generation)
    (version : VersionIn seen name generation bytes) :
    moment.contents name = some bytes := by
  obtain ⟨others, held⟩ := holds.image recorded
  have same := chronicle.oneVersion name generation others bytes ⟨moment, present, held⟩ version
  rw [contents, held, ← same]
  rfl

theorem Chronicle.one_moment
    {read : FileName -> Option (List UInt8)} (recorded : RecordedIn seen record)
    (entries : ∀ name, files.get name = none ∧ read name = none ∨
      ∃ generation bytes, VersionIn seen name generation bytes ∧ read name = some bytes ∧
        (record.files.get name = some generation ∨ generation = record.generation + 1)) :
    ∃ moment, seen moment ∧ ∀ name, read name = moment.contents name := by
  -- A file the moment holds as recorded agrees with what is read, unless it is past the record.
  have agrees : ∀ moment, seen moment -> ∀ name, moment.Holds record name ->
      (∀ bytes, read name = some bytes -> ¬ VersionIn seen name (record.generation + 1) bytes) ->
      read name = moment.contents name := by
    intro moment present name holds notPast
    rcases entries name with ⟨absent, nothing⟩ | ⟨generation, bytes, version, reads, allowed⟩
    · rw [nothing, contents, chronicle.lasting name absent moment present, map_none]
    rcases allowed with level | rfl
    · rw [reads, chronicle.contents_eq present holds level version]
    · exact absurd version (notPast bytes reads)
  by_cases past : ∃ name bytes, read name = some bytes ∧
      VersionIn seen name (record.generation + 1) bytes
  · obtain ⟨ahead, bytes, reads, version⟩ := past
    obtain ⟨moment, present, held, others⟩ :=
      chronicle.pastRecord record ahead bytes recorded version
    refine ⟨moment, present, fun name => ?_⟩
    by_cases same : name = ahead
    · rw [same, reads, contents, held]
      rfl
    refine agrees moment present name (others name same) fun content _ alsoPast => same ?_
    exact chronicle.onePast record name ahead content bytes recorded alsoPast version
  obtain ⟨moment, present, holds⟩ := chronicle.atRecord record recorded
  refine ⟨moment, present, fun name => agrees moment present name (holds name) ?_⟩
  exact fun bytes reads version => past ⟨name, bytes, reads, version⟩

end

/-- After any guarded run, whatever earlier copies are put back under a vault
that carries a number, files that all read after the next unlock read as the
directory held them at one moment. -/
theorem unlock_reads_one_moment {initial final : Machine} {actions : List Action} {disk : Disk}
    {read : FileName → Option (List UInt8)} (closed : initial.phase = .closed)
    (unbound : initial.disk.Unbound)
    (guarded : EachState Machine.step Machine.Guarded initial actions)
    (ended : run Machine.step initial actions = some final)
    (putBack : PutBack initial final actions disk) (numbered : disk.stateGeneration ≠ none)
    (succeeds : ∀ name, disk.unlock.2.readFile disk.unlock.1 name = .ok (read name)) :
    ∃ moment, Moment initial actions moment ∧ ∀ name, read name = moment.contents name := by
  obtain ⟨anchor, vault⟩ := Option.ne_none_iff_exists'.mp numbered
  rcases traced_of_run closed unbound guarded ended with only | ⟨_, _, traced⟩
  · obtain ⟨moment, present, same⟩ := putBack.vault
    rw [(only moment).mp present, unbound.vault] at same
    exact absurd same numbered
  have stragglers : disk.sealStragglers.stateGeneration = some anchor := vault
  have copies : disk.sealStragglers.state = disk.state ∧
      disk.sealStragglers.statePrevious = disk.statePrevious := ⟨rfl, rfl⟩
  cases taken : disk.sealStragglers.readGenerations anchor with
  | error =>
    simp only [Disk.unlock, Disk.loadGenerations, stragglers, taken] at succeeds
    refine ⟨final.disk, traced.present, fun name => ?_⟩
    obtain ⟨absent, nothing⟩ := absent_of_readFile (succeeds name)
    obtain ⟨moment, present, same, lasting⟩ := putBack.files name
    rw [nothing, contents, lasting (same.symm.trans absent), Option.map_none]
  | ok record =>
    have recorded : RecordedIn (Moment initial actions) record := by
      rcases mem_of_readGenerations taken with held | held
      · obtain ⟨moment, present, same⟩ := putBack.state
        exact ⟨moment, present, .inl (same.symm.trans (copies.1.symm.trans held))⟩
      obtain ⟨moment, present, same⟩ := putBack.previous
      exact ⟨moment, present, .inr (same.symm.trans (copies.2.symm.trans held))⟩
    have covers := traced.chronicle.covers record recorded
    simp only [Disk.unlock, Disk.loadGenerations, stragglers, taken, Disk.bindUncovered, covers,
      if_true] at succeeds
    refine traced.chronicle.one_moment recorded fun name => ?_
    obtain ⟨moment, present, same, lasting⟩ := putBack.files name
    rcases version_of_readFile (succeeds name) with
      ⟨absent, nothing⟩ | ⟨generation, bytes, held, reads, allowed⟩
    · exact .inl ⟨lasting (same.symm.trans absent), nothing⟩
    · exact .inr ⟨generation, bytes, ⟨moment, present, same.symm.trans held⟩, reads, allowed⟩

def Machine.protectedBefore : Machine :=
  { disk := Disk.protectedBefore, phase := .closed }

theorem Disk.unbound_protectedBefore : protectedBefore.Unbound := by
  refine ⟨rfl, rfl, rfl, fun name image held => ?_⟩
  have each : ∀ name ∈ recryptedFiles, ∀ image ∈ protectedBefore.files.get name,
      image.generation.getD FIRST = FIRST := by
    decide +kernel
  exact each name (mem_recryptedFiles name) image held

def Machine.after (actions : List Action) : Machine :=
  (run Machine.step Machine.protectedBefore actions).getD Machine.protectedBefore

theorem moment_of_run {before : List Action}
    (reached : run step initial before = some machine) (part : before <+: actions) :
    Moment initial actions machine.disk :=
  ⟨machine, ⟨before, part, reached⟩, rfl⟩

def Action.oneWrite : List Action :=
  [.unlock, .writeFile .contacts [2], .persist, .persist, .persist]

def Action.twoWrites : List Action :=
  Action.oneWrite ++ [.writeFile .outbox [5], .persist, .persist, .persist, .crash]

/-- The directory put back whole to where it was before the second write reads
as it did. -/
theorem reads_directory_put_back :
    ∃ moment, Moment Machine.protectedBefore Action.twoWrites moment ∧
      ∀ name, (Machine.after Action.oneWrite).disk.contents name = moment.contents name := by
  have guarded : EachState step Machine.Guarded protectedBefore
      twoWrites := by
    decide +kernel
  have earlier : Moment protectedBefore twoWrites (after oneWrite).disk :=
    moment_of_run rfl (List.prefix_append _ _)
  have lasting : ∀ name ∈ recryptedFiles, (after oneWrite).disk.files.get name = none ->
      (after twoWrites).disk.files.get name = none := by
    decide +kernel
  have succeeds : ∀ name ∈ recryptedFiles, (after oneWrite).disk.unlock.2.readFile
        (after oneWrite).disk.unlock.1 name =
      .ok ((after oneWrite).disk.contents name) := by
    decide +kernel
  have ended : run step protectedBefore twoWrites = some (after twoWrites) := rfl
  exact unlock_reads_one_moment rfl unbound_protectedBefore guarded ended
    ⟨⟨_, earlier, rfl⟩, ⟨_, earlier, rfl⟩, ⟨_, earlier, rfl⟩,
      fun name => ⟨_, earlier, rfl, lasting name (mem_recryptedFiles name)⟩⟩
    (by decide +kernel) fun name => succeeds name (mem_recryptedFiles name)

def Disk.mixed : Disk :=
  (Machine.after (.unlock :: Action.writtenPast)).disk.writeAtomic .contacts (.sealed (some 1) [1])

/-- Every file of it reads after the next unlock, and it was never on disk. -/
theorem reads_versions_never_together :
    PutBack Machine.protectedBefore (Machine.after (.unlock :: Action.writtenPast))
        (.unlock :: Action.writtenPast) Disk.mixed ∧
      (∀ name ∈ recryptedFiles, Disk.mixed.unlock.2.readFile Disk.mixed.unlock.1 name =
        .ok (Disk.mixed.contents name)) ∧
      ¬ ∃ moment, Moment Machine.protectedBefore (.unlock :: Action.writtenPast) moment ∧
        ∀ name, Disk.mixed.contents name = moment.contents name := by
  have last : Moment protectedBefore (.unlock :: writtenPast)
      (after (.unlock :: writtenPast)).disk :=
    moment_of_run rfl List.prefix_rfl
  have first : Moment protectedBefore (.unlock :: writtenPast) (after [.unlock]).disk :=
    moment_of_run rfl (List.prefix_append [.unlock] writtenPast)
  refine ⟨⟨⟨_, last, rfl⟩, ⟨_, last, rfl⟩, ⟨_, last, rfl⟩, fun name => ?_⟩, by decide +kernel, ?_⟩
  · by_cases same : name = .contacts
    · subst same
      exact ⟨_, first, by decide +kernel, fun absent => absurd absent (by decide +kernel)⟩
    · refine ⟨_, last, get_insert_of_ne same, id⟩
  rintro ⟨_, ⟨machine, ⟨before, part, reached⟩, rfl⟩, same⟩
  have each : ∀ before ∈ (Action.unlock :: Action.writtenPast).inits,
      ∀ machine ∈ run step protectedBefore before,
      ¬ (mixed.contents .contacts = machine.disk.contents .contacts ∧
        mixed.contents .outbox = machine.disk.contents .outbox) := by
    decide +kernel
  exact each before (List.mem_inits before _ |>.mpr part) machine reached
    ⟨same .contacts, same .outbox⟩

end Silver.Client
