import Silver.Client.Store.Crash

/-!
# What a directory has ever held

The copies somebody may put back are those the directory's files have had.  A chronicle
says how they fit together: one record and one version of a file to a generation, a moment
for every record at which the files were as it says, and a moment for every version one
past a record at which the other files still were.
-/

namespace Silver.Client

open Foundation

def Disk.Holds (disk : Disk) (record : State) (name : FileName) : Prop :=
  (disk.files.get name).map FileImage.generation = (record.files.get name).map some

theorem Disk.Holds.image {disk : Disk} {record : State} {name : FileName} {age : Nat}
    (holds : disk.Holds record name) (recorded : record.files.get name = some age) :
    ∃ bytes, disk.files.get name = some (.sealed (some age) bytes) := by
  rw [Holds, recorded, Option.map_some] at holds
  obtain ⟨image, held, carried⟩ := Option.map_eq_some_iff.mp holds
  exact ⟨image.bytes, held.trans (congrArg some (FileImage.eq_sealed carried))⟩

theorem Disk.Holds.matches
    {disk : Disk} {record : State} {name : FileName} (holds : disk.Holds record name) :
    disk.Matches record name := by
  intro _ held
  rw [Holds, held, Option.map_some] at holds
  obtain ⟨age, recorded, carried⟩ := Option.map_eq_some_iff.mp holds.symm
  exact ⟨age, carried.symm, recorded⟩

def RecordedIn (seen : Disk -> Prop) (record : State) : Prop :=
  ∃ disk, seen disk ∧ (disk.state = some record ∨ disk.statePrevious = some record)

def VersionIn (seen : Disk -> Prop) (name : FileName) (generation : Nat) (bytes : List UInt8) :
    Prop :=
  ∃ disk, seen disk ∧ disk.files.get name = some (.sealed (some generation) bytes)

/-- How the moments a directory has been through fit together, `newest` being
the last record written and `files` the files as they are. -/
structure Chronicle
    (seen : Disk -> Prop) (newest : State) (files : Table FileName FileImage) : Prop where
  recorded : RecordedIn seen newest
  generation_le : ∀ record, RecordedIn seen record -> record.generation <= newest.generation
  covers : ∀ record, RecordedIn seen record -> COVERS_LOG_AND_OUTBOX <= record.covers
  oneRecord : ∀ record other, RecordedIn seen record -> RecordedIn seen other ->
    record.generation = other.generation -> record = other
  oneVersion : ∀ name generation bytes others, VersionIn seen name generation bytes ->
    VersionIn seen name generation others -> bytes = others
  inFlight : ∀ name generation bytes, VersionIn seen name generation bytes ->
    generation <= newest.generation ∨ generation = newest.generation + 1 ∧
        files.get name = some (.sealed (some generation) bytes)
  atRecord : ∀ record, RecordedIn seen record -> ∃ disk, seen disk ∧ ∀ name, disk.Holds record name
  pastRecord : ∀ record name bytes, RecordedIn seen record ->
    VersionIn seen name (record.generation + 1) bytes ->
    ∃ disk, seen disk ∧ disk.files.get name = some (.sealed (some (record.generation + 1)) bytes) ∧
      ∀ other, other ≠ name -> disk.Holds record other
  onePast : ∀ record name other bytes others, RecordedIn seen record ->
    VersionIn seen name (record.generation + 1) bytes ->
    VersionIn seen other (record.generation + 1) others -> name = other
  lasting : ∀ name, files.get name = none -> ∀ disk, seen disk -> disk.files.get name = none

def Later (seen : Disk -> Prop) (next : Disk) (disk : Disk) : Prop :=
  seen disk ∨ disk = next

section Later

theorem recordedIn_later {record : State} : RecordedIn (Later seen next) record ↔
      RecordedIn seen record ∨ next.state = some record ∨ next.statePrevious = some record := by
  constructor
  · rintro ⟨disk, before | rfl, held⟩
    · exact .inl ⟨disk, before, held⟩
    · exact .inr held
  rintro (⟨disk, before, held⟩ | held)
  · exact ⟨disk, .inl before, held⟩
  · exact ⟨next, .inr rfl, held⟩

theorem versionIn_later {name : FileName} {age : Nat} {bytes : List UInt8} :
    VersionIn (Later seen next) name age bytes ↔ VersionIn seen name age bytes ∨
        next.files.get name = some (.sealed (some age) bytes) := by
  constructor
  · rintro ⟨disk, before | rfl, held⟩
    · exact .inl ⟨disk, before, held⟩
    · exact .inr held
  rintro (⟨disk, before, held⟩ | held)
  · exact ⟨disk, .inl before, held⟩
  · exact ⟨next, .inr rfl, held⟩

end Later

namespace Chronicle

variable {disk next : Disk}

variable (chronicle : Chronicle seen newest disk.files)
include chronicle

theorem still (present : seen disk) (files : next.files = disk.files)
    (known : ∀ record, next.state = some record ∨ next.statePrevious = some record ->
      RecordedIn seen record) : Chronicle (Later seen next) newest next.files := by
  have records : ∀ record, RecordedIn (Later seen next) record -> RecordedIn seen record :=
    fun record within => (recordedIn_later.mp within).elim id (known record)
  have versions : ∀ name age bytes, VersionIn (Later seen next) name age bytes ->
      VersionIn seen name age bytes := by
    intro name age bytes within
    rcases versionIn_later.mp within with before | held
    · exact before
    · exact ⟨disk, present, files ▸ held⟩
  refine ⟨recordedIn_later.mpr (.inl chronicle.recorded), ?_, ?_, ?_, ?_, ?_, ?_, ?_, ?_, ?_⟩
  · exact fun record within => chronicle.generation_le record (records record within)
  · exact fun record within => chronicle.covers record (records record within)
  · exact fun record other first second =>
      chronicle.oneRecord record other (records record first) (records other second)
  · exact fun name age bytes others first second =>
      chronicle.oneVersion name age bytes others (versions _ _ _ first) (versions _ _ _ second)
  · intro name age bytes within
    rw [files]
    exact chronicle.inFlight name age bytes (versions _ _ _ within)
  · intro record within
    obtain ⟨moment, before, holds⟩ := chronicle.atRecord record (records record within)
    exact ⟨moment, .inl before, holds⟩
  · intro record name bytes within version
    obtain ⟨moment, before, holds⟩ :=
      chronicle.pastRecord record name bytes (records record within) (versions _ _ _ version)
    exact ⟨moment, .inl before, holds⟩
  · exact fun record name other bytes others within first second =>
      chronicle.onePast record name other bytes others (records record within)
        (versions _ _ _ first) (versions _ _ _ second)
  rintro name absent moment (before | rfl)
  · exact chronicle.lasting name (files ▸ absent) moment before
  · exact absent

theorem le_of_noneAhead (noneAhead : ∀ name, ¬ disk.AheadOf newest name) {name : FileName}
    {age : Nat} {bytes : List UInt8} (version : VersionIn seen name age bytes) :
    age <= newest.generation := by
  rcases chronicle.inFlight name age bytes version with below | ⟨rfl, held⟩
  · exact below
  · exact absurd (by rw [Disk.AheadOf, held]; rfl) (noneAhead name)

/-- The moment a file has been written, one past the newest record. -/
theorem write (present : seen disk) (noneAhead : ∀ name, ¬ disk.AheadOf newest name)
    (holds : ∀ name, disk.Holds newest name) (name : FileName) (bytes : List UInt8) :
    Chronicle
      (Later seen (disk.writeAtomic name (.sealed (some (newest.generation + 1)) bytes))) newest
      (disk.writeAtomic name (.sealed (some (newest.generation + 1)) bytes)).files := by
  let next := disk.writeAtomic name (.sealed (some (newest.generation + 1)) bytes)
  change Chronicle (Later seen next) newest next.files
  have written : next.files.get name = some (.sealed (some (newest.generation + 1)) bytes) :=
    Table.get_insert_self _ _ _
  have kept : ∀ other, other ≠ name -> next.files.get other = disk.files.get other :=
    fun other apart => Table.get_insert_of_ne apart
  have records : ∀ record, RecordedIn (Later seen next) record -> RecordedIn seen record :=
    fun record within => (recordedIn_later.mp within).elim id fun held => ⟨disk, present, held⟩
  have old : ∀ other age content, VersionIn seen other age content -> age <= newest.generation :=
    fun other age content version => chronicle.le_of_noneAhead noneAhead version
  have versions : ∀ other age content, VersionIn (Later seen next) other age content ->
      VersionIn seen other age content ∨
        other = name ∧ age = newest.generation + 1 ∧ content = bytes := by
    intro other age content within
    rcases versionIn_later.mp within with before | held
    · exact .inl before
    by_cases same : other = name
    · subst same
      rw [written] at held
      cases held
      exact .inr ⟨rfl, rfl, rfl⟩
    · exact .inl ⟨disk, present, (kept other same).symm.trans held⟩
  refine ⟨recordedIn_later.mpr (.inl chronicle.recorded), ?_, ?_, ?_, ?_, ?_, ?_, ?_, ?_, ?_⟩
  · exact fun record within => chronicle.generation_le record (records record within)
  · exact fun record within => chronicle.covers record (records record within)
  · exact fun record other first second =>
      chronicle.oneRecord record other (records record first) (records other second)
  · intro other age content others first second
    rcases versions _ _ _ first with known | ⟨rfl, rfl, rfl⟩ <;>
      rcases versions _ _ _ second with knownToo | ⟨same, reached, rfl⟩
    · exact chronicle.oneVersion other age content others known knownToo
    · have below := old other age content known
      omega
    · have below := old other _ others knownToo
      omega
    · rfl
  · intro other age content within
    rcases versions _ _ _ within with before | ⟨rfl, rfl, rfl⟩
    · exact .inl (old other age content before)
    · exact .inr ⟨rfl, written⟩
  · intro record within
    obtain ⟨moment, before, holdsThen⟩ := chronicle.atRecord record (records record within)
    exact ⟨moment, .inl before, holdsThen⟩
  · intro record other content within version
    rcases versions _ _ _ version with before | ⟨rfl, reached, rfl⟩
    · obtain ⟨moment, earlier, holdsThen⟩ :=
        chronicle.pastRecord record other content (records record within) before
      exact ⟨moment, .inl earlier, holdsThen⟩
    -- The version just written is one past the newest record alone.
    obtain rfl := chronicle.oneRecord record newest (records record within) chronicle.recorded
      (by omega)
    refine ⟨next, .inr rfl, written, fun another apart => ?_⟩
    rw [Disk.Holds, kept another apart]
    exact holds another
  · intro record left right content others within first second
    rcases versions _ _ _ first with known | ⟨rfl, reached, rfl⟩ <;>
      rcases versions _ _ _ second with knownToo | ⟨same, _, rfl⟩
    · exact chronicle.onePast record left right content others (records record within) known knownToo
    · have below := old left _ content known
      omega
    · have below := old right _ others knownToo
      omega
    · exact same.symm
  rintro other absent moment (before | rfl)
  · by_cases same : other = name
    · rw [same, written] at absent
      cases absent
    · exact chronicle.lasting other ((kept other same).symm.trans absent) moment before
  · exact absent

/-- The moment a record has been written, with every file as it says. -/
theorem record (present : seen disk) {written : State}
    (age : written.generation = newest.generation + 1)
    (covers : COVERS_LOG_AND_OUTBOX <= written.covers) (holds : ∀ name, disk.Holds written name) :
    Chronicle (Later seen (disk.writeState written)) written disk.files := by
  have records : ∀ record, RecordedIn (Later seen (disk.writeState written)) record ->
      RecordedIn seen record ∨ record = written := by
    intro record within
    rcases recordedIn_later.mp within with before | held | kept
    · exact .inl before
    · exact .inr (Option.some.inj held).symm
    · exact .inl ⟨disk, present, .inr kept⟩
  have versions : ∀ name age bytes,
      VersionIn (Later seen (disk.writeState written)) name age bytes ->
      VersionIn seen name age bytes := by
    intro name age bytes within
    exact (versionIn_later.mp within).elim id fun held => ⟨disk, present, held⟩
  have old : ∀ name age bytes, VersionIn seen name age bytes -> age <= written.generation := by
    intro name reached bytes version
    rcases chronicle.inFlight name reached bytes version with below | ⟨_, -⟩ <;> omega
  refine ⟨recordedIn_later.mpr (.inr (.inl rfl)), ?_, ?_, ?_, ?_, ?_, ?_, ?_, ?_, ?_⟩
  · intro record within
    rcases records record within with before | rfl
    · have below := chronicle.generation_le record before
      omega
    · omega
  · intro record within
    rcases records record within with before | rfl
    · exact chronicle.covers record before
    · exact covers
  · intro record other first second level
    rcases records record first with known | rfl <;>
      rcases records other second with knownToo | rfl
    · exact chronicle.oneRecord record other known knownToo level
    · have below := chronicle.generation_le record known
      omega
    · have below := chronicle.generation_le other knownToo
      omega
    · rfl
  · exact fun name age bytes others first second =>
      chronicle.oneVersion name age bytes others (versions _ _ _ first) (versions _ _ _ second)
  · exact fun name age bytes within => .inl (old name age bytes (versions _ _ _ within))
  · intro record within
    rcases records record within with before | rfl
    · obtain ⟨moment, earlier, holdsThen⟩ := chronicle.atRecord record before
      exact ⟨moment, .inl earlier, holdsThen⟩
    · exact ⟨_, .inr rfl, holds⟩
  · intro record name bytes within version
    rcases records record within with before | rfl
    · obtain ⟨moment, earlier, holdsThen⟩ :=
        chronicle.pastRecord record name bytes before (versions _ _ _ version)
      exact ⟨moment, .inl earlier, holdsThen⟩
    have below := old name _ bytes (versions _ _ _ version)
    omega
  · intro record name other bytes others within first second
    rcases records record within with before | rfl
    · exact chronicle.onePast record name other bytes others before
        (versions _ _ _ first) (versions _ _ _ second)
    have below := old name _ bytes (versions _ _ _ first)
    omega
  rintro name absent moment (before | rfl)
  · exact chronicle.lasting name absent moment before
  · exact absent

end Chronicle

end Silver.Client
