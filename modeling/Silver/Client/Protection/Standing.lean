import Silver.Client.Protection.Removal

/-!
# A protected directory at rest, and what brings it there

A directory stands when everything in it opens under its keys and is the version its
record names.  Unlocking, a rotation and a first protection end in one that stands;
a crash on the way leaves one the next unlock recovers.
-/

namespace Silver.Client.Protection

open Foundation Cell

variable {cipher : Cipher}

theorem Cell.size_le_encode {item : Item} {cell : Cell} (target : Cipher)
    (opened : cell.opens source item = some payload) :
    cell.size <= (encode (some target) item payload).size := by
  cases cell with
  | torn size => cases opened
  | plain held =>
    cases opened
    cases payload with
    | text =>
      simp only [size, encode, sealedSize]
      omega
    | bytes | record record => exact Nat.zero_le _
  | sealed _ _ held =>
    have same : held = payload := by
      simp only [opens, Option.bind_eq_some_iff] at opened
      obtain ⟨_, _, found⟩ := opened
      split at found
      · exact Option.some.inj found
      · cases found
    subst same
    cases held <;> exact .refl

theorem logSize_le_encode {item : Item} {cells : List Cell}
    (target : Cipher) (opened : cells.mapM (opens source item) = some payloads) :
    Directory.logSize cells <= Directory.logSize (payloads.map (encode (some target) item)) := by
  induction cells generalizing payloads with
  | nil => exact Nat.zero_le _
  | cons _ cells ih =>
    simp only [List.mapM_cons, Option.bind_eq_bind, Option.bind_eq_some_iff] at opened
    obtain ⟨_, first, _, rest, whole⟩ := opened
    cases whole
    exact Nat.add_le_add (size_le_encode target first) (ih rest)

namespace Directory

theorem readRecord_state_eq_some {disk : Directory} {record : Record} :
    disk.readRecord cipher .state = some record ↔
      ∃ key, disk.read .state = some [.sealed key .state (.record record)] ∧
        cipher.opensKey key := by
  unfold readRecord
  constructor
  · intro found
    split at found
    next key _ _ read =>
      split at found
      next fits =>
        simp only [Bool.and_eq_true, beq_iff_eq] at fits
        cases found
        exact ⟨key, by rw [read, fits.2], fits.1⟩
      next => cases found
    next => cases found
  rintro ⟨key, read, known⟩
  simp [read, known]

theorem readGenerations_of_readRecord {disk : Directory} {record : Record}
    (current : disk.readRecord cipher .state = some record) :
    disk.readGenerations cipher record.generation = .bound record := by
  simp [readGenerations, current, Option.filter_some]

end Directory

/-- A directory everything in which opens under a cipher and is the version its record
names. -/
structure Standing (holdings : Holdings) (cipher : Cipher) (record : Record)
    (directory : Directory) (view : View) : Prop where
  heads : directory.HeadsSealed
  shown : directory.Shows (some cipher) view
  keeps : view.Keeps holdings
  current : directory.readRecord cipher .state = some record
  plain : ∀ conversation, view (.log (.plain conversation)) = none
  covers : COVERS_LOG_AND_OUTBOX <= record.covers
  recorded : ∀ name generation data, view (.file name) = some [.bytes generation data] ->
    ∃ stamp, generation = some stamp ∧ record.files.get name = some stamp
  logs : ∀ conversation, view (.log (.mac cipher.naming conversation)) = holdings.lines conversation
  index : ∀ name entry, record.history.lookup name = some entry ->
    entry.conversation = name.conversation ∧
      ∀ cells, directory.read (.log name) = some cells -> entry.bytes <= Directory.logSize cells

theorem Store.Rewritten.current {store : Store} {disk : Directory}
    (rewritten : store.Rewritten (some old) target (some cipher) view disk)
    (current : store.directory.readRecord old .state = some record) :
    disk.readRecord cipher .state = some record := by
  obtain ⟨key, read, _⟩ := Directory.readRecord_state_eq_some.mp current
  obtain ⟨now, readNow⟩ : ∃ now, disk.read .state = some [.sealed now .state (.record record)] := by
    rcases rewritten.recoded .state with kept | ⟨_, _, found, opened, written⟩
    · exact ⟨key, kept.trans read⟩
    cases read.symm.trans found
    obtain ⟨_, first, rest⟩ := Option.bind_eq_some_iff.mp opened
    cases rest
    simp only [opens, Option.bind_some] at first
    split at first
    · cases first
      exact ⟨target.key, written⟩
    · cases first
  refine Directory.readRecord_state_eq_some.mpr ⟨now, readNow, ?_⟩
  rcases (rewritten.shown .state (by simp)).cases with ⟨missing, _⟩ | ⟨_, _, found, opened, _⟩
  · exact absurd (missing.symm.trans readNow) (by simp)
  cases readNow.symm.trans found
  exact opensKey_of_mem opened (List.mem_singleton.mpr rfl)

namespace Standing

theorem rewritten {holdings : Holdings} {record : Record} {view : View}
    {store : Store} {disk : Directory}
    (standing : Standing holdings old record store.directory view)
    (rewritten : store.Rewritten (some old) target (some cipher) view disk)
    (named : cipher.naming = old.naming) :
    Standing holdings cipher record disk view := by
  refine
    { standing with
      heads := fun item walked cells found cell first => ?_
      shown := rewritten.shown
      current := rewritten.current standing.current
      logs := named ▸ standing.logs
      index := fun name entry entered => ?_ }
  · rcases rewritten.recoded item with kept | ⟨before, payloads, _, _, written⟩
    · exact standing.heads item walked cells (kept ▸ found) cell first
    cases written.symm.trans found
    exact head_encode_sealed target item payloads cell first
  obtain ⟨whose, long⟩ := standing.index name entry entered
  refine ⟨whose, fun cells found => ?_⟩
  rcases rewritten.recoded (.log name) with kept | ⟨before, payloads, read, opened, written⟩
  · exact long cells (kept ▸ found)
  cases written.symm.trans found
  exact (long before read).trans (logSize_le_encode target opened)

theorem writeVault {holdings : Holdings} {record : Record} {view : View} {disk : Directory}
    (standing : Standing holdings cipher record disk view) (vault : Vault) :
    Standing holdings cipher record (disk.writeVault vault) view :=
  { standing with }

end Standing

theorem Store.Adopted.standing {start : View} {holdings : Holdings} {disk : Directory}
    (adopted : Adopted clean vault cipher start holdings disk record view) :
    Standing holdings cipher record disk view := by
  refine
    { adopted with
      covers := Nat.le_of_eq adopted.covers.symm
      index := fun name entry entered => ?_ }
  obtain ⟨named, _, found, bytes⟩ := adopted.index name entry entered
  refine ⟨by rw [named]; rfl, fun other read => ?_⟩
  cases found.symm.trans read
  omega

/-- A protected directory the next unlock brings to rest: one that stands, or one
still on the way to its first record. -/
structure Recoverable (clean : Prop) (holdings : Holdings) (cipher : Cipher) (vault : Vault)
    (directory : Directory) : Prop where
  inPlace : directory.vault = some vault
  previous : clean -> directory.PreviousUnder cipher.key
  keys : ∀ fresh, vault.unwrap fresh = cipher
  state : (∃ record view, vault.stateGeneration = some record.generation ∧
      Standing holdings cipher record directory view) ∨
    (vault.stateGeneration = none ∧ vault.previous = none ∧
      ∃ view, directory.Shows (some cipher) view ∧ view.Keeps holdings ∧
        view.Moving cipher.naming holdings)

/-- A store on a directory that is not protected. -/
structure Unprotected (clean : Prop) (holdings : Holdings) (view : View) (store : Store) :
    Prop where
  bare : store.directory.vault = none
  cipher : store.cipher = none
  binding : store.binding = .unbound
  building : store.building = none
  previous : clean -> ∀ cells, store.directory.read .statePrevious = some cells ->
    ∀ found bound payload, .sealed found bound payload ∉ cells
  shown : store.directory.Shows none view
  keeps : view.Keeps holdings
  logs : ∀ conversation, view (.log (.plain conversation)) = holdings.lines conversation
  drawn : ∀ naming conversation, view (.log (.mac naming conversation)) ≠ none ->
    naming < store.fresh

/-- An unlocked store on a directory that stands. -/
structure Unlocked (clean : Prop) (holdings : Holdings) (cipher : Cipher) (vault : Vault)
    (record : Record) (view : View) (store : Store) : Prop where
  inPlace : store.directory.vault = some vault
  previous : clean -> store.directory.PreviousUnder cipher.key
  unlocked : store.cipher = some cipher
  keys : ∀ fresh, vault.unwrap fresh = cipher
  bound : store.binding = .bound record
  anchor : vault.stateGeneration = some record.generation
  standing : Standing holdings cipher record store.directory view
  building : store.building = none

theorem Unlocked.recoverable {holdings : Holdings} {store : Store}
    (unlocked : Unlocked clean holdings cipher vault record view store) :
    Recoverable clean holdings cipher vault store.directory :=
  ⟨unlocked.inPlace, unlocked.previous, unlocked.keys,
    .inl ⟨record, view, unlocked.anchor, unlocked.standing⟩⟩

namespace Store

variable {store : Store}

def Survives (clean : Prop) (holdings : Holdings) (store : Store) : Prop :=
  ∃ cipher vault, Recoverable clean holdings cipher vault store.directory

def Ready (clean : Prop) (holdings : Holdings) (store : Store) : Prop :=
  ∃ cipher vault record view, Unlocked clean holdings cipher vault record view store

theorem bindUncovered_passes (none : store.building = none) (here : safe store) :
    Passes execute safe bindUncovered store store := by
  simp [bindUncovered, persistGenerations, Passes, execute, bindFile, Store.keepPrevious,
    writeRecord, raiseAnchor, none, here]

def Running (safe ends : Store -> Prop) (store : Store) : Prop :=
  ∃ final, Passes execute safe store.program { store with program := [] } final ∧ ends final

theorem loadRecord_passes (unlocked : store.cipher = some cipher)
    (recoverable : Recoverable clean holdings cipher vault store.directory)
    (anchor : vault.stateGeneration = some record.generation)
    (standing : Standing holdings cipher record store.directory view) :
    ∃ final, Passes execute (Survives clean holdings) (.loadRecord :: bindUncovered) store final ∧
      Unlocked clean holdings cipher vault record view final := by
  have nothingLeft : (Binding.bound record).record.filter
      (fun record => decide (record.covers < COVERS_LOG_AND_OUTBOX)) = none := by
    simpa [Binding.record] using standing.covers
  have loaded : store.loadRecord = { store with binding := .bound record, building := none } := by
    rw [loadRecord_eq unlocked recoverable.inPlace anchor,
      Directory.readGenerations_of_readRecord standing.current, nothingLeft]
  refine ⟨store.loadRecord, ⟨_, rfl, ?_, ?_⟩, ?_⟩
  · rw [loaded]
    exact ⟨cipher, vault, recoverable⟩
  · rw [loaded]
    exact bindUncovered_passes rfl ⟨cipher, vault, recoverable⟩
  rw [loaded]
  exact { recoverable with unlocked, bound := rfl, anchor, standing, building := rfl }

theorem mem_logs_iff_of_shows {disk after : Directory}
    (shown : disk.Shows source view) (shownNow : after.Shows target view) (name : LogName) :
    name ∈ disk.logs ↔ (after.read (.log name)).isSome := by
  rw [Directory.mem_logs]
  rcases (shown (.log name) nofun).cases with ⟨missing, unseen⟩ | ⟨_, _, found, _, seen⟩
  · rcases (shownNow (.log name) nofun).cases with ⟨gone, _⟩ | ⟨_, _, _, _, other⟩
    · simp [missing, gone]
    · simp [unseen] at other
  rcases (shownNow (.log name) nofun).cases with ⟨_, other⟩ | ⟨_, _, here, _⟩
  · simp [seen] at other
  · simp [found, here]

/-- Sealing what is left in the clear, if anything is, leaves nothing in the clear. -/
theorem tidy_passes (single : cipher.previous = none) (holds : Holds vault cipher store)
    (shown : store.directory.Shows (some cipher) view)
    (kept : ∀ disk, store.Rewritten (some cipher) cipher (some cipher) view disk ->
      safe { store with directory := disk }) :
    ∃ disk, Passes execute safe
        (if store.directory.anyPlain then store.directory.recryptAll (some cipher) cipher else [])
        store { store with directory := disk } ∧
      store.Rewritten (some cipher) cipher (some cipher) view disk ∧
      disk.HeadsSealed := by
  split
  next =>
    obtain ⟨disk, tidying, rewritten⟩ := recryptAll_passes (.refl _) shown
      (fun _ => Directory.mem_walkedItems) kept
    have settled : cipher.settled = cipher := by rw [Cipher.settled, ← single]
    rw [settled] at rewritten
    exact ⟨disk, tidying, rewritten, (recryptAll_seals holds tidying.foldlM_eq_ok).2⟩
  next clean =>
    exact ⟨store.directory, rfl, ⟨rfl, shown, fun _ => .inl rfl, rfl⟩,
      Directory.anyPlain_eq_false_iff.mp (Bool.eq_false_iff.mpr clean)⟩

theorem unlock_adopts (inPlace : store.directory.vault = some vault)
    (keys : vault.unwrap store.fresh = cipher) (unanchored : vault.stateGeneration = none)
    (alone : vault.previous = none) (previous : clean -> store.directory.PreviousUnder cipher.key)
    (shown : store.directory.Shows (some cipher) view) (keeps : view.Keeps holdings)
    (moving : view.Moving cipher.naming holdings)
    (implied : ∀ after, Unanchored clean vault cipher holdings after -> safe after)
    (ended : ∀ disk record seen,
      Adopted clean vault cipher view holdings disk record seen ->
        safe (Store.recording { store.unlock vault with program := [] } disk record)) :
    ∃ disk record seen,
      Passes execute safe (store.unlock vault).program { store.unlock vault with program := [] }
        (Store.recording { store.unlock vault with program := [] } disk record) ∧
      Adopted clean vault cipher view holdings disk record seen := by
  let begun := { store.unlock vault with program := [] }
  have unlocked : begun.cipher = some cipher := congrArg some keys
  have single : cipher.previous = none := by rw [← keys]; exact alone
  have program : (store.unlock vault).program =
      (if store.directory.anyPlain then store.directory.recryptAll (some cipher) cipher else []) ++
        store.directory.adoptGenerations := by
    simp [unlock, alone, unanchored, Directory.loadGenerations, keys]
  have survives : ∀ disk, begun.Rewritten (some cipher) cipher (some cipher) view disk ->
      safe { begun with directory := disk } := fun disk rewritten =>
    implied _ ⟨rewritten.vault.trans inPlace,
      fun holds => (previous holds).congr rewritten.previous, view, rewritten.shown, keeps, moving⟩
  have holds : Holds vault cipher begun := ⟨inPlace, unlocked, rfl⟩
  obtain ⟨disk, tidying, rewritten, heads⟩ := tidy_passes single holds shown survives
  let tidied := { begun with directory := disk }
  obtain ⟨after, record, seen, adopting, adopted⟩ := adoptGenerations_passes
    (show tidied.cipher = some cipher from unlocked) single implied ended
    (rewritten.vault.trans inPlace) heads
    (fun holds => (previous holds).congr rewritten.previous) rewritten.shown keeps moving
    (mem_logs_iff_of_shows shown rewritten.shown)
  rw [program]
  exact ⟨after, record, seen, tidying.append adopting, adopted⟩

theorem Adopted.unlocked {start : View} {disk : Directory}
    (adopted : Adopted clean vault cipher start holdings disk record view)
    (unlocked : store.cipher = some cipher) (keys : ∀ fresh, vault.unwrap fresh = cipher) :
    Unlocked clean holdings cipher { vault with stateGeneration := some record.generation } record
      view (store.recording disk record) where
  inPlace := adopted.inPlace
  previous := adopted.previous
  unlocked := unlocked
  keys fresh := by
    rw [← keys fresh]
    rfl
  bound := rfl
  anchor := rfl
  standing := adopted.standing
  building := rfl

section

variable (recoverable : Recoverable clean holdings cipher vault store.directory)
include recoverable

theorem unlock_standing (anchor : vault.stateGeneration = some record.generation)
    (standing : Standing holdings cipher record store.directory view) :
    Running (Survives clean holdings) (Ready clean holdings) (store.unlock vault) := by
  have tidy : store.directory.anyPlain = false := Directory.anyPlain_eq_false_iff.mpr standing.heads
  have unlocked : ({ store.unlock vault with program := [] } : Store).cipher = some cipher :=
    congrArg some (recoverable.keys store.fresh)
  cases alone : vault.previous with
  | none =>
    have program : (store.unlock vault).program = .loadRecord :: bindUncovered := by
      simp [unlock, tidy, alone, anchor, Directory.loadGenerations]
    obtain ⟨final, passes, ended⟩ := loadRecord_passes unlocked recoverable anchor standing
    rw [Running, program]
    exact ⟨final, passes, cipher, vault, record, view, ended⟩
  | some =>
    have program : (store.unlock vault).program =
        (store.directory.recryptAll (some cipher) cipher ++
          [.writeVault { vault with previous := none } cipher.settled]) ++
          .loadRecord :: bindUncovered := by
      simp [unlock, tidy, alone, anchor, Directory.loadGenerations, recoverable.keys]
    let begun := { store.unlock vault with program := [] }
    have begins : Standing holdings cipher record begun.directory view := standing
    have kept : ∀ disk, begun.Rewritten (some cipher) cipher (some cipher) view disk ->
        Survives clean holdings { begun with directory := disk } := fun disk rewritten =>
      ⟨cipher, vault, rewritten.vault.trans recoverable.inPlace,
        fun holds => (recoverable.previous holds).congr rewritten.previous, recoverable.keys,
        .inl ⟨record, view, anchor, begins.rewritten rewritten rfl⟩⟩
    obtain ⟨disk, moving, rewritten⟩ := recryptAll_passes (.refl _)
      begins.shown (fun _ => Directory.mem_walkedItems) kept
    have stands := begins.rewritten rewritten rfl
    have settledKeys : ∀ fresh,
        Vault.unwrap { vault with previous := none } fresh = cipher.settled := fun fresh => by
      rw [← recoverable.keys fresh]
      rfl
    let settled := disk.writeVault { vault with previous := none }
    have recovered : Recoverable clean holdings cipher.settled { vault with previous := none }
        settled :=
      ⟨rfl, fun holds => (recoverable.previous holds).congr rewritten.previous, settledKeys,
        .inl ⟨record, view, anchor, stands.writeVault _⟩⟩
    have dropped : Passes execute (Survives clean holdings)
        [.writeVault { vault with previous := none } cipher.settled]
        { begun with directory := disk }
        { begun with directory := settled, cipher := some cipher.settled } :=
      ⟨_, rfl, ⟨_, _, recovered⟩, rfl⟩
    let last := { begun with directory := settled, cipher := some cipher.settled }
    obtain ⟨final, loading, ended⟩ := loadRecord_passes
      (show last.cipher = some cipher.settled from rfl) recovered anchor
      (stands.writeVault _)
    rw [Running, program]
    exact ⟨final, (moving.append dropped).append loading, _, _, record, view, ended⟩

theorem unlock_unanchored (unanchored : vault.stateGeneration = none)
    (alone : vault.previous = none) (shown : store.directory.Shows (some cipher) view)
    (keeps : view.Keeps holdings) (moving : view.Moving cipher.naming holdings) :
    Running (Survives clean holdings) (Ready clean holdings) (store.unlock vault) := by
  let begun := { store.unlock vault with program := [] }
  have unlocked : begun.cipher = some cipher := congrArg some (recoverable.keys store.fresh)
  have implied : ∀ after, Unanchored clean vault cipher holdings after ->
      Survives clean holdings after := by
    rintro after ⟨inPlace, previous, seen, shownNow, kept, moved⟩
    exact ⟨cipher, vault, inPlace, previous, recoverable.keys,
      .inr ⟨unanchored, alone, seen, shownNow, kept, moved⟩⟩
  have ended : ∀ disk record seen,
      Adopted clean vault cipher view holdings disk record seen ->
        Survives clean holdings (begun.recording disk record) :=
    fun disk record seen adopted =>
      ⟨cipher, _, (adopted.unlocked unlocked recoverable.keys).recoverable⟩
  obtain ⟨disk, record, seen, passes, adopted⟩ := unlock_adopts recoverable.inPlace
    (recoverable.keys store.fresh) unanchored alone recoverable.previous shown keeps moving implied
    ended
  exact ⟨_, passes, cipher, _, record, seen, adopted.unlocked unlocked recoverable.keys⟩

theorem unlock_passes :
    Running (Survives clean holdings) (Ready clean holdings) (store.unlock vault) := by
  rcases recoverable.state with
    ⟨_, view, anchor, standing⟩ | ⟨unanchored, alone, view, shown, keeps, moving⟩
  · exact unlock_standing recoverable anchor standing
  · exact unlock_unanchored recoverable unanchored alone shown keeps moving

end

theorem rotateKey_passes (unlocked : Unlocked clean holdings cipher vault record view store)
    (alone : cipher.previous = none) (absent : clean -> store.directory.read .statePrevious = none)
    (kind : Kind) :
    Running (Ready clean holdings) (Ready clean holdings) (store.rotateKey cipher kind) := by
  let rotating := cipher.rotating store.fresh
  let both := rotating.wrap kind (some record.generation)
  let begun :=
    { store.rotateKey cipher kind with
      directory := store.directory.writeVault both, cipher := some rotating, program := [] }
  have begins : Standing holdings cipher record begun.directory view :=
    unlocked.standing.writeVault both
  have wrapped : ∀ (held : Cipher) (fresh : Key),
      (held.wrap kind (some record.generation)).unwrap fresh = held := fun _ _ => rfl
  have ready : ∀ disk, begun.Rewritten (some cipher) rotating (some rotating) view disk ->
      Ready clean holdings { begun with directory := disk } := fun disk rewritten =>
    ⟨rotating, both, record, view,
      { unlocked with
        inPlace := rewritten.vault
        previous := fun holds cells found =>
          absurd (((absent holds).symm.trans rewritten.previous.symm).trans found) nofun
        unlocked := rfl
        keys := wrapped rotating
        anchor := rfl
        standing := begins.rewritten rewritten rfl }⟩
  have weaker := Weaker.rotating cipher store.fresh alone
  obtain ⟨disk, moving, rewritten⟩ := recryptAll_passes weaker begins.shown
    (fun _ => Directory.mem_walkedItems) ready
  have started : Ready clean holdings begun :=
    ready begun.directory ⟨rfl, begins.shown.mono weaker, fun _ => .inl rfl, rfl⟩
  have ended : Ready clean holdings
      { begun with
        directory := disk.writeVault (rotating.settled.wrap kind (some record.generation))
        cipher := some rotating.settled } :=
    ⟨rotating.settled, _, record, view,
      { unlocked with
        inPlace := rfl
        previous := fun holds cells found =>
          absurd (((absent holds).symm.trans rewritten.previous.symm).trans found) nofun
        unlocked := rfl
        keys := wrapped rotating.settled
        anchor := rfl
        standing := (begins.rewritten rewritten rfl).writeVault _ }⟩
  have program : (store.rotateKey cipher kind).program =
      [.writeVault both rotating] ++ (begun.directory.recryptAll (some cipher) rotating ++
        [.writeVault (rotating.settled.wrap kind (some record.generation)) rotating.settled]) := by
    simp only [rotateKey, unlocked.bound, Binding.record, Option.map_some]
    rfl
  rw [Running, program]
  refine ⟨_, Passes.append ⟨_, rfl, started, rfl⟩ (moving.append ⟨_, rfl, ended, rfl⟩), ended⟩

def protectedWith (store : Store) : Cipher :=
  { key := store.fresh, previous := none, naming := store.fresh + 1 }

def begunWith (store : Store) (kind : Kind) : Store :=
  { store.protect kind with
    directory := store.directory.writeVault (store.protectedWith.wrap kind none)
    cipher := some store.protectedWith
    program := [] }

section

variable (unprotected : Unprotected clean holdings view store)
include unprotected

theorem Unprotected.moving : view.Moving store.protectedWith.naming holdings := by
  have unnamed : ∀ chat, view (.log (.mac store.protectedWith.naming chat)) = none := by
    intro chat
    by_contra seen
    exact absurd (unprotected.drawn _ chat seen) (Nat.not_lt.mpr (Nat.le_succ _))
  exact ⟨fun chat => .inr (unprotected.logs chat),
    fun chat => .inl (unnamed chat),
    fun chat => .inl (unprotected.logs chat)⟩

theorem protect_adopts (kind : Kind)
    (implied : ∀ after, Unanchored clean (store.protectedWith.wrap kind none) store.protectedWith
      holdings after -> safe after) (ended : ∀ disk record seen,
      Adopted clean (store.protectedWith.wrap kind none) store.protectedWith view holdings disk
        record seen -> safe ((store.begunWith kind).recording disk record)) :
    ∃ disk record seen,
      Passes execute safe (store.protect kind).program { store.protect kind with program := [] }
        ((store.begunWith kind).recording disk record) ∧
      Adopted clean (store.protectedWith.wrap kind none) store.protectedWith view holdings disk
        record seen := by
  let cipher := store.protectedWith
  let vault := cipher.wrap kind none
  let begun := store.begunWith kind
  have moving := Unprotected.moving unprotected
  have previous : ∀ after : Directory,
      after.read .statePrevious = store.directory.read .statePrevious ->
      clean -> after.PreviousUnder cipher.key := fun after same holds cells found key bound payload
        mem =>
    absurd mem (unprotected.previous holds cells (same.symm.trans found) key bound payload)
  have survives : ∀ disk, begun.Rewritten none cipher (some cipher) view disk ->
      safe { begun with directory := disk } := fun disk rewritten =>
    implied _ ⟨rewritten.vault, previous disk rewritten.previous, view, rewritten.shown,
      unprotected.keeps, moving⟩
  have weaker : Weaker none (some cipher) := .of_none _
  have bare : begun.directory.Shows none view := unprotected.shown
  obtain ⟨disk, sealing, rewritten⟩ := recryptAll_passes weaker bare
    (fun _ => Directory.mem_walkedItems) survives
  have started : safe begun :=
    survives begun.directory ⟨rfl, bare.mono weaker, fun _ => .inl rfl, rfl⟩
  have holds : Holds vault cipher begun := ⟨rfl, rfl, rfl⟩
  have heads : disk.HeadsSealed := (recryptAll_seals holds sealing.foldlM_eq_ok).2
  let sealedStore := { begun with directory := disk }
  obtain ⟨after, record, seen, adopting, adopted⟩ := adoptGenerations_passes
    (show sealedStore.cipher = some cipher from rfl) rfl implied ended
    rewritten.vault heads
    (previous disk rewritten.previous) rewritten.shown unprotected.keeps moving
    (mem_logs_iff_of_shows unprotected.shown rewritten.shown)
  exact ⟨after, record, seen, ⟨begun, rfl, started, sealing.append adopting⟩, adopted⟩

theorem protect_passes (kind : Kind) :
    Running (Survives clean holdings) (Ready clean holdings) (store.protect kind) := by
  let cipher := store.protectedWith
  let begun := store.begunWith kind
  have keys : ∀ fresh, (cipher.wrap kind none).unwrap fresh = cipher := fun _ => rfl
  have implied : ∀ after, Unanchored clean (cipher.wrap kind none) cipher holdings after ->
      Survives clean holdings after := by
    rintro after ⟨inPlace, previous, seen, shownNow, kept, moved⟩
    exact ⟨cipher, cipher.wrap kind none, inPlace, previous, keys,
      .inr ⟨rfl, rfl, seen, shownNow, kept, moved⟩⟩
  have ended : ∀ disk record seen,
      Adopted clean (cipher.wrap kind none) cipher view holdings disk record seen ->
        Survives clean holdings (begun.recording disk record) :=
    fun disk record seen adopted => ⟨cipher, _, (adopted.unlocked rfl keys).recoverable⟩
  obtain ⟨disk, record, seen, passes, adopted⟩ := protect_adopts unprotected kind implied ended
  exact ⟨_, passes, cipher, _, record, seen,
    adopted.unlocked rfl keys⟩

end

theorem removeProtection_passes (unlocked : Unlocked clean holdings cipher vault record view store)
    (listed : ∀ name, view (.log name) ≠ none -> ∃ entry,
      record.history.lookup name = some entry ∧ name = .mac cipher.naming entry.conversation) :
    Running (fun _ => True) (fun final => ∃ seen, Unprotected clean holdings seen final)
      (store.removeProtection cipher) := by
  let begun := { store.removeProtection cipher with program := [] }
  have recorded : (begun.directory.read .state).isSome := by
    obtain ⟨_, read, _⟩ := Directory.readRecord_state_eq_some.mp unlocked.standing.current
    have found : begun.directory.read .state = _ := read
    rw [found]
    rfl
  obtain ⟨_, seen, passes, bare, cleared⟩ := decryptAll_passes
    (show begun.directory.Shows (some cipher) view from unlocked.standing.shown)
    unlocked.standing.keeps recorded unlocked.standing.plain
    (fun name present => by
      obtain ⟨entry, entered, named⟩ := listed name present
      exact ⟨entry, entered, (unlocked.standing.index name entry entered).1⟩)
  have program : (store.removeProtection cipher).program =
      begun.directory.decryptAll cipher (some record) ++ [.removeVault] := by
    simp only [removeProtection, unlocked.bound, Binding.record]
    rfl
  rw [Running, program]
  refine ⟨_, passes, seen, ?_⟩
  exact
    { bare
      cipher := rfl
      binding := rfl
      building := unlocked.building
      previous := fun _ cells found => absurd (cleared.previous.symm.trans found) (by simp)
      shown := cleared.shown
      keeps := cleared.keeps
      logs := fun chat => by
        have only : ∀ naming, view (.log (.mac naming chat)) ≠ none ->
            naming = cipher.naming := fun naming present => by
          obtain ⟨entry, _, named⟩ := listed _ present
          exact (LogName.mac.inj named).1
        by_cases held : view (.log (.mac cipher.naming chat)) = none
        · rcases cleared.plain chat with missing | ⟨naming, moved⟩
          · rw [missing, ← held, unlocked.standing.logs]
          rw [moved]
          by_cases none : view (.log (.mac naming chat)) = none
          · rw [none, ← held, unlocked.standing.logs]
          · rw [only naming none, unlocked.standing.logs]
        rcases cleared.plain chat with missing | ⟨naming, moved⟩
        · exact absurd missing (cleared.moved _ chat held)
        have present : view (.log (.mac naming chat)) ≠ none := by
          rw [← moved]
          exact cleared.moved _ chat held
        rw [moved, only naming present, unlocked.standing.logs]
      drawn := fun naming chat present => absurd (cleared.mac naming chat) present }

end Store

end Silver.Client.Protection
