import Silver.Foundation.Program
import Silver.Client.Protection.Machine

/-!
# What an unlock settles

The writes of an unlock keep the keys of the vault, and leave no walked file in the
clear and a record the next unlock reads as this one does.
-/

namespace Silver.Client.Protection

open Foundation Cell Directory List Option Store

namespace Directory

variable {disk : Directory}

section

variable (disk)

@[simp] theorem vault_write (item : Item) (cells : List Cell) :
    (disk.write item cells).vault = disk.vault :=
  rfl

@[simp] theorem vault_remove (item : Item) :
    (disk.remove item).vault = disk.vault :=
  rfl

@[simp] theorem read_writeVault (vault : Vault) (item : Item) :
    (disk.writeVault vault).read item = disk.read item :=
  rfl

theorem read_write (item other : Item) (cells : List Cell) :
    (disk.write item cells).read other =
      if other = item then some cells else disk.read other := by
  by_cases same : other = item
  · subst same
    simp [read, write]
  · simp [read, write, same, AList.lookup_insert_ne same]

@[simp] theorem read_write_self (item : Item) (cells : List Cell) :
    (disk.write item cells).read item = some cells := by
  rw [read_write, if_pos rfl]

end

theorem read_write_of_ne (apart : other ≠ item) :
    (disk.write item cells).read other = disk.read other := by
  rw [read_write, if_neg apart]

theorem read_remove (disk : Directory) (item other : Item) :
    (disk.remove item).read other = if other = item then none else disk.read other := by
  by_cases same : other = item
  · subst same
    simp [read, remove]
  · simp [read, remove, same, AList.lookup_erase_ne same]

@[simp] theorem read_remove_self (disk : Directory) (item : Item) :
    (disk.remove item).read item = none := by
  rw [read_remove, if_pos rfl]

theorem read_remove_of_ne (apart : other ≠ item) :
    (disk.remove item).read other = disk.read other := by
  rw [read_remove, if_neg apart]

theorem mem_keys : item ∈ disk.contents.keys ↔ (disk.read item).isSome := by
  rw [read, AList.lookup_isSome]
  exact Iff.rfl

theorem mem_logs {name : LogName} : name ∈ disk.logs ↔ (disk.read (.log name)).isSome := by
  rw [← mem_keys, logs, mem_filterMap]
  constructor
  · rintro ⟨item, mem, _⟩
    cases item <;> simp_all
  intro mem
  exact ⟨.log name, mem, rfl⟩

theorem mem_downloads {name : String} :
    name ∈ disk.downloads ↔ (disk.read (.download name)).isSome := by
  rw [← mem_keys, downloads, mem_filterMap]
  constructor
  · rintro ⟨item, mem, _⟩
    cases item <;> simp_all
  intro mem
  exact ⟨.download name, mem, rfl⟩

end Directory

def Item.walked : Item -> Prop
  | .file _ => True
  | .log _ => True
  | _ => False

namespace Directory

variable {disk : Directory}

def HeadsSealed (directory : Directory) : Prop :=
  ∀ item, item.walked -> ∀ cells, directory.read item = some cells ->
    ∀ cell ∈ cells.head?, cell.isPlain = false

theorem anyPlain_eq_false_iff : disk.anyPlain = false ↔ disk.HeadsSealed := by
  simp only [anyPlain, Bool.or_eq_false_iff, List.any_eq_false, HeadsSealed, Option.any_eq_true,
    not_exists, not_and, mem_def, Bool.not_eq_true]
  constructor
  · rintro ⟨files, logs⟩ item walked cells found
    cases item with
    | file name => exact files name (mem_recryptedFiles name) cells found
    | log name => exact logs name (mem_logs.mpr (by rw [found]; rfl)) cells found
    | state | statePrevious | download name => exact walked.elim
  intro heads
  exact ⟨fun name _ cells found => heads (.file name) trivial cells found,
    fun name _ cells found => heads (.log name) trivial cells found⟩

theorem HeadsSealed.write {item : Item} {cells : List Cell} (heads : disk.HeadsSealed)
    (covered : item.walked -> ∀ cell ∈ cells.head?, cell.isPlain = false) :
    (disk.write item cells).HeadsSealed := by
  intro other walked written found
  rw [read_write] at found
  split at found
  next same =>
    cases found
    exact covered (same ▸ walked)
  next => exact heads other walked written found

theorem HeadsSealed.remove {item : Item} (heads : disk.HeadsSealed) :
    (disk.remove item).HeadsSealed := by
  intro other walked cells found
  rw [read_remove] at found
  split at found
  next => cases found
  next => exact heads other walked cells found

end Directory

theorem head_encode_sealed (cipher : Cipher) (item : Item) (payloads : List Payload) (cell : Cell)
    (first : cell ∈ (payloads.map (encode (some cipher) item)).head?) :
    cell.isPlain = false := by
  cases payloads with
  | nil => cases first
  | cons _ payloads =>
    cases first
    rfl

namespace Directory

theorem recrypted_eq_some {disk after : Directory} {item : Item}
    (done : disk.recrypted source target item = some after) :
    (after = disk ∧ (disk.read item = none ∨ ¬item.walked)) ∨
      ∃ cells payloads, disk.read item = some cells ∧
        cells.mapM (opens source item) = some payloads ∧
        after = disk.write item (payloads.map (encode target item)) := by
  unfold recrypted at done
  split at done
  next missing => exact .inl ⟨(some.inj done).symm, .inl missing⟩
  next cells found =>
    split at done
    next => exact .inl ⟨(some.inj done).symm, .inr id⟩
    next =>
      obtain ⟨payloads, opened, rfl⟩ := map_eq_some_iff.mp done
      exact .inr ⟨cells, payloads, found, opened, rfl⟩
  next cells _ found =>
    obtain ⟨payloads, opened, rfl⟩ := map_eq_some_iff.mp done
    exact .inr ⟨cells, payloads, found, opened, rfl⟩

end Directory

namespace Store

variable {store next : Store} {vault : Vault} {cipher : Cipher}
  {disk : Directory}

theorem execute_frame (done : store.execute instruction = .ok next) :
    next.fresh = store.fresh ∧ next.program = store.program := by
  cases instruction with
  | adoptFile _ | adoptLog _ | bindFile _ | raiseAnchor | recrypt _ _ _ | moveLog _ _ _
  | dropRecord =>
    simp only [execute, adoptFile, adoptLog, bindFile, raiseAnchor] at done
    repeat' split at done
    all_goals first | contradiction | (cases done; exact ⟨rfl, rfl⟩)
  | loadRecord | keepPrevious | writeRecord | coverFiles =>
    cases done
    dsimp only [loadRecord, keepPrevious, writeRecord]
    split <;> exact ⟨rfl, rfl⟩
  | writeVault vault cipher | remove item | forgetRecord | removeVault | startRecord
  | adoptMoved | removeAdopted => cases done; exact ⟨rfl, rfl⟩

theorem complete_frame (ended : store.complete = .ok final) :
    final.fresh = store.fresh ∧ final.program = [] := by
  let keeps : Store -> Prop := fun state => state.fresh = store.fresh ∧ state.program = []
  have preserve : ∀ instruction ∈ store.program, ∀ state next, keeps state ->
      execute state instruction = .ok next -> keeps next := by
    rintro instruction _ state next ⟨drawn, ended⟩ done
    obtain ⟨fresh, program⟩ := execute_frame done
    exact ⟨fresh.trans drawn, program.trans ended⟩
  have start : keeps { store with program := [] } := ⟨rfl, rfl⟩
  exact foldlM_keeps preserve start ended

/-- What an unlock rests on while it rewrites files: the vault, the keys in memory,
the record in force and the one being made. -/
structure Holds (vault : Vault) (cipher : Cipher) (store : Store) : Prop where
  inPlace : store.directory.vault = some vault
  unlocked : store.cipher = some cipher
  building : store.building = none

theorem execute_recrypt (done : store.execute (.recrypt source target item) = .ok next) :
    ∃ disk, store.directory.recrypted source target item = some disk ∧
      next = store.withDirectory disk := by
  simp only [execute] at done
  split at done
  next disk recrypted =>
    cases done
    exact ⟨disk, recrypted, rfl⟩
  next => cases done

theorem Holds.recrypt (holds : Holds vault cipher store)
    (done : store.execute (.recrypt source target item) = .ok next) :
    Holds vault cipher next := by
  obtain ⟨_, recrypted, rfl⟩ := execute_recrypt done
  refine ⟨?_, holds.unlocked, holds.building⟩
  rcases recrypted_eq_some recrypted with ⟨rfl, _⟩ | ⟨_, _, _, _, rfl⟩
  · exact holds.inPlace
  · exact holds.inPlace

theorem read_head_of_recrypt {other : Item}
    (done : store.execute (.recrypt source (some target) item) = .ok next) (walked : other.walked)
    (found : next.directory.read other = some cells) :
    (other = item ∧ ∀ cell ∈ cells.head?, cell.isPlain = false) ∨
      store.directory.read other = some cells ∧ other ≠ item := by
  obtain ⟨_, recrypted, rfl⟩ := execute_recrypt done
  by_cases same : other = item
  · subst same
    rcases recrypted_eq_some recrypted with ⟨rfl, missing | skipped⟩ | written
    · exact absurd (missing.symm.trans found) nofun
    · exact absurd walked skipped
    obtain ⟨before, payloads, _, _, rfl⟩ := written
    simp only [withDirectory, read_write, ↓reduceIte, some.injEq] at found
    subst found
    exact .inl ⟨rfl, head_encode_sealed target other payloads⟩
  rcases recrypted_eq_some recrypted with ⟨rfl, _⟩ | written
  · exact .inr ⟨found, same⟩
  obtain ⟨before, payloads, _, _, rfl⟩ := written
  simp only [withDirectory, read_write, same, ↓reduceIte] at found
  exact .inr ⟨found, same⟩

theorem recryptAll_seals (holds : Holds vault cipher store)
    (ended : (store.directory.recryptAll source target).foldlM execute store = .ok final) :
    Holds vault cipher final ∧ final.directory.HeadsSealed := by
  let invariant : List Instruction -> Store -> Prop := fun rest state =>
    (∀ instruction ∈ rest, ∃ item, instruction = .recrypt source (some target) item) ∧
      Holds vault cipher state ∧
      ∀ item, item.walked -> ∀ cells, state.directory.read item = some cells ->
        .recrypt source (some target) item ∈ rest ∨ ∀ cell ∈ cells.head?, cell.isPlain = false
  have preserve : ∀ first rest state next, invariant (first :: rest) state ->
      execute state first = .ok next -> invariant rest next := by
    rintro first rest state next ⟨shape, kept, covered⟩ done
    obtain ⟨item, rfl⟩ := shape first (.head _)
    refine ⟨fun instruction mem => shape instruction (.tail _ mem),
      kept.recrypt done, fun other walked cells found => ?_⟩
    rcases read_head_of_recrypt done walked found with ⟨_, sealed⟩ | ⟨before, apart⟩
    · exact .inr sealed
    refine (covered other walked cells before).imp_left fun mem => ?_
    simpa [apart] using mem
  have start : invariant (store.directory.recryptAll source target) store := by
    refine ⟨fun instruction mem => ?_, holds, fun item walked cells found => .inl ?_⟩
    · obtain ⟨item, _, rfl⟩ := mem_map.mp mem
      exact ⟨item, rfl⟩
    refine mem_map.mpr ⟨item, ?_, rfl⟩
    cases item with
    | file name => simp [walkedItems, mem_recryptedFiles]
    | log name => simp [walkedItems, mem_logs, found]
    | state | statePrevious | download name => exact walked.elim
  obtain ⟨_, kept, covered⟩ := foldlM_leads preserve start ended
  exact ⟨kept, fun item walked cells found =>
    (covered item walked cells found).resolve_left not_mem_nil⟩

theorem recryptAll_keeps (holds : Holds vault cipher store) (heads : store.directory.HeadsSealed)
    (ended : (disk.recryptAll source target).foldlM execute store = .ok final) :
    Holds vault cipher final ∧ final.directory.HeadsSealed := by
  let keeps : Store -> Prop := fun state => Holds vault cipher state ∧ state.directory.HeadsSealed
  have preserve : ∀ instruction ∈ disk.recryptAll source target, ∀ state next,
      keeps state -> execute state instruction = .ok next -> keeps next := by
    rintro instruction mem state next ⟨kept, before⟩ done
    obtain ⟨_, _, rfl⟩ := mem_map.mp mem
    refine ⟨kept.recrypt done, fun other walked cells found => ?_⟩
    rcases read_head_of_recrypt done walked found with ⟨_, sealed⟩ | ⟨unchanged, _⟩
    · exact sealed
    · exact before other walked cells unchanged
  have start : keeps store := ⟨holds, heads⟩
  exact foldlM_keeps preserve start ended

/-- A record in the making, beside what an unlock rests on. -/
structure Making (vault : Vault) (cipher : Cipher) (store : Store) : Prop where
  inPlace : store.directory.vault = some vault
  unlocked : store.cipher = some cipher
  heads : store.directory.HeadsSealed
  building : ∃ record, store.building = some record

/-- The same, with every file it should name in it. -/
structure Covering (vault : Vault) (cipher : Cipher) (store : Store) : Prop
    extends Making vault cipher store where
  covers : ∀ record, store.building = some record -> COVERS_LOG_AND_OUTBOX <= record.covers

/-- A store an unlock has gone through on: its keys are the vault's, nothing walked
starts in the clear, and its record is the one a further unlock reads. -/
structure Settled (vault : Vault) (cipher : Cipher) (store : Store) : Prop where
  inPlace : store.directory.vault = some vault
  unlocked : store.cipher = some cipher
  heads : store.directory.HeadsSealed
  anchored : ∃ anchor, vault.stateGeneration = some anchor ∧
    store.binding = store.directory.readGenerations cipher anchor
  covers : ∀ record, store.binding = .bound record -> COVERS_LOG_AND_OUTBOX <= record.covers
  building : store.building = none

theorem readGenerations_of_written {record : Record}
    (written : disk.read .state = some [encode (some cipher) .state (.record record)]) :
    disk.readGenerations cipher record.generation = .bound record := by
  simp [readGenerations, readRecord, written, encode, Cipher.opensKey, filter_some]

section

variable (covering : Covering vault cipher store)
include covering

theorem Covering.persist (ended : persistGenerations.foldlM execute store = .ok final) :
    ∃ age, Settled { vault with stateGeneration := some age } cipher final := by
  obtain ⟨record, making⟩ := covering.building
  obtain ⟨_, keeping, rest⟩ := foldlM_cons_eq_ok.mp ended
  obtain ⟨_, writing, rest⟩ := foldlM_cons_eq_ok.mp rest
  obtain ⟨_, raising, rest⟩ := foldlM_cons_eq_ok.mp rest
  cases rest
  cases keeping
  cases writing
  have previous : Making vault cipher store.keepPrevious ∧
      store.keepPrevious.building = some record := by
    unfold keepPrevious
    split
    · exact ⟨{ covering with heads := covering.heads.write False.elim }, making⟩
    · exact ⟨covering.toMaking, making⟩
  obtain ⟨held, stillMaking⟩ := previous
  simp only [writeRecord, stillMaking, execute, raiseAnchor, withDirectory,
    vault_write, held.inPlace] at raising
  cases raising
  refine ⟨record.generation, ?_⟩
  exact
    { inPlace := rfl
      unlocked := held.unlocked
      heads := held.heads.write False.elim
      anchored := by
        refine ⟨record.generation, rfl, (readGenerations_of_written ?_).symm⟩
        simp [held.unlocked]
      covers := fun other bound => by
        cases bound
        exact covering.covers record making
      building := rfl }

theorem Covering.adoptFile {name : FileName} (done : store.adoptFile name = .ok next) :
    Covering vault cipher next := by
  unfold Store.adoptFile at done
  split at done
  next record _ _ _ making _ =>
    split at done
    next =>
      cases done
      refine ⟨⟨?_, covering.unlocked, ?_, _, rfl⟩, fun other made => ?_⟩
      · dsimp only
        split <;> exact covering.inPlace
      · dsimp only
        split
        · rw [covering.unlocked]
          exact covering.heads.write fun _ => head_encode_sealed cipher (.file name) [_]
        · exact covering.heads
      cases made
      exact covering.covers record making
    next => cases done
  next =>
    cases done
    exact covering

theorem Covering.adoptLog {chat : Conversation} (done : store.adoptLog chat = .ok next) :
    Covering vault cipher next := by
  obtain ⟨record, making⟩ := covering.building
  unfold Store.adoptLog Directory.copyLog at done
  dsimp only at done
  split at done
  next disk _ copied =>
    cases done
    have kept : disk.vault = some vault ∧ disk.HeadsSealed := by
      split at copied
      · cases copied
        exact ⟨covering.inPlace, covering.heads⟩
      obtain ⟨payloads, _, copied⟩ := map_eq_some_iff.mp copied
      cases copied
      refine ⟨covering.inPlace, ?_⟩
      rw [covering.unlocked]
      exact covering.heads.write fun _ => head_encode_sealed cipher _ payloads
    refine ⟨⟨kept.1, covering.unlocked, kept.2, by simp [making]⟩, fun other made => ?_⟩
    simp only [making, map_some, some.injEq] at made
    rw [← made]
    exact covering.covers record making
  next => cases done

theorem Covering.adoptMoved (name : LogName) : Covering vault cipher (store.adoptMoved name) := by
  obtain ⟨record, making⟩ := covering.building
  refine ⟨{ covering with building := by simp [Store.adoptMoved, making] }, fun other made => ?_⟩
  simp only [Store.adoptMoved, making, Option.map_some, Option.some.injEq] at made
  rw [← made]
  split <;> exact covering.covers record making

theorem Covering.removeAdopted {chat : Conversation}
    (done : store.execute (.removeAdopted chat) = .ok next) : Covering vault cipher next := by
  obtain ⟨record, making⟩ := covering.building
  cases done
  refine ⟨⟨covering.inPlace, covering.unlocked, covering.heads.remove, by simp [making]⟩,
    fun other made => ?_⟩
  simp only [making, map_some, some.injEq] at made
  rw [← made]
  exact covering.covers record making

end

theorem adoptGenerations_settles
    (holds : Holds vault cipher store) (heads : store.directory.HeadsSealed)
    (ended : disk.adoptGenerations.foldlM execute store = .ok final) :
    ∃ age, Settled { vault with stateGeneration := some age } cipher final := by
  obtain ⟨adopted, walking, persisting⟩ := foldlM_append_eq_ok.mp ended
  obtain ⟨filed, filing, moving⟩ := foldlM_append_eq_ok.mp walking
  obtain ⟨_, starting, filing⟩ := foldlM_cons_eq_ok.mp filing
  cases starting
  have start : Covering vault cipher { store with building := some .first } :=
    { holds with
      heads
      building := ⟨_, rfl⟩
      covers := fun record made => by
        cases made
        exact .refl }
  have files : Covering vault cipher filed := by
    refine foldlM_keeps (fun instruction mem state next covering done => ?_) start filing
    obtain ⟨name, _, rfl⟩ := mem_map.mp mem
    exact covering.adoptFile done
  have logs : Covering vault cipher adopted := by
    refine foldlM_keeps (fun instruction mem state next covering done => ?_) files moving
    obtain ⟨name, _, within⟩ := mem_flatMap.mp mem
    cases name with
    | plain chat =>
      simp only [adoptHistory, mem_cons, not_mem_nil, or_false] at within
      rcases within with rfl | rfl
      · exact covering.adoptLog done
      · exact covering.removeAdopted done
    | mac _ chat =>
      obtain rfl := mem_singleton.mp within
      cases done
      exact covering.adoptMoved _
  exact logs.persist persisting

theorem Making.bindFile
    {name : FileName} (held : Making vault cipher store) (done : store.bindFile name = .ok next) :
    Making vault cipher next := by
  unfold Store.bindFile at done
  split at done
  next =>
    split at done
    next =>
      cases done
      refine ⟨held.inPlace, held.unlocked, ?_, _, rfl⟩
      rw [held.unlocked]
      exact held.heads.write fun _ => head_encode_sealed cipher (.file name) [_]
    next => cases done
  next =>
    cases done
    exact held

theorem bindUncovered_of_none (none : store.building = none) :
    bindUncovered.foldlM execute store = .ok store := by
  simp [bindUncovered, persistGenerations, execute, bindFile, keepPrevious, writeRecord,
    raiseAnchor, none, bind, Except.bind, pure, Except.pure]

theorem loadRecord_eq {anchor : Nat} (unlocked : store.cipher = some cipher)
    (inPlace : store.directory.vault = some vault)
    (anchored : vault.stateGeneration = some anchor) :
    store.loadRecord =
      { store with
        binding := store.directory.readGenerations cipher anchor
        building := (store.directory.readGenerations cipher anchor).record.filter
          fun record => record.covers < COVERS_LOG_AND_OUTBOX } := by
  simp [loadRecord, unlocked, inPlace, anchored]

theorem loadRecord_settles
    {anchor : Nat} (holds : Holds vault cipher store) (heads : store.directory.HeadsSealed)
    (anchored : vault.stateGeneration = some anchor)
    (ended : (disk.loadGenerations (some anchor)).foldlM execute store = .ok final) :
    ∃ age, Settled { vault with stateGeneration := some age } cipher final := by
  obtain ⟨_, loading, binding⟩ := foldlM_cons_eq_ok.mp ended
  cases loading
  have reading := loadRecord_eq holds.unlocked holds.inPlace anchored
  cases making : store.loadRecord.building with
  | none =>
    obtain rfl := Except.ok.inj ((bindUncovered_of_none making).symm.trans binding)
    refine ⟨anchor, ?_⟩
    rw [reading] at making ⊢
    exact
      { inPlace := by rw [← anchored]; exact holds.inPlace
        unlocked := holds.unlocked
        heads
        anchored := ⟨anchor, rfl, rfl⟩
        covers := fun record bound => by
          dsimp only at bound making
          rw [bound] at making
          simpa [Binding.record] using making
        building := making }
  | some record =>
    obtain ⟨_, covering, persisting⟩ := foldlM_append_eq_ok.mp binding
    obtain ⟨_, bindingFirst, rest⟩ := foldlM_cons_eq_ok.mp covering
    obtain ⟨second, bindingSecond, rest⟩ := foldlM_cons_eq_ok.mp rest
    obtain ⟨_, coveringFiles, rest⟩ := foldlM_cons_eq_ok.mp rest
    cases rest
    have start : Making vault cipher store.loadRecord := by
      rw [reading] at making ⊢
      exact ⟨holds.inPlace, holds.unlocked, heads, record, making⟩
    have bound := (start.bindFile bindingFirst).bindFile bindingSecond
    obtain ⟨last, made⟩ := bound.building
    cases coveringFiles
    have complete : Covering vault cipher
        { second with
          binding := .bound { last with covers := COVERS_LOG_AND_OUTBOX }
          building := some { last with covers := COVERS_LOG_AND_OUTBOX } } :=
      { bound with
        building := ⟨_, rfl⟩
        covers := fun other made => by
          cases made
          exact .refl }
    rw [made] at persisting
    exact complete.persist persisting

theorem unlock_settles {fresh : Key} ( isProtected : disk.vault = some vault)
    (ended : ((opened disk fresh).unlock vault).complete = .ok final) :
    ∃ age, Settled { vault with previous := none, stateGeneration := some age }
        (vault.unwrap fresh).settled final := by
  obtain ⟨rotated, rewriting, loading⟩ := foldlM_append_eq_ok.mp ended
  obtain ⟨tidied, tidying, rotating⟩ := foldlM_append_eq_ok.mp rewriting
  have start : Holds vault (vault.unwrap fresh)
      { (opened disk fresh).unlock vault with program := [] } :=
    ⟨isProtected, rfl, rfl⟩
  have sealed : Holds vault (vault.unwrap fresh) tidied ∧ tidied.directory.HeadsSealed := by
    split at tidying
    next => exact recryptAll_seals start tidying
    next clean =>
      cases tidying
      exact ⟨start, anyPlain_eq_false_iff.mp (Bool.eq_false_iff.mpr clean)⟩
  have finished : Holds { vault with previous := none } (vault.unwrap fresh).settled rotated ∧
      rotated.directory.HeadsSealed := by
    split at rotating
    next =>
      obtain ⟨_, moving, dropping⟩ := foldlM_append_eq_ok.mp rotating
      obtain ⟨kept, heads⟩ := recryptAll_keeps sealed.1 sealed.2 moving
      obtain ⟨_, writing, rest⟩ := foldlM_cons_eq_ok.mp dropping
      cases rest
      cases writing
      exact ⟨⟨rfl, rfl, kept.building⟩, heads⟩
    next single =>
      cases rotating
      have alone : vault.previous = none := by simpa using single
      have same : { vault with previous := none } = vault := by
        rw [← alone]
      have settled : (vault.unwrap fresh).settled = vault.unwrap fresh := by
        simp [Vault.unwrap, Cipher.settled, alone]
      rw [same, settled]
      exact sealed
  cases anchor : vault.stateGeneration with
  | none =>
    rw [anchor] at loading
    exact adoptGenerations_settles finished.1 finished.2 loading
  | some age =>
    rw [anchor] at loading
    exact loadRecord_settles finished.1 finished.2 anchor loading

theorem Settled.unlock_again
    (settled : Settled vault cipher store) (keys : vault.unwrap store.fresh = cipher)
    (named : vault.naming.isSome) (single : vault.previous = none) (idle : store.program = []) :
    (store.crash.unlock vault).complete = .ok store := by
  obtain ⟨_, anchored, bound⟩ := settled.anchored
  have clean := anyPlain_eq_false_iff.mpr settled.heads
  have nothingLeft : store.binding.record.filter
      (fun record => decide (record.covers < COVERS_LOG_AND_OUTBOX)) = none := by
    cases inForce : store.binding with
    | unbound | unreadable => rfl
    | bound record => simpa [Binding.record] using settled.covers record inForce
  have program : (store.crash.unlock vault).program = .loadRecord :: bindUncovered := by
    simp [unlock, crash, opened, clean, single, anchored, loadGenerations]
  have loaded : execute { store.crash.unlock vault with program := [] } .loadRecord =
      .ok store := by
    have held : ({ store.crash.unlock vault with program := [] } : Store).cipher = some cipher :=
      congrArg some keys
    rw [execute, loadRecord_eq held settled.inPlace anchored]
    rw [bound] at nothingLeft
    obtain ⟨_, _, binding, building, fresh, _⟩ := store
    obtain ⟨inPlace, unlocked, _, _, _, notMaking⟩ := settled
    dsimp only at unlocked notMaking idle bound
    subst unlocked notMaking idle bound
    simp only [unlock, crash, opened, keys, named, ↓reduceIte] at nothingLeft ⊢
    rw [nothingLeft]
  rw [complete, program]
  exact foldlM_cons_eq_ok.mpr ⟨store, loaded, bindUncovered_of_none settled.building⟩

end Store

end Silver.Client.Protection
