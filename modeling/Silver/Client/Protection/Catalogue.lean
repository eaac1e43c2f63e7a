import Silver.Client.Protection.Logs

/-!
# Directories whose index names every log

Under protection a log's name does not say whose it is, and the record is the only
list of the conversations.  Unlocking a directory, protecting it, replacing its key
and starting its record again leave every log in the record, with the one exception
of an adoption that meets a log already moved.
-/

namespace Silver.Client.Protection

open Foundation Protocol Directory Option Cell Cipher
open Function (update)

def View.Legible (view : View) : Prop :=
  ∃ holdings, view.Keeps holdings

/-- The keys a vault may be unlocked to: the naming key is drawn if it keeps none. -/
structure Vault.Yields (vault : Vault) (cipher : Cipher) : Prop where
  key : cipher.key = vault.key
  alone : vault.previous = none
  single : cipher.previous = none
  named : ∀ naming, vault.naming = some naming → cipher.naming = naming

def Directory.FilesSealed (directory : Directory) : Prop :=
  ∀ name cells, directory.read (.file name) = some cells →
    ∀ cell ∈ cells.head?, cell.isPlain = false

/-- A directory that opens, with every log under a name that says nothing and in the
index. -/
structure Catalogue (cipher : Cipher) (record : Record) (directory : Directory) (view : View) :
    Prop where
  shown : directory.Shows (some cipher) view
  legible : view.Legible
  plain : ∀ conversation, view (.log (.plain conversation)) = none
  index : ∀ name, view (.log name) ≠ none → ∃ entry,
    record.history.lookup name = some entry ∧ entry.conversation = name.conversation

/-- An unlocked store with a complete index. -/
structure Catalogued (cipher : Cipher) (vault : Vault) (record : Record) (view : View)
    (store : Store) : Prop where
  inPlace : store.directory.vault = some vault
  unlocked : store.cipher = some cipher
  keys : vault.Yields cipher
  bound : store.binding = .bound record
  anchor : vault.stateGeneration = some record.generation
  building : store.building = none
  current : store.directory.readRecord cipher .state = some record
  catalogue : Catalogue cipher record store.directory view
  files : store.directory.FilesSealed

/-- A store on a directory that is not protected, whose logs' names say whose they are. -/
structure Bare (view : View) (store : Store) : Prop where
  bare : store.directory.vault = none
  cipher : store.cipher = none
  binding : store.binding = .unbound
  building : store.building = none
  shown : store.directory.Shows none view
  legible : view.Legible
  named : ∀ naming conversation, view (.log (.mac naming conversation)) = none

/-- A protected directory the next unlock leaves with a complete index: it has one, or
it has no record yet and every log is under its plain name still. -/
inductive Left (directory : Directory) : Prop where
  | anchored (vault : Vault) (cipher : Cipher) (record : Record) (view : View)
      (inPlace : directory.vault = some vault)
      (keys : vault.Yields cipher)
      (anchor : vault.stateGeneration = some record.generation)
      (current : directory.readRecord cipher .state = some record)
      (catalogue : Catalogue cipher record directory view)
  | unanchored (vault : Vault) (cipher : Cipher) (view : View)
      (inPlace : directory.vault = some vault)
      (keys : vault.Yields cipher)
      (unanchored : vault.stateGeneration = none)
      (shown : directory.Shows (some cipher) view)
      (legible : view.Legible)
      (twin : ∀ naming conversation, view (.log (.mac naming conversation)) ≠ none →
        vault.naming = some naming ∧
          view (.log (.mac naming conversation)) = view (.log (.plain conversation)))

namespace View

variable {view : View}

theorem Legible.update_log (legible : view.Legible) (name : LogName) (lines : Option (List Text)) :
    Legible (update view (.log name) (lines.map (List.map Payload.text))) := by
  obtain ⟨holdings, keeps⟩ := legible
  exact ⟨holdings, keeps.update_log name lines⟩

theorem Legible.update_state (legible : view.Legible) (payloads : Option (List Payload)) :
    Legible (update view .state payloads) := by
  obtain ⟨holdings, keeps⟩ := legible
  refine ⟨holdings, fun name => ?_, fun name => ?_, fun name payloads seen => ?_⟩
  · simpa using keeps.files name
  · simpa using keeps.downloads name
  · exact keeps.texts name payloads seen

theorem Legible.holdings (legible : view.Legible) : ∃ holdings, view.Keeps holdings ∧
      ∀ chat, holdings.lines chat = view (.log (.plain chat)) := by
  obtain ⟨holdings, keeps⟩ := legible
  let logs := fun chat => (view (.log (.plain chat))).map (List.filterMap Payload.text?)
  refine ⟨{ holdings with logs }, { keeps with }, fun chat => ?_⟩
  cases seen : view (.log (.plain chat)) with
  | none => simp [Holdings.lines, logs, seen]
  | some payloads =>
    obtain ⟨lines, rfl⟩ := keeps.texts _ payloads seen
    have same : List.filterMap (fun line => (Payload.text line).text?) lines = lines :=
      List.filterMap_some
    simp [Holdings.lines, logs, seen, same]

end View

namespace Vault

theorem yields_unwrap {vault : Vault} (alone : vault.previous = none) (fresh : Key) :
    vault.Yields (vault.unwrap fresh) where
  key := rfl
  alone := alone
  single := alone
  named naming named := by simp [unwrap, named]

theorem Yields.weaker {vault : Vault} (yields : vault.Yields cipher) (also : vault.Yields other) :
    Weaker (some cipher) (some other) := by
  rintro _ ⟨⟩
  refine ⟨other, rfl, fun key opened => ?_⟩
  simpa [opensKey, yields.key, yields.single, also.key, also.single] using opened

end Vault

namespace Directory

variable {disk : Directory}

theorem FilesSealed.of_heads (heads : disk.HeadsSealed) : disk.FilesSealed :=
  fun name cells found => heads (.file name) trivial cells found

theorem FilesSealed.congr
    {after : Directory} (same : ∀ name, after.read (.file name) = disk.read (.file name))
    (files : disk.FilesSealed) :
    after.FilesSealed :=
  fun name cells found => files name cells (same name ▸ found)

theorem Shows.persisted {view : View} (shown : disk.Shows (some cipher) view)
    (vault : Vault) (record : Record) :
    (disk.persisted (some cipher) vault record).Shows (some cipher)
      (update view .state (some [.record record])) := by
  have opened : [encode (some cipher) .state (.record record)].mapM
      (opens (some cipher) .state) = some [.record record] :=
    mapM_opens_encode (by simp [opensKey]) [_]
  unfold Directory.persisted
  split
  next cells _ =>
    have kept : (disk.write .statePrevious cells).Shows (some cipher) view :=
      shown.congr fun _ apart => read_write_of_ne apart
    exact (kept.write opened).congr fun _ _ => rfl
  · exact (shown.write opened).congr fun _ _ => rfl

end Directory

namespace Catalogue

theorem mono (catalogue : Catalogue cipher record disk view)
    (weaker : Weaker (some cipher) (some other)) :
    Catalogue other record disk view :=
  { catalogue with shown := catalogue.shown.mono weaker }

theorem persisted (catalogue : Catalogue cipher record disk view) (vault : Vault) :
    Catalogue cipher record (disk.persisted (some cipher) vault record)
      (update view .state (some [.record record])) where
  shown := catalogue.shown.persisted vault record
  legible := catalogue.legible.update_state _
  plain chat := by simpa using catalogue.plain chat
  index name seen := catalogue.index name seen

end Catalogue

namespace Directory

theorem FilesSealed.persisted {disk : Directory} (files : disk.FilesSealed)
    (cipher : Cipher) (vault : Vault) (record : Record) :
    (disk.persisted (some cipher) vault record).FilesSealed := by
  refine files.congr fun name => ?_
  have notState : Item.file name ≠ .state := by simp
  change (Directory.write _ .state _).read (.file name) = _
  rw [read_write_of_ne notState]
  split
  · exact read_write_of_ne (by simp)
  · rfl

theorem readRecord_persisted
    (disk : Directory) (cipher : Cipher) (vault : Vault) (record : Record) :
    (disk.persisted (some cipher) vault record).readRecord cipher .state = some record := by
  have written : (disk.persisted (some cipher) vault record).read .state =
      some [.sealed cipher.key .state (.record record)] :=
    read_write_self ..
  simp [readRecord, written, opensKey]

end Directory

namespace Store

variable {store : Store} {vault : Vault} {cipher : Cipher}

theorem persist_eq
    (unlocked : store.cipher = some cipher) (inPlace : store.directory.vault = some vault)
    (record : Record) :
    store.persist record =
      ({ store with
          directory := store.directory.persisted (some cipher) vault record
          binding := .bound record
          building := none }, .ok ()) := by
  cases found : store.directory.read .state <;>
    simp [persist, keepPrevious, writeRecord, raiseAnchor, withDirectory, persisted,
      unlocked, found, write, inPlace]

theorem persistGenerations_passes {record : Record} (unlocked : store.cipher = some cipher)
    (inPlace : store.directory.vault = some vault) (anchored : vault.stateGeneration.isSome)
    (making : store.building = some record)
    (implied : ∀ after found, after.directory.vault = some found → found.stateGeneration.isSome →
      safe after) :
    Passes execute safe persistGenerations store
      { store with
        directory := store.directory.persisted (some cipher) vault record
        binding := .bound record
        building := none } := by
  refine ⟨_, rfl, implied _ vault ?_ anchored, _, rfl, implied _ vault ?_ anchored, _, ?_,
    implied _ _ rfl rfl, rfl⟩
  all_goals
    cases found : store.directory.read .state <;>
      simp [execute, keepPrevious, writeRecord, raiseAnchor, withDirectory, persisted,
        unlocked, making, found, write, inPlace]

section Unlocking

def covering (store : Store) (directory : Directory) (record : Record) : Store :=
  { store with directory, binding := .bound record, building := some record }

theorem bindFile_catalogue {disk : Directory} (unlocked : store.cipher = some cipher)
    (catalogue : Catalogue cipher record disk view) (files : disk.FilesSealed)
    (name : FileName) :
    ∃ after next seen,
      (store.covering disk record).bindFile name = .ok (store.covering after next) ∧
        after.vault = disk.vault ∧ Catalogue cipher next after seen ∧ after.FilesSealed := by
  rcases (catalogue.shown (.file name) nofun).cases with
    ⟨missing, _⟩ | ⟨cells, _, found, opened, seen⟩
  · exact ⟨disk, record, view, by simp [bindFile, covering, missing], rfl, catalogue, files⟩
  obtain ⟨holdings, keeps⟩ := catalogue.legible
  obtain ⟨generation, held⟩ := keeps.files name
  obtain ⟨data, kept, rfl⟩ := map_eq_some_iff.mp (held.symm.trans seen)
  obtain ⟨_, rfl, cellOpened⟩ := mapM_eq_singleton opened
  obtain ⟨_, _, _, rfl⟩ := sealed_of_opens cellOpened (files name _ found _ rfl)
  let next :=
    { record.wrote name (record.generation + 1) with generation := record.generation + 1 }
  let stamped :=
    [encode (some cipher) (.file name) (.bytes (some (record.generation + 1)) data)]
  have reopened : stamped.mapM (opens (some cipher) (.file name)) =
      some [.bytes (some (record.generation + 1)) data] :=
    mapM_opens_encode (by simp [opensKey]) [_]
  refine ⟨disk.write (.file name) stamped, next, _, ?_, rfl,
    ⟨catalogue.shown.write reopened, ⟨holdings, keeps.update_file kept⟩, ?_, ?_⟩, ?_⟩
  · simp [bindFile, covering, found, cellOpened, unlocked, stamped, next]
  · intro chat
    simpa using catalogue.plain chat
  · intro other present
    exact catalogue.index other present
  intro other cells read
  rw [read_write] at read
  split at read
  · cases read
    rintro _ ⟨⟩
    rfl
  · exact files other cells read

theorem loadRecord_catalogued (unlocked : store.cipher = some cipher)
    (inPlace : store.directory.vault = some vault) (keys : vault.Yields cipher)
    (anchor : vault.stateGeneration = some record.generation)
    (current : store.directory.readRecord cipher .state = some record)
    (catalogue : Catalogue cipher record store.directory view) (files : store.directory.FilesSealed)
    (implied : ∀ after found, after.directory.vault = some found → found.stateGeneration.isSome →
      safe after) :
    ∃ final, Passes execute safe (.loadRecord :: bindUncovered) store final ∧
      ∃ vault record view, Catalogued cipher vault record view final := by
  have anchored : vault.stateGeneration.isSome := by rw [anchor]; rfl
  have loaded : store.loadRecord =
      { store with
        binding := .bound record
        building := if record.covers < COVERS_LOG_AND_OUTBOX then some record else none } := by
    rw [loadRecord_eq unlocked inPlace anchor, readGenerations_of_readRecord current]
    simp [Binding.record, filter_some]
  by_cases uncovered : record.covers < COVERS_LOG_AND_OUTBOX
  · rw [if_pos uncovered] at loaded
    have begun := loaded
    obtain ⟨_, _, _, binding, firstVault, firstCatalogue, firstFiles⟩ :=
      bindFile_catalogue unlocked catalogue files .transparency
    obtain ⟨second, secondRecord, secondView, bindingAlso, secondVault, secondCatalogue,
      secondFiles⟩ := bindFile_catalogue unlocked firstCatalogue firstFiles .outbox
    let last := { secondRecord with covers := COVERS_LOG_AND_OUTBOX }
    have held : second.vault = some vault := (secondVault.trans firstVault).trans inPlace
    have put : Passes execute safe persistGenerations (store.covering second last)
        { store.covering second last with
          directory := second.persisted (some cipher) vault last
          binding := .bound last
          building := none } :=
      persistGenerations_passes unlocked held anchored rfl implied
    have lastCatalogue : Catalogue cipher last second secondView := { secondCatalogue with }
    have ended : Catalogued cipher { vault with stateGeneration := some last.generation } last
        (update secondView .state (some [.record last]))
        { store.covering second last with
          directory := second.persisted (some cipher) vault last
          binding := .bound last
          building := none } :=
      { inPlace := rfl
        unlocked
        keys := { keys with }
        bound := rfl
        anchor := rfl
        building := rfl
        current := readRecord_persisted ..
        catalogue := lastCatalogue.persisted vault
        files := secondFiles.persisted _ _ _ }
    exact ⟨_, ⟨_, congrArg Except.ok begun, implied _ vault inPlace anchored, _, binding,
      implied _ vault (firstVault.trans inPlace) anchored, _, bindingAlso,
      implied _ vault held anchored, store.covering second last, rfl,
      implied _ vault held anchored, put⟩, _, last, _, ended⟩
  rw [if_neg uncovered] at loaded
  refine ⟨store.loadRecord, ⟨_, rfl, ?_, ?_⟩, vault, record, view, ?_⟩
  · rw [loaded]
    exact implied _ vault inPlace anchored
  · rw [loaded]
    exact bindUncovered_passes rfl (implied _ vault inPlace anchored)
  rw [loaded]
  exact ⟨inPlace, unlocked, keys, rfl, anchor, rfl, current, catalogue, files⟩

end Unlocking

def Indexed (store : Store) : Prop :=
  ∃ cipher vault record view, Catalogued cipher vault record view store

def Adoptable (store : Store) : Prop :=
  ∃ vault cipher holdings, vault.stateGeneration = none ∧ vault.Yields cipher ∧
    Unanchored False vault cipher holdings store

def Proceeds (store : Store) : Prop :=
  store.unanchored → Adoptable store

theorem proceeds_of_anchored
    (inPlace : store.directory.vault = some vault) (anchored : vault.stateGeneration.isSome) :
    Proceeds store := by
  intro unanchored
  simp only [Store.unanchored, inPlace, any_some] at unanchored
  rw [isNone_iff_eq_none.mp unanchored] at anchored
  cases anchored

theorem Adopted.catalogued
    {start : View} {holdings : Holdings} {disk : Directory} {record : Record}
    (adopted : Adopted False vault cipher start holdings disk record view)
    (unlocked : store.cipher = some cipher) (keys : vault.Yields cipher)
    (twin : ∀ naming chat, start (.log (.mac naming chat)) ≠ none →
      naming = cipher.naming ∧ start (.log (.plain chat)) ≠ none) :
    Indexed (store.recording disk record) := by
  refine ⟨cipher, { vault with stateGeneration := some record.generation }, record, view, ?_⟩
  exact
    { adopted with
      unlocked
      keys := { keys with }
      bound := rfl
      anchor := rfl
      building := rfl
      catalogue :=
        { shown := adopted.shown
          legible := ⟨holdings, adopted.keeps⟩
          plain := adopted.plain
          index := fun name present => by
            cases name with
            | plain chat => exact absurd (adopted.plain chat) present
            | mac naming chat =>
              rcases adopted.indexed naming chat present with known | ⟨moved, untwinned⟩
              · obtain ⟨entry, entered⟩ := isSome_iff_exists.mp known
                obtain ⟨named, _⟩ := adopted.index _ entry entered
                exact ⟨entry, entered, (LogName.mac.inj named).2.symm⟩
              obtain ⟨named, kept⟩ := twin naming chat moved
              exact absurd (untwinned named) kept }
      files := .of_heads adopted.heads }

/-- An unlock of what was left goes through and ends with a complete index. -/
theorem unlock_indexes
    (left : Left store.directory) (inPlace : store.directory.vault = some vault) :
    Proceeds (store.unlock vault) ∧ Running Proceeds Indexed (store.unlock vault) := by
  let begun := { store.unlock vault with program := [] }
  have anchoredProceeds : ∀ after found, after.directory.vault = some found →
      found.stateGeneration.isSome → Proceeds after := fun _ _ => proceeds_of_anchored
  cases left with
  | anchored found cipher record view here keys anchor current catalogue =>
    cases inPlace.symm.trans here
    have anchored : vault.stateGeneration.isSome := by rw [anchor]; rfl
    refine ⟨proceeds_of_anchored inPlace anchored, ?_⟩
    let drawn := vault.unwrap store.fresh
    have yields : vault.Yields drawn := Vault.yields_unwrap keys.alone store.fresh
    have opens := keys.weaker yields
    have same : begun.Rewritten (some cipher) cipher (some drawn) view begun.directory :=
      ⟨rfl, catalogue.shown.mono opens, fun _ => .inl rfl, rfl⟩
    have listed := catalogue.mono opens
    have read := same.current current
    have program : (store.unlock vault).program =
        (if store.directory.anyPlain then store.directory.recryptAll (some drawn) drawn
          else []) ++ .loadRecord :: bindUncovered := by
      simp [unlock, keys.alone, anchor, loadGenerations, drawn]
    have kept : ∀ disk, begun.Rewritten (some drawn) drawn (some drawn) view disk →
        Proceeds { begun with directory := disk } := fun disk rewritten =>
      proceeds_of_anchored (rewritten.vault.trans inPlace) anchored
    have holds : Holds vault drawn begun := ⟨inPlace, rfl, rfl⟩
    obtain ⟨disk, tidying, rewritten, heads⟩ := tidy_passes yields.single holds listed.shown kept
    let tidied := { begun with directory := disk }
    have tidy : Catalogue drawn record tidied.directory view :=
      { listed with shown := rewritten.shown }
    obtain ⟨final, loading, ended⟩ := loadRecord_catalogued
      rfl
      (rewritten.vault.trans inPlace) yields
      anchor (rewritten.current read) tidy (.of_heads heads) anchoredProceeds
    rw [Running, program]
    exact ⟨final, tidying.append loading, drawn, ended⟩
  | unanchored found cipher view here keys unanchored shown legible twin =>
    cases inPlace.symm.trans here
    let drawn := vault.unwrap store.fresh
    have yields : vault.Yields drawn := Vault.yields_unwrap keys.alone store.fresh
    have shownNow : store.directory.Shows (some drawn) view := shown.mono (keys.weaker yields)
    obtain ⟨holdings, keeps, lines⟩ := legible.holdings
    have moving : view.Moving drawn.naming holdings := by
      refine ⟨fun chat => .inr (lines chat).symm, fun chat => ?_,
        fun chat => .inl (lines chat).symm⟩
      by_cases missing : view (.log (.mac drawn.naming chat)) = none
      · exact .inl missing
      rw [lines]
      exact .inr (twin _ chat missing).2
    have implied : ∀ after, Unanchored False vault drawn holdings after → Proceeds after :=
      fun after onTheWay _ => ⟨vault, drawn, holdings, unanchored, yields, onTheWay⟩
    refine ⟨implied _ ⟨inPlace, False.elim, view, shownNow, keeps, moving⟩, ?_⟩
    obtain ⟨disk, record, seen, passes, adopted⟩ := unlock_adopts inPlace rfl unanchored
      keys.alone False.elim shownNow keeps moving implied
      fun disk record seen adopted => proceeds_of_anchored adopted.inPlace rfl
    refine ⟨_, passes, adopted.catalogued rfl yields fun naming chat present => ?_⟩
    obtain ⟨named, copied⟩ := twin naming chat present
    exact ⟨(yields.named naming named).symm, copied ▸ present⟩

def Rested (store : Store) : Prop :=
  Indexed store ∨ ∃ view, Bare view store

theorem mem_logs_of_seen {disk : Directory} {name : LogName} (shown : disk.Shows source view) :
    name ∈ disk.logs ↔ view (.log name) ≠ none := by
  rw [mem_logs_iff_of_shows shown shown]
  rcases (shown (.log name) nofun).cases with ⟨missing, unseen⟩ | ⟨_, _, found, _, seen⟩
  · simp [missing, unseen]
  · simp [found, seen]

theorem Adoptable.left (adoptable : Adoptable store) (twinned : store.twinned) :
    Left store.directory := by
  obtain ⟨vault, cipher, holdings, unanchored, keys, inPlace, _, view, shown, keeps, moving⟩ :=
    adoptable
  refine .unanchored vault cipher view inPlace keys unanchored shown ⟨holdings, keeps⟩
    fun naming chat present => ?_
  have copied := List.all_eq_true.mp twinned _ ((mem_logs_of_seen shown).mpr present)
  simp only [inPlace, bind_some, Bool.and_eq_true, decide_eq_true_eq] at copied
  obtain ⟨named, kept⟩ := copied
  have plain : view (.log (.plain chat)) ≠ none := (mem_logs_of_seen shown).mp (mem_logs.mpr kept)
  rw [← keys.named naming named] at present ⊢
  refine ⟨by rw [named, keys.named naming named], ?_⟩
  rw [(moving.plain chat).resolve_left plain, (moving.mac chat).resolve_left present]

theorem protect_indexes (rest : Bare view store) (kind : Kind) :
    Running Proceeds Indexed (store.protect kind) := by
  obtain ⟨holdings, keeps, lines⟩ := rest.legible.holdings
  have unprotected : Unprotected False holdings view store :=
    { rest with
      previous := False.elim
      keeps
      logs := fun chat => (lines chat).symm
      drawn := fun naming chat seen => absurd (rest.named naming chat) seen }
  have keys : (store.protectedWith.wrap kind none).Yields store.protectedWith :=
    ⟨rfl, rfl, rfl, fun _ => some.inj⟩
  have implied : ∀ after, Unanchored False (store.protectedWith.wrap kind none)
      store.protectedWith holdings after → Proceeds after :=
    fun after onTheWay _ => ⟨_, _, holdings, rfl, keys, onTheWay⟩
  obtain ⟨disk, record, seen, passes, adopted⟩ := protect_adopts unprotected kind implied
    fun disk record seen adopted => proceeds_of_anchored adopted.inPlace rfl
  have unlocked : (store.begunWith kind).cipher = some store.protectedWith := rfl
  exact ⟨_, passes, adopted.catalogued unlocked keys fun naming chat present =>
    absurd (rest.named naming chat) present⟩

section Changing

variable (catalogued : Catalogued cipher vault record view store)
include catalogued

theorem Catalogued.no_logs (twinned : store.twinned) (name : LogName) :
    view (.log name) = none := by
  cases name with
  | plain chat => exact catalogued.catalogue.plain chat
  | mac _ chat =>
    by_contra present
    have shown := catalogued.catalogue.shown
    have copied := List.all_eq_true.mp twinned _ ((mem_logs_of_seen shown).mpr present)
    simp only [Bool.and_eq_true] at copied
    exact (mem_logs_of_seen shown).mp (mem_logs.mpr copied.2) (catalogued.catalogue.plain chat)

theorem resetRollbackProtection_indexes (twinned : store.twinned) :
    Proceeds store.resetRollbackProtection ∧
      Running Proceeds Indexed store.resetRollbackProtection := by
  let bare := (store.directory.remove .state).remove .statePrevious
  let start := { vault with stateGeneration := none }
  let begun :=
    { store with
      directory := bare.writeVault start
      binding := .unbound
      building := none
      program := [] }
  have reset : store.resetRollbackProtection = { begun with program := bare.adoptGenerations } := by
    simp [resetRollbackProtection, catalogued.unlocked, catalogued.inPlace, begun, bare, start]
  have keys : start.Yields cipher :=
    ⟨catalogued.keys.key, catalogued.keys.alone, catalogued.keys.single, catalogued.keys.named⟩
  let seen : View := update view .state none
  have shown : begun.directory.Shows (some cipher) seen :=
    catalogued.catalogue.shown.remove.congr fun item notPrevious => read_remove_of_ne notPrevious
  have empty : ∀ name, seen (.log name) = none := fun name => by
    simpa [seen] using Catalogued.no_logs catalogued twinned name
  obtain ⟨holdings, keeps, lines⟩ := (catalogued.catalogue.legible.update_state none).holdings
  have unseen : ∀ chat, holdings.lines chat = none := fun chat => (lines chat).trans (empty _)
  have moving : seen.Moving cipher.naming holdings :=
    ⟨fun _ => .inl (empty _), fun _ => .inl (empty _), fun chat =>
      .inl ((empty _).trans (unseen chat).symm)⟩
  have same : ∀ name, begun.directory.read (.file name) = store.directory.read (.file name) :=
    fun name => by
      have removed : begun.directory.read (.file name) = bare.read (.file name) := rfl
      simp [removed, bare, read_remove]
  have heads : begun.directory.HeadsSealed := by
    intro item walked cells found
    cases item with
    | file name => exact catalogued.files name cells ((same name).symm.trans found)
    | log name =>
      have missing := (mem_logs_of_seen shown).not.mpr (not_not.mpr (empty name))
      rw [mem_logs, found] at missing
      exact absurd rfl missing
    | state | statePrevious | download name => exact walked.elim
  have sameLogs : ∀ name, name ∈ bare.logs ↔ (begun.directory.read (.log name)).isSome :=
    fun name => mem_logs
  have implied : ∀ after, Unanchored False start cipher holdings after → Proceeds after :=
    fun after onTheWay _ => ⟨start, cipher, holdings, rfl, keys, onTheWay⟩
  obtain ⟨disk, made, now, passes, adopted⟩ := adoptGenerations_passes
    (show begun.cipher = some cipher from catalogued.unlocked) keys.single implied
    (fun disk made now adopted => proceeds_of_anchored adopted.inPlace rfl)
    rfl heads False.elim shown keeps moving sameLogs
  rw [reset]
  exact ⟨implied _ ⟨rfl, False.elim, seen, shown, keeps, moving⟩, _, passes,
    adopted.catalogued catalogued.unlocked keys fun naming chat present => absurd (empty _) present⟩

theorem rotateKey_indexes (kind : Kind) :
    Running (fun _ => True) Indexed (store.rotateKey cipher kind) := by
  let rotating := cipher.rotating store.fresh
  let both := rotating.wrap kind (some record.generation)
  let begun :=
    { store.rotateKey cipher kind with
      directory := store.directory.writeVault both, cipher := some rotating, program := [] }
  have shown : begun.directory.Shows (some cipher) view := catalogued.catalogue.shown
  obtain ⟨disk, moving, rewritten⟩ : ∃ disk,
      Passes execute (fun _ => True) (begun.directory.recryptAll (some cipher) rotating) begun
        { begun with directory := disk } ∧
      begun.Rewritten (some cipher) rotating (some rotating.settled) view disk :=
    recryptAll_passes (Weaker.rotating cipher store.fresh catalogued.keys.single) shown
      (fun _ => mem_walkedItems) fun _ _ => trivial
  let settled := rotating.settled.wrap kind (some record.generation)
  have ended : Catalogued rotating.settled settled record view
      { begun with directory := disk.writeVault settled, cipher := some rotating.settled } :=
    { catalogued with
      inPlace := rfl
      unlocked := rfl
      keys := ⟨rfl, rfl, rfl, fun _ => some.inj⟩
      anchor := rfl
      current := rewritten.current catalogued.current
      catalogue := { catalogued.catalogue with shown := rewritten.shown }
      files := fun name cells found cell first => by
        rcases rewritten.recoded (.file name) with kept | ⟨_, payloads, _, _, written⟩
        · exact catalogued.files name cells (kept.symm.trans found) cell first
        cases written.symm.trans found
        exact head_encode_sealed rotating _ payloads cell first }
  have program : (store.rotateKey cipher kind).program =
      [.writeVault both rotating] ++ (begun.directory.recryptAll (some cipher) rotating ++
        [.writeVault settled rotating.settled]) := by
    simp only [rotateKey, catalogued.bound, Binding.record, map_some]
    rfl
  rw [Running, program]
  exact ⟨_, Passes.append ⟨begun, rfl, trivial, rfl⟩ (moving.append ⟨_, rfl, trivial, rfl⟩), _, _,
    record, view, ended⟩

theorem removeProtection_bares :
    Running (fun _ => True) (fun final => ∃ seen, Bare seen final)
      (store.removeProtection cipher) := by
  let begun := { store.removeProtection cipher with program := [] }
  have recorded : (begun.directory.read .state).isSome := by
    obtain ⟨_, read, _⟩ := readRecord_state_eq_some.mp catalogued.current
    have found : begun.directory.read .state = _ := read
    rw [found]
    rfl
  obtain ⟨holdings, keeps⟩ := catalogued.catalogue.legible
  obtain ⟨_, seen, passes, bare, cleared⟩ := decryptAll_passes
    (show begun.directory.Shows (some cipher) view from catalogued.catalogue.shown)
    keeps recorded catalogued.catalogue.plain catalogued.catalogue.index
  have program : (store.removeProtection cipher).program =
      begun.directory.decryptAll cipher (some record) ++ [.removeVault] := by
    simp only [removeProtection, catalogued.bound, Binding.record]
    rfl
  rw [Running, program]
  exact ⟨_, passes, seen, bare, rfl, rfl, catalogued.building, cleared.shown,
    ⟨holdings, cleared.keeps⟩, cleared.mac⟩

end Changing

end Store

end Silver.Client.Protection
