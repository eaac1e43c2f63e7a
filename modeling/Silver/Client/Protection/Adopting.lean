import Silver.Client.Protection.Contents

/-!
# A directory getting its first record

Every file is stamped and every log moved to the name the naming key gives it, one
write at a time.  Between two writes a log is under its old name, under its new
one, or under both; what the directory holds is the same throughout.
-/

namespace Silver.Client.Protection

open Foundation Directory Store Cell LogName
open Record (wrote wroteHistory removedHistory first)
open AList (lookup_insert lookup_insert_ne)
open Function (update update_self)
open List hiding after max

def LogName.conversation : LogName -> Conversation
  | .plain conversation => conversation
  | .mac _ conversation => conversation

/-- What is kept in a directory, whatever it is under. -/
structure Holdings where
  files : FileName -> Option (List UInt8)
  downloads : String -> Option (List UInt8)
  logs : Conversation -> Option (List Text)

namespace Holdings

def lines (holdings : Holdings) (conversation : Conversation) : Option (List Payload) :=
  (holdings.logs conversation).map (map Payload.text)

end Holdings

namespace View

variable {view : View}

/-- The files of a view are the ones kept, and its logs are text. -/
structure Keeps (view : View) (holdings : Holdings) : Prop where
  files : ∀ name, ∃ generation,
    view (.file name) = (holdings.files name).map fun data => [.bytes generation data]
  downloads : ∀ name, ∃ generation,
    view (.download name) = (holdings.downloads name).map fun data => [.bytes generation data]
  texts : ∀ name payloads, view (.log name) = some payloads ->
    ∃ lines : List Text, payloads = lines.map Payload.text

/-- Each log kept is under its plain name, its new one, or both. -/
structure Moving (view : View) (naming : Key) (holdings : Holdings) : Prop where
  plain : ∀ conversation, view (.log (.plain conversation)) = none ∨
    view (.log (.plain conversation)) = holdings.lines conversation
  mac : ∀ conversation, view (.log (.mac naming conversation)) = none ∨
    view (.log (.mac naming conversation)) = holdings.lines conversation
  held : ∀ conversation, view (.log (.plain conversation)) = holdings.lines conversation ∨
    view (.log (.mac naming conversation)) = holdings.lines conversation

theorem Moving.congr {other : View} (same : ∀ name, other (.log name) = view (.log name))
    (moving : view.Moving naming holdings) :
    other.Moving naming holdings := by
  constructor
  · intro chat
    rw [same]
    exact moving.plain chat
  · intro chat
    rw [same]
    exact moving.mac chat
  intro chat
  rw [same, same]
  exact moving.held chat

theorem Keeps.update_file {name : FileName} {generation : Option Nat} (keeps : view.Keeps holdings)
    (held : holdings.files name = some data) :
    Keeps (update view (.file name) (some [.bytes generation data])) holdings where
  files other := by
    by_cases same : other = name
    · subst same
      exact ⟨generation, by simp [held]⟩
    obtain ⟨found, seen⟩ := keeps.files other
    exact ⟨found, by simp [same, seen]⟩
  downloads other := by simpa using keeps.downloads other
  texts other payloads seen := keeps.texts other payloads seen

theorem Keeps.update_log
    (keeps : view.Keeps holdings) (name : LogName) (lines : Option (List Text)) :
    Keeps (update view (.log name) (lines.map (map Payload.text))) holdings where
  files other := by simpa using keeps.files other
  downloads other := by simpa using keeps.downloads other
  texts other payloads seen := by
    by_cases same : other = name
    · subst same
      rw [update_self] at seen
      obtain ⟨held, _, rfl⟩ := Option.map_eq_some_iff.mp seen
      exact ⟨held, rfl⟩
    · exact keeps.texts other payloads (by simpa [same] using seen)

end View

def Directory.PreviousUnder (key : Key) (directory : Directory) : Prop :=
  ∀ cells, directory.read .statePrevious = some cells ->
    ∀ found bound payload, .sealed found bound payload ∈ cells -> found = key

theorem Directory.PreviousUnder.congr {key : Key} {disk after : Directory}
    (same : after.read .statePrevious = disk.read .statePrevious)
    (under : disk.PreviousUnder key) :
    after.PreviousUnder key :=
  fun cells found => under cells (same ▸ found)

def Directory.logSize (cells : List Cell) : Nat :=
  (cells.map Cell.size).sum

theorem mapM_eq_singleton {item : Item} {cells : List Cell}
    (opened : cells.mapM (opens source item) = some [payload]) :
    ∃ cell, cells = [cell] ∧ cell.opens source item = some payload := by
  cases cells with
  | nil => cases opened
  | cons cell cells =>
    cases cells with
    | nil =>
      obtain ⟨_, first, rest⟩ := Option.bind_eq_some_iff.mp opened
      cases rest
      exact ⟨cell, rfl, first⟩
    | cons _ cells => simp [mapM_cons, Option.bind_eq_some_iff] at opened

theorem Cell.sealed_of_opens {item : Item} {cell : Cell}
    (opened : cell.opens source item = some payload) (covered : cell.isPlain = false) :
    ∃ key bound held, cell = .sealed key bound held := by
  cases cell with
  | plain held => cases covered
  | torn => cases opened
  | sealed key bound held => exact ⟨key, bound, held, rfl⟩

namespace Store

variable {vault : Vault} {cipher : Cipher}
  {disk : Directory} {store : Store}

/-- A directory on the way to its first record, with the files and logs still to be
visited. -/
structure Adopting (clean : Prop) (vault : Vault) (cipher : Cipher) (start : View)
    (holdings : Holdings) (files : List FileName) (logs : List LogName) (directory : Directory) (record : Record)
    (view : View) : Prop where
  inPlace : directory.vault = some vault
  heads : directory.HeadsSealed
  shown : directory.Shows (some cipher) view
  keeps : view.Keeps holdings
  moving : view.Moving cipher.naming holdings
  covers : record.covers = COVERS_LOG_AND_OUTBOX
  recorded : ∀ name, name ∉ files -> ∀ generation data,
    view (.file name) = some [.bytes generation data] ->
      ∃ stamp, generation = some stamp ∧ record.files.get name = some stamp
  pending : ∀ conversation, .plain conversation ∈ logs ↔ view (.log (.plain conversation)) ≠ none
  index : ∀ name entry, record.history.lookup name = some entry ->
    name = .mac cipher.naming entry.conversation ∧
      ∃ cells, directory.read (.log name) = some cells ∧ entry.bytes = Directory.logSize cells
  indexed : ∀ naming conversation, view (.log (.mac naming conversation)) ≠ none ->
    (record.history.lookup (.mac naming conversation)).isSome ∨
      start (.log (.mac naming conversation)) ≠ none ∧
        (naming = cipher.naming -> start (.log (.plain conversation)) = none ∨
          .plain conversation ∈ logs)
  previous : clean -> directory.PreviousUnder cipher.key

def making (store : Store) (directory : Directory) (record : Record) : Store :=
  { store with directory, building := some record }

def Unanchored (clean : Prop) (vault : Vault) (cipher : Cipher) (holdings : Holdings)
    (after : Store) : Prop :=
  after.directory.vault = some vault ∧ (clean -> after.directory.PreviousUnder cipher.key) ∧
    ∃ view, after.directory.Shows (some cipher) view ∧ view.Keeps holdings ∧
      view.Moving cipher.naming holdings

theorem Adopting.unanchored {logs : List LogName} (store : Store)
    (adopting : Adopting clean vault cipher start holdings files logs disk record view) :
    Unanchored clean vault cipher holdings (store.making disk record) :=
  ⟨adopting.inPlace, adopting.previous, view, adopting.shown, adopting.keeps, adopting.moving⟩

section Files

variable {logs : List LogName}

/-- One file stamped and recorded. -/
theorem Adopting.file {name : FileName} (unlocked : store.cipher = some cipher)
    (adopting : Adopting clean vault cipher start holdings (name :: files) logs disk record view) :
    ∃ after next seen, (store.making disk record).adoptFile name = .ok (store.making after next) ∧
      Adopting clean vault cipher start holdings files logs after next seen := by
  obtain ⟨generation, file⟩ := adopting.keeps.files name
  rcases (adopting.shown (.file name) nofun).cases with
    ⟨missing, unseen⟩ | ⟨_, _, found, opened, seen⟩
  · refine ⟨disk, record, view, by simp [adoptFile, making, missing], ?_⟩
    refine { adopting with recorded := fun other outside generation data held => ?_ }
    by_cases same : other = name
    · rw [same, unseen] at held
      cases held
    · exact adopting.recorded other (by simp [same, outside]) generation data held
  rw [seen] at file
  obtain ⟨data, kept, held⟩ := Option.map_eq_some_iff.mp file.symm
  subst held
  obtain ⟨_, rfl, cellOpened⟩ := mapM_eq_singleton opened
  obtain ⟨_, _, _, rfl⟩ :=
    sealed_of_opens cellOpened (adopting.heads (.file name) trivial _ found _ rfl)
  have stamped : ∀ after seen,
      after.vault = disk.vault -> after.HeadsSealed -> after.Shows (some cipher) seen ->
      (∀ log, after.read (.log log) = disk.read (.log log)) ->
      after.read .statePrevious = disk.read .statePrevious ->
      seen = update view (.file name) (some [.bytes (some (generation.getD Disk.FIRST)) data]) ->
      Adopting clean vault cipher start holdings files logs after
        { record.wrote name (generation.getD Disk.FIRST) with
          generation := max record.generation (generation.getD Disk.FIRST) } seen := by
    rintro after _ vault heads shown sameLogs samePrevious rfl
    exact
      { inPlace := vault.trans adopting.inPlace
        heads
        shown
        keeps := adopting.keeps.update_file kept
        moving := adopting.moving.congr fun log => by simp
        covers := adopting.covers
        recorded := fun other outside found held seenNow => by
          by_cases same : other = name
          · subst same
            simp only [update_self, Option.some.injEq, cons.injEq,
              Payload.bytes.injEq, and_true] at seenNow
            exact ⟨_, seenNow.1.symm, by simp [wrote]⟩
          obtain ⟨stamp, rfl, entered⟩ := adopting.recorded other (by simp [same, outside])
            found held (by simpa [same] using seenNow)
          exact ⟨stamp, rfl, by simp [wrote, Table.get_insert_of_ne same, entered]⟩
        pending := fun chat => by simpa using adopting.pending chat
        index := fun log entry entered => by
          rw [sameLogs]
          exact adopting.index log entry entered
        indexed := fun naming chat => by
          simpa [wrote] using adopting.indexed naming chat
        previous := fun holds => (adopting.previous holds).congr samePrevious }
  cases generation with
  | none =>
    refine ⟨_, _, _, ?_, stamped
      (disk.write (.file name)
        [encode (some cipher) (.file name) (.bytes (some Disk.FIRST) data)]) _ rfl
      (adopting.heads.write fun _ => head_encode_sealed cipher (.file name) [_])
      (adopting.shown.write (mapM_opens_encode (by simp [Cipher.opensKey]) [_]))
      (fun log => by simp [read_write]) (by simp [read_write]) rfl⟩
    simp only [adoptFile, making, found, unlocked, cellOpened]
    rfl
  | some stamp =>
    refine ⟨_, _, _, ?_, stamped disk view rfl adopting.heads adopting.shown
      (fun _ => rfl) rfl (by rw [Option.getD_some, ← seen, Function.update_eq_self])⟩
    simp only [adoptFile, making, found, unlocked, cellOpened]
    rfl

end Files

section Logs

variable {logs : List LogName}

theorem Adopting.moved {chat : Conversation}
    (adopting : Adopting clean vault cipher start holdings [] (.mac naming chat :: logs)
      disk record view) :
    ∃ next, (store.making disk record).adoptMoved (.mac naming chat) = store.making disk next ∧
      Adopting clean vault cipher start holdings [] logs disk next view := by
  have rest := { adopting with
      pending := fun other => by simpa using adopting.pending other
      indexed := fun other chosen => by simpa using adopting.indexed other chosen }
  cases entered : record.history.lookup (.mac naming chat) with
  | none => exact ⟨record, by simp [adoptMoved, making, entered], rest⟩
  | some entry =>
    obtain ⟨name, cells, found, _⟩ := adopting.index _ entry entered
    refine ⟨record.wroteHistory (.mac naming chat) entry.conversation
      (Directory.logSize cells), ?_, ?_⟩
    · simp [adoptMoved, making, entered, found, Directory.logSize]
    refine { rest with index := fun log other enteredNow => ?_, indexed := fun other chosen seen => ?_ }
    · by_cases same : log = .mac naming chat
      · subst same
        simp only [wroteHistory, lookup_insert, Option.some.injEq] at enteredNow
        subst enteredNow
        exact ⟨name, cells, found, rfl⟩
      rw [wroteHistory, lookup_insert_ne same] at enteredNow
      exact adopting.index log other enteredNow
    refine (rest.indexed other chosen seen).imp_left fun known => ?_
    by_cases same : mac other chosen = .mac naming chat
    · rw [same, wroteHistory, lookup_insert]
      rfl
    · rwa [wroteHistory, lookup_insert_ne same]

variable {chat : Conversation}
  (adopting : Adopting clean vault cipher start holdings [] (.plain chat :: logs) disk record view)
include adopting

/-- A log written under its new name and recorded there. -/
theorem Adopting.copy (unlocked : store.cipher = some cipher) :
    ∃ after next seen, (store.making disk record).adoptLog chat = .ok (store.making after next) ∧
      Adopting clean vault cipher start holdings [] (.plain chat :: logs) after next seen ∧
      seen (.log (.mac cipher.naming chat)) = holdings.lines chat ∧
      (next.history.lookup (.mac cipher.naming chat)).isSome := by
  have present := (adopting.pending chat).mp mem_cons_self
  have held := (adopting.moving.plain chat).resolve_left present
  rcases (adopting.shown (.log (.plain chat)) nofun).cases with
    ⟨_, unseen⟩ | ⟨_, _, found, opened, seen⟩
  · exact absurd unseen present
  obtain ⟨texts, rfl⟩ := adopting.keeps.texts _ _ seen
  rw [seen] at held
  let destination : LogName := .mac cipher.naming chat
  let moved := (texts.map Payload.text).map (encode (some cipher) (.log destination))
  have lines : update view (.log destination) (some (texts.map Payload.text))
      (.log destination) = holdings.lines chat := by simp [held]
  refine ⟨disk.write (.log destination) moved,
    record.wroteHistory destination chat (Directory.logSize moved),
    update view (.log destination) (some (texts.map Payload.text)), ?_, ?_, lines, ?_⟩
  · simp only [adoptLog, historyFile, making, unlocked, copyLog, found, opened]
    rfl
  · exact
      { adopting with
        heads := adopting.heads.write fun _ => head_encode_sealed cipher _ _
        shown := adopting.shown.write (mapM_opens_encode (by simp [Cipher.opensKey]) _)
        keeps := adopting.keeps.update_log destination (some texts)
        moving := by
          refine ⟨fun other => ?_, fun other => ?_, fun other => ?_⟩
          · simpa [destination] using adopting.moving.plain other
          · by_cases same : other = chat
            · exact .inr (same ▸ lines)
            · simpa [destination, same] using adopting.moving.mac other
          by_cases same : other = chat
          · exact .inr (same ▸ lines)
          · simpa [destination, same] using adopting.moving.held other
        recorded := fun name outside generation data seenNow =>
          adopting.recorded name outside generation data seenNow
        pending := fun other => by simpa [destination] using adopting.pending other
        index := fun log entry entered => by
          by_cases same : log = destination
          · subst same
            simp only [wroteHistory, lookup_insert, Option.some.injEq] at entered
            subst entered
            exact ⟨rfl, moved, read_write_self .., rfl⟩
          rw [wroteHistory, lookup_insert_ne same] at entered
          simpa [read_write, same] using adopting.index log entry entered
        indexed := fun naming other seenNow => by
          by_cases same : mac naming other = destination
          · rw [same, wroteHistory, lookup_insert]
            exact .inl rfl
          rw [wroteHistory, lookup_insert_ne same]
          exact adopting.indexed naming other (by simpa [same] using seenNow)
        previous := fun holds => (adopting.previous holds).congr (by simp [read_write]) }
  rw [wroteHistory, lookup_insert]
  rfl

theorem Adopting.away (once : .plain chat ∉ logs)
    (moved : view (.log (.mac cipher.naming chat)) = holdings.lines chat)
    (known : (record.history.lookup (.mac cipher.naming chat)).isSome) :
    Adopting clean vault cipher start holdings [] logs
      (disk.remove (.log (.plain chat)))
      (record.removedHistory (.plain chat))
      (update view (.log (.plain chat)) none) where
  inPlace := adopting.inPlace
  heads := adopting.heads.remove
  shown := adopting.shown.remove
  keeps := adopting.keeps.update_log (.plain chat) none
  moving := by
    refine ⟨fun other => ?_, fun other => ?_, fun other => ?_⟩
    · by_cases same : other = chat
      · exact .inl (by simp [same])
      · simpa [same] using adopting.moving.plain other
    · simpa using adopting.moving.mac other
    by_cases same : other = chat
    · subst same
      exact .inr moved
    · simpa [same] using adopting.moving.held other
  covers := adopting.covers
  recorded name outside generation data seenNow :=
    adopting.recorded name outside generation data seenNow
  pending other := by
    by_cases same : other = chat
    · subst same
      simp [once]
    · simpa [same] using adopting.pending other
  index log entry entered := by
    by_cases same : log = .plain chat
    · subst same
      simp [removedHistory] at entered
    rw [removedHistory, AList.lookup_erase_ne same] at entered
    simpa [read_remove, same] using adopting.index log entry entered
  indexed naming other seenNow := by
    have erased : mac naming other ≠ .plain chat := nofun
    rw [removedHistory, AList.lookup_erase_ne erased]
    rcases adopting.indexed naming other seenNow with entered | ⟨before, twin⟩
    · exact .inl entered
    by_cases same : naming = cipher.naming ∧ other = chat
    · obtain ⟨rfl, rfl⟩ := same
      exact .inl known
    refine .inr ⟨before, fun named => (twin named).imp_right fun mem => ?_⟩
    have apart : other ≠ chat := fun equal => same ⟨named, equal⟩
    simpa [apart] using mem
  previous holds := (adopting.previous holds).congr (by simp [read_remove])

theorem Adopting.log (unlocked : store.cipher = some cipher) (once : .plain chat ∉ logs) :
    ∃ after next seen, Passes execute (Unanchored clean vault cipher holdings)
        [.adoptLog chat, .removeAdopted chat]
        (store.making disk record) (store.making after next) ∧
      Adopting clean vault cipher start holdings [] logs after next seen := by
  obtain ⟨_, _, seen, copied, kept, moved, known⟩ := adopting.copy unlocked
  have removed := kept.away once moved known
  exact ⟨_, _, _, ⟨_, copied, kept.unanchored store, _, rfl, removed.unanchored store, rfl⟩, removed⟩

end Logs

/-- A directory with its first record in place. -/
structure Adopted (clean : Prop) (vault : Vault) (cipher : Cipher) (start : View)
    (holdings : Holdings) (directory : Directory) (record : Record) (view : View) : Prop where
  inPlace : directory.vault = some { vault with stateGeneration := some record.generation }
  heads : directory.HeadsSealed
  shown : directory.Shows (some cipher) view
  keeps : view.Keeps holdings
  current : directory.readRecord cipher .state = some record
  covers : record.covers = COVERS_LOG_AND_OUTBOX
  recorded : ∀ name generation data, view (.file name) = some [.bytes generation data] ->
    ∃ stamp, generation = some stamp ∧ record.files.get name = some stamp
  plain : ∀ conversation, view (.log (.plain conversation)) = none
  logs : ∀ conversation, view (.log (.mac cipher.naming conversation)) = holdings.lines conversation
  index : ∀ name entry, record.history.lookup name = some entry ->
    name = .mac cipher.naming entry.conversation ∧
      ∃ cells, directory.read (.log name) = some cells ∧ entry.bytes = Directory.logSize cells
  indexed : ∀ naming conversation, view (.log (.mac naming conversation)) ≠ none ->
    (record.history.lookup (.mac naming conversation)).isSome ∨
      start (.log (.mac naming conversation)) ≠ none ∧
        (naming = cipher.naming -> start (.log (.plain conversation)) = none)
  previous : clean -> directory.PreviousUnder cipher.key

def recording (store : Store) (directory : Directory) (record : Record) : Store :=
  { store with directory, binding := .bound record, building := none }

theorem Adopting.keepPrevious (alone : cipher.previous = none)
    (adopting : Adopting clean vault cipher start holdings [] [] disk record view) :
    ∃ after, (store.making disk record).keepPrevious = store.making after record ∧
      Adopting clean vault cipher start holdings [] [] after record view := by
  unfold Store.keepPrevious
  split
  next cells _ found =>
    refine ⟨disk.write .statePrevious cells, rfl, ?_⟩
    have under : (disk.write .statePrevious cells).PreviousUnder cipher.key := by
      intro _ read key _ _ mem
      rw [read_write_self] at read
      cases read
      rcases (adopting.shown .state nofun).cases with ⟨missing, _⟩ | ⟨_, _, here, opened, _⟩
      · exact absurd (missing.symm.trans found) nofun
      cases here.symm.trans found
      simpa [Cipher.opensKey, alone] using opensKey_of_mem opened mem
    exact
      { adopting with
        heads := adopting.heads.write False.elim
        shown := adopting.shown.congr fun item other => by simp [read_write, other]
        index := fun name entry entered => by
          simpa [read_write] using adopting.index name entry entered
        previous := fun _ => under }
  next => exact ⟨disk, rfl, adopting⟩

theorem Adopting.anchored
    (adopting : Adopting clean vault cipher start holdings [] [] disk record view) :
    Adopting clean vault cipher start holdings [] []
        (disk.write .state [encode (some cipher) .state (.record record)]) record
        (update view .state (some [.record record])) ∧
      Adopted clean vault cipher start holdings
        ((disk.write .state [encode (some cipher) .state (.record record)]).writeVault
          { vault with stateGeneration := some record.generation })
        record (update view .state (some [.record record])) := by
  have written : Adopting clean vault cipher start holdings [] []
      (disk.write .state [encode (some cipher) .state (.record record)]) record
      (update view .state (some [.record record])) :=
    { adopting with
      heads := adopting.heads.write False.elim
      shown := adopting.shown.write (mapM_opens_encode (by simp [Cipher.opensKey]) [_])
      keeps := by
        refine ⟨fun name => ?_, fun name => ?_, fun name payloads seen => ?_⟩
        · simpa using adopting.keeps.files name
        · simpa using adopting.keeps.downloads name
        · exact adopting.keeps.texts name payloads seen
      moving := adopting.moving.congr fun name => by simp
      recorded := fun name outside generation data seen =>
        adopting.recorded name outside generation data seen
      pending := fun chat => by simpa using adopting.pending chat
      index := fun name entry entered => by
        simpa [read_write] using adopting.index name entry entered
      indexed := fun naming chat seen => adopting.indexed naming chat seen
      previous := fun holds => (adopting.previous holds).congr (by simp [read_write]) }
  refine ⟨written, ?_⟩
  have gone : ∀ chat, update view .state (some [.record record])
      (.log (.plain chat)) = none := fun chat => by
    simpa using written.pending chat
  exact
    { written with
      inPlace := rfl
      current := by
        simp [readRecord, encode, Cipher.opensKey]
      recorded := fun name => written.recorded name not_mem_nil
      plain := gone
      logs := fun chat => by
        rcases written.moving.held chat with held | held
        · rw [gone chat] at held
          rcases written.moving.mac chat with missing | lines
          · exact missing.trans held
          · exact lines
        · exact held
      indexed := fun naming chat seen => by
        simpa using written.indexed naming chat seen }

variable {safe : Store -> Prop} (unlocked : store.cipher = some cipher) (alone : cipher.previous = none)
  (implied : ∀ after, Unanchored clean vault cipher holdings after -> safe after)
  (ended : ∀ disk record view, Adopted clean vault cipher start holdings disk record view ->
    safe (store.recording disk record))
include unlocked alone implied ended

theorem Adopting.persist
    (adopting : Adopting clean vault cipher start holdings [] [] disk record view) :
    ∃ after seen, Passes execute safe persistGenerations (store.making disk record)
        (store.recording after record) ∧
      Adopted clean vault cipher start holdings after record seen := by
  obtain ⟨after, keeping, kept⟩ := adopting.keepPrevious alone
  obtain ⟨written, adopted⟩ := kept.anchored
  refine ⟨_, _, ⟨_, congrArg Except.ok keeping, implied _ (kept.unanchored store), _, ?_,
      implied _ (written.unanchored store), _, ?_, ended _ _ _ adopted, rfl⟩, adopted⟩
  · simp only [execute, writeRecord, making, withDirectory, unlocked]
  have held := written.inPlace
  simp only [execute, raiseAnchor, making, held]
  rfl

/-- A directory that is shown gets its first record, and a crash at any write leaves
what it holds where the next attempt finds it. -/
theorem adoptGenerations_passes {walked : Directory} (inPlace : store.directory.vault = some vault)
    (heads : store.directory.HeadsSealed)
    (previous : clean -> store.directory.PreviousUnder cipher.key)
    (shown : store.directory.Shows (some cipher) start) (keeps : start.Keeps holdings)
    (moving : start.Moving cipher.naming holdings)
    (sameLogs : ∀ name, name ∈ walked.logs ↔ (store.directory.read (.log name)).isSome) :
    ∃ disk record view,
      Passes execute safe walked.adoptGenerations store (store.recording disk record) ∧
        Adopted clean vault cipher start holdings disk record view := by
  let invariant := fun files logs after =>
    logs.Nodup ∧ ∃ disk record view, after = store.making disk record ∧
      Adopting clean vault cipher start holdings files logs disk record view
  have unseen : ∀ name, start (.log name) ≠ none ↔ (store.directory.read (.log name)).isSome := by
    intro name
    rcases (shown (.log name) nofun).cases with ⟨missing, none⟩ | ⟨_, _, found, _, some⟩
    · simp [missing, none]
    · simp [found, some]
  have beginning : Adopting clean vault cipher start holdings recryptedFiles walked.logs
      store.directory .first start :=
    { inPlace
      heads
      shown
      keeps
      moving
      covers := rfl
      recorded := fun name outside => absurd (mem_recryptedFiles name) outside
      pending := fun chat => (sameLogs _).trans (unseen _).symm
      index := fun name entry entered => by simp [first] at entered
      indexed := fun naming chat seen => .inr ⟨seen, fun _ => by
        by_cases missing : start (.log (.plain chat)) = none
        · exact .inl missing
        · exact .inr ((sameLogs _).mpr ((unseen _).mp missing))⟩
      previous }
  have started : invariant recryptedFiles walked.logs (store.making store.directory .first) :=
    ⟨(nodup_append.mp walked.nodup_walkedItems).2.1.of_map _, store.directory, .first,
      start, rfl, beginning⟩
  obtain ⟨filed, filing, nodup, disk, record, view, rfl, adopting⟩ : ∃ filed,
      Passes execute safe (recryptedFiles.flatMap fun name => [.adoptFile name])
        (store.making store.directory .first) filed ∧ invariant [] walked.logs filed := by
    refine Passes.flatMap (fun files => invariant files walked.logs) ?_ started
    rintro name files _ ⟨nodup, disk, record, view, rfl, adopting⟩
    obtain ⟨after, next, seen, done, kept⟩ := adopting.file unlocked
    exact ⟨_, ⟨_, done, implied _ (kept.unanchored store), rfl⟩, nodup, after, next, seen, rfl, kept⟩
  obtain ⟨moved, moving, _, disk, record, view, rfl, adopting⟩ : ∃ moved,
      Passes execute safe (walked.logs.flatMap adoptHistory)
        (store.making disk record) moved ∧ invariant [] [] moved := by
    refine Passes.flatMap (invariant []) ?_ ⟨nodup, disk, record, view, rfl, adopting⟩
    rintro name logs _ ⟨nodup, disk, record, view, rfl, adopting⟩
    obtain ⟨once, later⟩ := nodup_cons.mp nodup
    cases name with
    | plain chat =>
      obtain ⟨after, next, seen, passes, kept⟩ := adopting.log unlocked once
      exact ⟨_, passes.mono implied, later, after, next, seen, rfl, kept⟩
    | mac naming chat =>
      obtain ⟨next, done, kept⟩ := adopting.moved
      exact ⟨_, ⟨_, congrArg Except.ok done, implied _ (kept.unanchored store), rfl⟩, later, disk,
        next, view, rfl, kept⟩
  obtain ⟨after, seen, persisted, adopted⟩ := adopting.persist unlocked alone implied ended
  refine ⟨after, record, seen, ?_, adopted⟩
  have begun : Passes execute safe [.startRecord] store (store.making store.directory .first) :=
    ⟨_, rfl, implied _ (beginning.unanchored store), rfl⟩
  have files : recryptedFiles.flatMap (fun name => [.adoptFile name]) =
      recryptedFiles.map Instruction.adoptFile := map_eq_flatMap.symm
  rw [files] at filing
  have whole := (begun.append filing).append (moving.append persisted)
  rwa [← append_assoc, singleton_append] at whole

end Store

end Silver.Client.Protection
