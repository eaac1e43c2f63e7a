import Silver.Client.Protection.Standing

/-!
# Runs of protection changes, with failures and crashes

A change of protection is made a write at a time; any write may fail, and after any of
them the process may be gone.  Runs in which no change is begun while an earlier one left
two keys, and nothing stops the way back to plaintext, keep all the directory holds.
-/

namespace Silver
namespace Client
namespace Protection

open Foundation Store Option Holdings Cell
open Except (map)

/-- What happens to a store between two of its writes. -/
inductive Action where
  | change (change : Change)
  | unlock
  | write
  | fail
  | crash
deriving DecidableEq

namespace Store

/-- One action.  A change or an unlock is begun while no other is under way; a write
that fails ends the operation where it is. -/
def step (store : Store) : Action → Option Store
  | .change change =>
    match store.program with
    | [] => some ((store.change change).getD store)
    | _ :: _ => none
  | .unlock =>
    match store.program, store.directory.vault with
    | [], some vault => some (store.unlock vault)
    | _, _ => none
  | .write =>
    match store.program with
    | [] => none
    | instruction :: rest =>
      match execute { store with program := rest } instruction with
      | .ok next => some next
      | .error _ => some { store with program := [] }
  | .fail =>
    match store.program with
    | [] => none
    | _ :: _ => some { store with program := [] }
  | .crash => some store.crash

def rotating (store : Store) : Bool :=
  match store.program.getLast? with
  | some (.writeVault _ _) => true
  | _ => false

def removing (store : Store) : Bool :=
  match store.program.getLast? with
  | some .removeVault => true
  | _ => false

def listed (store : Store) : Bool :=
  store.directory.logs.all fun name =>
    (store.binding.record.bind fun record => record.history.lookup name).any fun entry =>
      name = store.historyFile entry.conversation

def Careful (store : Store) : Action → Prop
  | .change .removeProtection => store.listed
  | .change (.removePassphrase available) =>
    if available then ∀ cipher ∈ store.cipher, cipher.previous = none else store.listed
  | .change _ => ∀ cipher ∈ store.cipher, cipher.previous = none
  | .fail => store.rotating
  | .crash => store.removing = false
  | _ => True

instance (store : Store) (action : Action) : Decidable (store.Careful action) :=
  match action with
  | .change .removeProtection | .change (.removePassphrase false) =>
    inferInstanceAs (Decidable (store.listed = true))
  | .change (.removePassphrase true) | .change .protectWithKeystore | .change .setPassphrase
  | .change .addSecurityKey | .change (.rekeySecurityKeys _) =>
    inferInstanceAs (Decidable (∀ cipher ∈ store.cipher, cipher.previous = none))
  | .fail => inferInstanceAs (Decidable (store.rotating = true))
  | .crash => inferInstanceAs (Decidable (store.removing = false))
  | .unlock | .write => inferInstanceAs (Decidable True)

def Clean (store : Store) : Action → Prop
  | .change _ => store.directory.vault.isNone ∨ store.directory.read .statePrevious = none
  | _ => True

/-- Everything held is read, through the store's own functions. -/
structure Reads (holdings : Holdings) (store : Store) : Prop where
  files : ∀ name, store.readFile name = .ok (holdings.files name)
  downloads : ∀ name, store.readDownload name = .ok (holdings.downloads name)
  lines : ∀ conversation, store.readHistoryLines (store.historyFile conversation) =
    .ok ((holdings.logs conversation).getD [])

def Wrapped (store : Store) (item : Item) : Prop :=
  ∀ cells, store.directory.read item = some cells →
    ∀ key bound payload, .sealed key bound payload ∈ cells →
      ∃ vault, store.directory.vault = some vault ∧ vault.wraps key

def AtRest (holdings : Holdings) (store : Store) : Prop :=
  store.program = [] ∧ ((∃ view, Unprotected False holdings view store) ∨
      ∃ cipher vault record view, Unlocked False holdings cipher vault record view store ∧
        cipher.previous = none)

section Reading

theorem filterMap_opens {item : Item} {cells : List Cell} {lines : List Text}
    (opened : cells.mapM (opens source item) = some (lines.map Payload.text)) :
    cells.filterMap (fun cell => (cell.opens source item).bind Payload.text?) = lines := by
  induction cells generalizing lines with
  | nil =>
    cases lines with
    | nil => rfl
    | cons line lines => cases opened
  | cons cell cells ih =>
    simp only [List.mapM_cons, bind_eq_bind, bind_eq_some_iff] at opened
    obtain ⟨_, first, _, rest, whole⟩ := opened
    cases lines with
    | nil => cases whole
    | cons line lines =>
      obtain ⟨rfl, rfl⟩ := List.cons.inj (some.inj whole)
      rw [List.filterMap_cons, first]
      simp only [bind_some, Payload.text?]
      rw [ih rest]

theorem read_of_bytes
    {disk : Directory} {item : Item} {held : Option (List UInt8)} {age : Option Nat}
    (shown : disk.ShowsAt source view item)
    (seen : view item = held.map fun data => [.bytes age data]) :
    (disk.read item = none ∧ held = none) ∨
      ∃ cell data, disk.read item = some [cell] ∧ held = some data ∧
        view item = some [.bytes age data] ∧
        cell.opens source item = some (.bytes age data) := by
  rcases shown.cases with ⟨missing, unseen⟩ | ⟨_, _, found, opened, here⟩
  · refine .inl ⟨missing, ?_⟩
    cases held with
    | none => rfl
    | some data => simp [unseen] at seen
  cases held with
  | none => simp [here] at seen
  | some data =>
    obtain rfl := some.inj (here.symm.trans seen)
    obtain ⟨cell, rfl, cellOpened⟩ := mapM_eq_singleton opened
    exact .inr ⟨cell, data, found, rfl, here, cellOpened⟩

theorem read_of_lines {disk : Directory} {name : LogName} {held : Option (List Text)}
    (shown : disk.ShowsAt source view (.log name))
    (seen : view (.log name) = held.map (List.map Payload.text)) :
    (disk.read (.log name) = none ∧ held = none) ∨
      ∃ cells lines, disk.read (.log name) = some cells ∧ held = some lines ∧
        cells.filterMap (fun cell => (cell.opens source (.log name)).bind Payload.text?) = lines := by
  rcases shown.cases with ⟨missing, unseen⟩ | ⟨cells, _, found, opened, here⟩
  · refine .inl ⟨missing, ?_⟩
    cases held with
    | none => rfl
    | some lines => simp [unseen] at seen
  cases held with
  | none => simp [here] at seen
  | some lines =>
    obtain rfl := some.inj (here.symm.trans seen)
    exact .inr ⟨cells, lines, found, rfl, filterMap_opens opened⟩

theorem reads_of_unlocked {holdings : Holdings} {cipher : Cipher} {record : Record}
    {store : Store} (unlocked : Unlocked clean holdings cipher vault record view store) :
    store.Reads holdings := by
  have notLocked : store.locked = false := by simp [locked, unlocked.unlocked]
  obtain ⟨heads, shown, keeps, _, _, _, recorded, logs, index⟩ := unlocked.standing
  refine ⟨fun name => ?_, fun name => ?_, fun chat => ?_⟩
  · obtain ⟨age, seen⟩ := keeps.files name
    rcases read_of_bytes (shown (.file name) (by simp)) seen with
      ⟨missing, none⟩ | ⟨cell, data, found, held, here, opened⟩
    · simp [readFile, notLocked, missing, none]
    obtain ⟨_, bound, _, rfl⟩ :=
      sealed_of_opens opened (heads (.file name) trivial _ found _ rfl)
    obtain ⟨_, rfl, entered⟩ := recorded name age data here
    simp [readFile, notLocked, found, unlocked.bound, unlocked.unlocked, opened, held,
      Binding.record, Record.accepts, entered]
  · obtain ⟨age, seen⟩ := keeps.downloads name
    rcases read_of_bytes (shown (.download name) (by simp)) seen with
      ⟨missing, none⟩ | ⟨cell, data, found, held, _, opened⟩
    · simp [readDownload, notLocked, missing, none]
    · simp [readDownload, notLocked, found, unlocked.unlocked, opened, held]
  have name : store.historyFile chat = .mac cipher.naming chat := by
    simp [historyFile, unlocked.unlocked]
  rw [name]
  rcases read_of_lines (shown (.log (.mac cipher.naming chat)) (by simp))
    (logs chat) with ⟨missing, none⟩ | ⟨cells, lines, found, held, read⟩
  · simp [readHistoryLines, notLocked, missing, none]
  simp only [readHistoryLines, notLocked, found, unlocked.bound, Binding.record, bind_some,
    unlocked.unlocked, read, held, getD_some]
  cases entered : record.history.lookup (.mac cipher.naming chat) with
  | none => rfl
  | some entry =>
    have long := (index _ entry entered).2 cells found
    simp [Directory.logSize] at long ⊢
    omega

theorem reads_of_unprotected {holdings : Holdings} {store : Store}
    (unprotected : Unprotected clean holdings view store) :
    store.Reads holdings := by
  have notLocked : store.locked = false := by simp [locked, unprotected.bare]
  refine ⟨fun name => ?_, fun name => ?_, fun chat => ?_⟩
  · obtain ⟨age, seen⟩ := unprotected.keeps.files name
    rcases read_of_bytes (unprotected.shown (.file name) (by simp)) seen with
      ⟨missing, none⟩ | ⟨cell, data, found, held, _, opened⟩
    · simp [readFile, notLocked, missing, none]
    cases cell with
    | plain payload =>
      cases opened
      simp [readFile, notLocked, found, held]
    | sealed _ _ payload | torn => cases opened
  · obtain ⟨age, seen⟩ := unprotected.keeps.downloads name
    rcases read_of_bytes (unprotected.shown (.download name) (by simp)) seen with
      ⟨missing, none⟩ | ⟨cell, data, found, held, _, opened⟩
    · simp [readDownload, notLocked, missing, none]
    · simp [readDownload, notLocked, found, unprotected.cipher, opened, held]
  have name : store.historyFile chat = .plain chat := by
    simp [historyFile, unprotected.cipher]
  rw [name]
  rcases read_of_lines (unprotected.shown (.log (.plain chat)) (by simp))
    (unprotected.logs chat) with ⟨missing, none⟩ | ⟨cells, lines, found, held, read⟩
  · simp [readHistoryLines, notLocked, missing, none]
  simp [readHistoryLines, notLocked, found, unprotected.binding, Binding.record,
    unprotected.cipher, read, held]

end Reading

section Keys

variable {store : Store} {cipher : Cipher}

theorem wrapped_of_shows {view : View} (inPlace : store.directory.vault = some vault)
    (keys : ∀ fresh, vault.unwrap fresh = cipher) (shown : store.directory.Shows (some cipher) view)
    (notPrevious : item ≠ .statePrevious) :
    store.Wrapped item := by
  intro _ found _ _ _ mem
  refine ⟨vault, inPlace, ?_⟩
  rcases (shown item notPrevious).cases with ⟨missing, _⟩ | ⟨_, _, here, opened, _⟩
  · exact absurd (missing.symm.trans found) nofun
  obtain rfl := some.inj (here.symm.trans found)
  have known := opensKey_of_mem opened mem
  rw [← keys 0] at known
  simpa [Cipher.opensKey, Vault.unwrap, Vault.wraps] using known

section

variable (recoverable : Recoverable clean holdings cipher vault store.directory)
include recoverable

theorem wrapped_of_recoverable (notPrevious : item ≠ .statePrevious) : store.Wrapped item := by
  rcases recoverable.state with ⟨_, _, _, standing⟩ | ⟨_, _, _, shown, _⟩
  · exact wrapped_of_shows recoverable.inPlace recoverable.keys standing.shown notPrevious
  · exact wrapped_of_shows recoverable.inPlace recoverable.keys shown notPrevious

theorem wrapped_previous_of_recoverable (holds : clean) : store.Wrapped .statePrevious := by
  intro cells found key bound payload mem
  refine ⟨vault, recoverable.inPlace, .inl ?_⟩
  rw [recoverable.previous holds cells found key bound payload mem, ← recoverable.keys 0]
  rfl

end

theorem wrapped_of_unprotected {view : View} (unprotected : Unprotected clean holdings view store)
    (notPrevious : item ≠ .statePrevious) :
    store.Wrapped item := by
  intro _ found _ _ _ mem
  rcases (unprotected.shown item notPrevious).cases with ⟨missing, _⟩ | ⟨_, _, here, opened, _⟩
  · exact absurd (missing.symm.trans found) nofun
  obtain rfl := some.inj (here.symm.trans found)
  obtain ⟨_, _, rfl⟩ := List.append_of_mem mem
  simp [List.mapM_append, opens] at opened

end Keys

section Programs

theorem execute_withProgram (store : Store) (instruction : Instruction)
    (program : List Instruction) :
    execute { store with program } instruction =
      (execute store instruction).map fun next => { next with program } := by
  cases instruction with
  | adoptFile name =>
    simp only [execute, adoptFile]
    repeat' split
    all_goals rfl
  | adoptLog chat =>
    simp only [execute, adoptLog, historyFile]
    repeat' split
    all_goals rfl
  | bindFile name =>
    simp only [execute, bindFile]
    repeat' split
    all_goals rfl
  | raiseAnchor =>
    simp only [execute, raiseAnchor]
    repeat' split
    all_goals rfl
  | loadRecord =>
    simp only [execute, loadRecord, map]
    repeat' split
    all_goals rfl
  | keepPrevious =>
    simp only [execute, keepPrevious, map]
    repeat' split
    all_goals rfl
  | writeRecord =>
    simp only [execute, writeRecord, map]
    repeat' split
    all_goals rfl
  | coverFiles =>
    simp only [execute, map]
    repeat' split
    all_goals rfl
  | recrypt source _ item | moveLog source name chat | dropRecord source =>
    simp only [execute]
    repeat' split
    all_goals rfl
  | writeVault vault cipher | remove item | forgetRecord | removeVault | startRecord
  | adoptMoved name | removeAdopted chat => rfl

section

variable (running : Running safe ends store)
include running

theorem Running.write {next : Store} (ran : store.step .write = some next) :
    safe { next with program := [] } ∧ Running safe ends next ∧
      store.program ≠ [] ∧ next.program = store.program.tail := by
  obtain ⟨final, passes, ended⟩ := running
  cases left : store.program with
  | nil => simp [step, left] at ran
  | cons instruction rest =>
    rw [left] at passes
    obtain ⟨after, done, _, _⟩ := passes
    have frame : after.program = [] := (execute_frame done).2
    have executed : execute { store with program := rest } instruction =
        .ok { after with program := rest } := by
      have moved := execute_withProgram { store with program := [] } instruction rest
      rw [done] at moved
      exact moved
    simp only [step, left, executed, some.injEq] at ran
    subst ran
    have same : ({ after with program := [] } : Store) = after := by
      rw [← frame]
    refine ⟨?_, ⟨final, ?_, ended⟩, nofun, rfl⟩
    · dsimp only
      rwa [same]
    dsimp only
    rwa [same]

theorem Running.ended (idle : store.program = []) : ends store := by
  obtain ⟨final, passes, ended⟩ := running
  rw [idle] at passes
  have same : store = final := by
    rw [← passes, ← idle]
  exact same ▸ ended

end

end Programs

def Outlives (clean : Prop) (holdings : Holdings) (store : Store) : Prop :=
  Survives clean holdings store ∨ ∃ view, Unprotected clean holdings view store.crash

/-- Where a run of protection changes can be. -/
inductive Phase (clean : Prop) (holdings : Holdings) (store : Store) : Prop where
  | unprotected (view : View) (idle : store.program = [])
      (rest : Unprotected clean holdings view store)
  | ready (idle : store.program = []) (rest : Ready clean holdings store)
  | locked (idle : store.program = []) (out : store.cipher = none)
      (rest : Survives clean holdings store)
  | sealing (crashed : Outlives clean holdings store)
      (last : store.program ≠ [] ∧ store.rotating = false)
      (running : Running (Survives clean holdings) (Ready clean holdings) store)
  | rotating (here : Ready clean holdings store) (left : store.program ≠ [])
      (running : Running (Ready clean holdings) (Ready clean holdings) store)
  | removing (last : store.program ≠ [] ∧ store.rotating = false ∧ store.removing = true)
      (running : Running (fun _ => True)
        (fun final => ∃ view, Unprotected clean holdings view final) store)

section Phases

variable {store next : Store}
variable {cipher : Cipher}

theorem Ready.survives (ready : Ready clean holdings store) : Survives clean holdings store := by
  obtain ⟨cipher, vault, _, _, unlocked⟩ := ready
  exact ⟨cipher, vault, unlocked.recoverable⟩

theorem Ready.withProgram
    (ready : Ready clean holdings store) (fresh : Key) (program : List Instruction) :
    Ready clean holdings { store with fresh, program } := by
  obtain ⟨cipher, vault, record, view, unlocked⟩ := ready
  exact ⟨cipher, vault, record, view, { unlocked with }⟩

theorem Unprotected.crash {view : View} (unprotected : Unprotected clean holdings view store) :
    Unprotected clean holdings view store.crash :=
  { unprotected with cipher := rfl, binding := rfl, building := rfl }

theorem Outlives.phase (outlives : Outlives clean holdings store) :
    Phase clean holdings store.crash := by
  rcases outlives with survives | ⟨view, unprotected⟩
  · exact .locked rfl rfl survives
  · exact .unprotected view rfl unprotected

theorem Phase.crash (phase : Phase clean holdings store) (careful : store.removing = false) :
    Phase clean holdings store.crash := by
  cases phase with
  | unprotected view idle rest => exact .unprotected view rfl (Unprotected.crash rest)
  | ready idle rest => exact .locked rfl rfl rest.survives
  | locked idle _ rest => exact .locked rfl rfl rest
  | sealing crashed last running => exact crashed.phase
  | rotating here _ running => exact .locked rfl rfl here.survives
  | removing last running =>
    rw [last.2.2] at careful
    cases careful

theorem Phase.fail
    (phase : Phase clean holdings store) (careful : store.rotating) (left : store.program ≠ []) :
    Phase clean holdings { store with program := [] } := by
  cases phase with
  | unprotected _ idle rest | ready idle rest | locked idle _ rest => exact absurd idle left
  | sealing _ last running =>
    rw [last.2] at careful
    cases careful
  | rotating here left running => exact .ready rfl (here.withProgram store.fresh [])
  | removing last running =>
    rw [last.2.1] at careful
    cases careful

theorem getLast?_of_tail (left : store.program ≠ []) (rest : next.program = store.program.tail)
    (more : next.program ≠ []) :
    next.program.getLast? = store.program.getLast? := by
  cases program : store.program with
  | nil => exact absurd program left
  | cons _ others =>
    rw [program, List.tail_cons] at rest
    rw [rest] at more ⊢
    cases others with
    | nil => exact absurd rfl more
    | cons _ others => rw [List.getLast?_cons_cons]

theorem Phase.write (phase : Phase clean holdings store) (ran : store.step .write = some next) :
    Phase clean holdings next := by
  cases phase with
  | unprotected view idle rest | ready idle rest | locked idle _ rest => simp [step, idle] at ran
  | sealing _ last running =>
    obtain ⟨safe, runs, left, tail⟩ := running.write ran
    by_cases idle : next.program = []
    · exact .ready idle (runs.ended idle)
    refine .sealing (.inl safe) ⟨idle, ?_⟩ runs
    rw [Store.rotating, getLast?_of_tail left tail idle]
    exact last.2
  | rotating _ left running =>
    obtain ⟨safe, runs, left, tail⟩ := running.write ran
    by_cases idle : next.program = []
    · exact .ready idle (runs.ended idle)
    · exact .rotating (safe.withProgram next.fresh next.program) idle runs
  | removing last running =>
    obtain ⟨safe, runs, left, tail⟩ := running.write ran
    by_cases idle : next.program = []
    · obtain ⟨view, rest⟩ := runs.ended idle
      exact .unprotected view idle rest
    refine .removing ⟨idle, ?_, ?_⟩ runs
    · rw [Store.rotating, getLast?_of_tail left tail idle]
      exact last.2.1
    rw [Store.removing, getLast?_of_tail left tail idle]
    exact last.2.2

theorem getLast?_loadGenerations (disk : Directory) (anchor : Option Nat) :
    (disk.loadGenerations anchor).getLast? = some .raiseAnchor := by
  cases anchor with
  | none => exact List.getLast?_append_of_ne_nil _ nofun
  | some => rfl

theorem Phase.unlock (phase : Phase clean holdings store) (idle : store.program = [])
    (inPlace : store.directory.vault = some vault) :
    Phase clean holdings (store.unlock vault) := by
  have recover : Survives clean holdings store := by
    cases phase with
    | unprotected _ _ rest => exact absurd (rest.bare.symm.trans inPlace) nofun
    | ready _ rest => exact rest.survives
    | locked _ _ rest => exact rest
    | sealing _ last | removing last => exact absurd idle last.1
    | rotating _ left => exact absurd idle left
  obtain ⟨cipher, found, recoverable⟩ := recover
  obtain rfl := some.inj (recoverable.inPlace.symm.trans inPlace)
  have last : (store.unlock found).program.getLast? = some .raiseAnchor := by
    rw [Store.unlock, List.getLast?_append, getLast?_loadGenerations]
    rfl
  refine .sealing (.inl ⟨cipher, found, recoverable⟩) ⟨fun none => ?_, ?_⟩
    (unlock_passes recoverable)
  · rw [none] at last
    cases last
  · rw [Store.rotating, last]

theorem Unprotected.protect
    {view : View} (unprotected : Unprotected clean holdings view store) (kind : Kind) :
    Phase clean holdings (store.protect kind) := by
  have last : (store.protect kind).program.getLast? = some .raiseAnchor := by
    have adopting := getLast?_loadGenerations store.directory none
    rw [Store.protect, ← List.cons_append, List.getLast?_append]
    exact congrArg (Option.or · _) adopting
  refine .sealing (.inr ⟨view, ?_⟩) ⟨nofun, ?_⟩ (protect_passes unprotected kind)
  · exact
      { unprotected with
        cipher := rfl
        binding := rfl
        building := rfl
        drawn := fun naming chat seen =>
          (unprotected.drawn naming chat seen).trans (Nat.lt_add_of_pos_right Nat.two_pos) }
  · rw [rotating, last]

section

variable (ready : Ready clean holdings store) (unlocked : store.cipher = some cipher)
include ready unlocked

theorem Ready.rotateKey
    (alone : cipher.previous = none) (absent : clean → store.directory.read .statePrevious = none)
    (kind : Kind) :
    Phase clean holdings (store.rotateKey cipher kind) := by
  obtain ⟨held, vault, record, view, rest⟩ := ready
  obtain rfl := some.inj (rest.unlocked.symm.trans unlocked)
  exact .rotating (Ready.withProgram ⟨held, vault, record, view, rest⟩ _ _) nofun
    (rotateKey_passes rest alone absent kind)

theorem Ready.removeProtection (listed : store.listed) :
    Phase clean holdings (store.removeProtection cipher) := by
  obtain ⟨held, _, record, view, rest⟩ := ready
  obtain rfl := some.inj (rest.unlocked.symm.trans unlocked)
  have last : (store.removeProtection held).program.getLast? = some .removeVault := by
    simp [removeProtection]
  have named : ∀ name, view (.log name) ≠ none → ∃ entry,
      record.history.lookup name = some entry ∧ name = .mac held.naming entry.conversation := by
    intro name present
    have found : name ∈ store.directory.logs := by
      rw [Directory.mem_logs]
      rcases (rest.standing.shown (.log name) (by simp)).cases with ⟨_, unseen⟩ | ⟨_, _, here, _⟩
      · exact absurd unseen present
      rw [here]
      rfl
    have entered := List.all_eq_true.mp listed name found
    simpa [rest.bound, Binding.record, historyFile, rest.unlocked, any_eq_true] using entered
  refine .removing ⟨fun none => ?_, ?_, ?_⟩ (removeProtection_passes rest named)
  · rw [none] at last
    cases last
  · rw [rotating, last]
  · rw [removing, last]

theorem Ready.addSlot (inPlace : store.directory.vault = some vault) :
    Phase clean holdings { store with program := [.writeVault vault cipher] } := by
  obtain ⟨held, found, record, view, rest⟩ := ready
  obtain rfl := some.inj (rest.unlocked.symm.trans unlocked)
  obtain rfl := some.inj (rest.inPlace.symm.trans inPlace)
  refine .rotating (Ready.withProgram ⟨held, found, record, view, rest⟩ _ _) nofun ?_
  have ended : Ready clean holdings
      { store with
        directory := store.directory.writeVault found, cipher := some held, program := [] } :=
    ⟨held, found, record, view,
      { rest with inPlace := rfl, unlocked := rfl, standing := rest.standing.writeVault found }⟩
  exact ⟨_, ⟨_, rfl, ended, rfl⟩, ended⟩

end

section

variable (phase : Phase clean holdings store)
include phase

/-- A change begun, or refused. -/
theorem Phase.change
    {change : Change} (idle : store.program = []) (careful : store.Careful (.change change))
    (unkept : clean → store.Clean (.change change)) :
    Phase clean holdings ((store.change change).getD store) := by
  cases phase with
  | sealing _ last | removing last => exact absurd idle last.1
  | rotating _ left => exact absurd idle left
  | unprotected view _ rest =>
    cases change with
    | protectWithKeystore =>
      simpa [Store.change, rest.bare] using Unprotected.protect rest .keystore
    | setPassphrase => simpa [Store.change, rest.bare] using Unprotected.protect rest .passphrase
    | addSecurityKey => simpa [Store.change, rest.bare] using Unprotected.protect rest .securityKey
    | removeProtection => simpa [Store.change, rest.bare] using Phase.unprotected view idle rest
    | removePassphrase available =>
      simpa [Store.change, rest.bare] using Phase.unprotected view idle rest
    | rekeySecurityKeys left =>
      simpa [Store.change, rest.bare] using Phase.unprotected view idle rest
  | locked _ out rest =>
    have unchanged : store.change change = none := by
      obtain ⟨_, vault, recoverable⟩ := rest
      cases change <;> simp [Store.change, recoverable.inPlace, out]
    rw [unchanged]
    exact .locked idle out rest
  | ready _ rest =>
    obtain ⟨cipher, vault, record, view, unlocked⟩ := rest
    have ready : Ready clean holdings store := ⟨cipher, vault, record, view, unlocked⟩
    have absent : clean → store.directory.read .statePrevious = none := fun holds => by
      simpa [Store.Clean, unlocked.inPlace] using unkept holds
    have still : Phase clean holdings store := .ready idle ready
    have rotate : cipher.previous = none → ∀ kind,
        Phase clean holdings (store.rotateKey cipher kind) :=
      fun alone kind => ready.rotateKey unlocked.unlocked alone absent kind
    have alone : (∀ held ∈ store.cipher, held.previous = none) → cipher.previous = none :=
      fun every => every cipher unlocked.unlocked
    cases change with
    | protectWithKeystore => simpa [Store.change, unlocked.inPlace] using still
    | setPassphrase | rekeySecurityKeys left =>
      simp only [Store.change, unlocked.inPlace, unlocked.unlocked]
      split
      · exact rotate (alone careful) _
      · exact still
    | removeProtection =>
      simp only [Store.change, unlocked.inPlace, unlocked.unlocked]
      exact ready.removeProtection unlocked.unlocked careful
    | removePassphrase available =>
      simp only [Store.change, unlocked.inPlace, unlocked.unlocked]
      split
      · cases available with
        | true => exact rotate (alone careful) .keystore
        | false => exact ready.removeProtection unlocked.unlocked careful
      · exact still
    | addSecurityKey =>
      simp only [Store.change, unlocked.inPlace, unlocked.unlocked]
      split
      · simpa [unlocked.unlocked] using ready.addSlot unlocked.unlocked unlocked.inPlace
      · exact rotate (alone careful) .securityKey

theorem Phase.step (careful : store.Careful action) (unkept : clean → store.Clean action)
    (ran : store.step action = some next) :
    Phase clean holdings next := by
  cases action with
  | change change =>
    cases program : store.program with
    | nil =>
      simp only [Store.step, program, some.injEq] at ran
      exact ran ▸ phase.change program careful unkept
    | cons instruction rest => simp [Store.step, program] at ran
  | unlock =>
    cases program : store.program with
    | nil =>
      cases inPlace : store.directory.vault with
      | none => simp [Store.step, program, inPlace] at ran
      | some vault =>
        simp only [Store.step, program, inPlace, some.injEq] at ran
        exact ran ▸ phase.unlock program inPlace
    | cons instruction rest => simp [Store.step, program] at ran
  | write => exact phase.write ran
  | fail =>
    cases program : store.program with
    | nil => simp [Store.step, program] at ran
    | cons instruction rest =>
      simp only [Store.step, program, some.injEq] at ran
      exact ran ▸ phase.fail careful (program ▸ nofun)
  | crash =>
    cases ran
    exact phase.crash careful

theorem Phase.reads (idle : store.program = []) (unlocked : store.locked = false) :
    store.Reads holdings := by
  cases phase with
  | unprotected _ _ rest => exact reads_of_unprotected rest
  | ready _ rest =>
    obtain ⟨_, _, _, _, unlocked⟩ := rest
    exact reads_of_unlocked unlocked
  | locked _ out rest =>
    obtain ⟨_, _, recoverable⟩ := rest
    simp [Store.locked, recoverable.inPlace, out] at unlocked
  | sealing _ last | removing last => exact absurd idle last.1
  | rotating _ left => exact absurd idle left

theorem Phase.wrapped
    {item : Item} (idle : store.program = []) (notPrevious : item ≠ .statePrevious) :
    store.Wrapped item := by
  cases phase with
  | unprotected _ _ rest => exact wrapped_of_unprotected rest notPrevious
  | ready _ rest =>
    obtain ⟨_, _, recoverable⟩ := rest.survives
    exact wrapped_of_recoverable recoverable notPrevious
  | locked _ _ rest =>
    obtain ⟨_, _, recoverable⟩ := rest
    exact wrapped_of_recoverable recoverable notPrevious
  | sealing _ last | removing last => exact absurd idle last.1
  | rotating _ left => exact absurd idle left

end

theorem Phase.wrapped_previous (phase : Phase True holdings store) (idle : store.program = []) :
    store.Wrapped .statePrevious := by
  cases phase with
  | unprotected _ _ rest =>
    exact fun cells found key bound payload mem =>
      absurd mem (rest.previous trivial cells found key bound payload)
  | ready _ rest =>
    obtain ⟨_, _, recoverable⟩ := rest.survives
    exact wrapped_previous_of_recoverable recoverable trivial
  | locked _ _ rest =>
    obtain ⟨_, _, recoverable⟩ := rest
    exact wrapped_previous_of_recoverable recoverable trivial
  | sealing _ last | removing last => exact absurd idle last.1
  | rotating _ left => exact absurd idle left

end Phases

section

variable (rest : AtRest holdings store)
  (wrapped : clean → store.Wrapped .statePrevious)
include rest wrapped

theorem AtRest.phase : Phase clean holdings store := by
  obtain ⟨idle, ⟨view, unprotected⟩ | ⟨cipher, vault, record, view, unlocked, alone⟩⟩ := rest
  · refine .unprotected view idle { unprotected with previous := ?_ }
    intro holds cells found key bound payload mem
    obtain ⟨vault, inPlace, _⟩ := wrapped holds cells found key bound payload mem
    exact absurd (unprotected.bare.symm.trans inPlace) nofun
  refine .ready idle ⟨cipher, vault, record, view, { unlocked with previous := ?_ }⟩
  intro holds cells found key bound payload mem
  obtain ⟨_, inPlace, kept⟩ := wrapped holds cells found key bound payload mem
  obtain rfl := some.inj (unlocked.inPlace.symm.trans inPlace)
  have keys := unlocked.keys 0
  subst keys
  rcases kept with same | previous
  · exact same
  · exact absurd (alone.symm.trans previous) nofun

theorem AtRest.run (careful : EachState step Careful store actions)
    (unkept : EachState step (fun state action => clean → state.Clean action) store actions)
    (ended : run step store actions = some final) :
    Phase clean holdings final :=
  (careful.and unkept).run_keeps (rest.phase wrapped)
    (fun _ _ _ phase met ran => phase.step met.1 met.2 ran) ended

end

/-- From a store at rest, through protection changes, failures, crashes and unlocks
each of which is careful, everything held is read whenever no operation is under way
and the store is not locked, and whatever is sealed is under a key the vault keeps;
the copy of the record is too, where no key was replaced while there was one. -/
theorem protection_changes_keep_directory
    {holdings : Holdings} {store final : Store} {actions : List Action}
    (rest : AtRest holdings store) (careful : EachState step Careful store actions)
    (ended : run step store actions = some final) (idle : final.program = []) :
    (final.locked = false → final.Reads holdings) ∧
      (∀ item, item ≠ .statePrevious → final.Wrapped item) ∧
      (store.Wrapped .statePrevious → EachState step Clean store actions →
        final.Wrapped .statePrevious) := by
  have unkept : EachState step (fun state action => False → state.Clean action) store actions :=
    careful.mono fun _ _ _ impossible => impossible.elim
  have phase := rest.run False.elim careful unkept ended
  refine ⟨fun unlocked => phase.reads idle unlocked, fun item other => phase.wrapped idle other,
    fun wrapped clean => ?_⟩
  have kept : EachState step (fun state action => True → state.Clean action) store actions :=
    clean.mono fun _ _ met _ => met
  exact (rest.run (fun _ => wrapped) careful kept ended).wrapped_previous idle

end Store

def Directory.small : Directory :=
  (({ vault := none, contents := ∅ } : Directory).write (.file .identity)
      [.plain (.bytes none [7])]).write (.log (.plain (.group []))) [.plain (.text ['x'])]

def Holdings.small : Holdings :=
  { files := fun name => if name = .identity then some [7] else none
    downloads := fun _ => none
    logs := fun conversation => if conversation = .group [] then some [['x']] else none }

def View.small : View :=
  Function.update (Function.update (fun _ => none) (.file .identity) (some [.bytes none [7]]))
    (.log (.plain (.group []))) (some [.text ['x']])

namespace Store

theorem small_atRest : AtRest .small (opened .small 0) := by
  have empty : Directory.Shows none { vault := none, contents := ∅ } fun _ => none :=
    fun item _ => .of_none rfl rfl
  have file : [plain (.bytes none [7])].mapM (opens none (.file .identity)) =
      some [.bytes none [7]] := rfl
  have line : [plain (.text ['x'])].mapM (opens none (.log (.plain (.group [])))) =
      some [.text ['x']] := rfl
  refine ⟨rfl, .inl ⟨.small, ?_⟩⟩
  exact
    { bare := rfl
      cipher := rfl
      binding := rfl
      building := rfl
      previous := False.elim
      shown := (empty.write file).write line
      keeps := by
        refine ⟨fun name => ⟨none, ?_⟩, fun name => ⟨none, ?_⟩, fun name payloads seen => ?_⟩
        · by_cases same : name = .identity
          · simp [same, View.small, small]
          · simp [same, View.small, small]
        · simp [View.small, small]
        by_cases same : name = .plain (.group [])
        · simp only [same, View.small, Function.update_self, some.injEq] at seen
          exact ⟨[['x']], seen.symm⟩
        · simp [same, View.small] at seen
      logs := fun chat => by
        by_cases same : chat = .group []
        · simp [same, View.small, lines, small]
        · simp [same, View.small, lines, small]
      drawn := fun naming chat seen => by simp [View.small] at seen }

def interrupted : List Action :=
  .change .protectWithKeystore :: List.replicate 20 .write ++ .crash :: .unlock ::
    List.replicate 20 .write ++ .change .setPassphrase :: List.replicate 4 .write ++
    [.fail, .crash, .unlock] ++ List.replicate 24 .write

theorem interrupted_changes_keep_directory :
    ∃ final, run step (opened .small 0) interrupted = some final ∧ final.Reads .small := by
  have careful : EachState step Careful (opened .small 0) interrupted := by decide +kernel
  exact ⟨_, rfl, (protection_changes_keep_directory small_atRest careful rfl rfl).1 rfl⟩

def replacedTwice : List Action :=
  .change .protectWithKeystore :: List.replicate 37 .write ++
    [.change .setPassphrase, .write, .fail, .change (.removePassphrase true), .write, .crash,
      .unlock, .write]

/-- The identity is then under a key the vault no longer keeps. -/
theorem identity_lost_after_second_rotation : AtRest .small (opened .small 0) ∧
      ∃ final, run step (opened .small 0) replacedTwice = some final ∧ final.program = [] ∧
        final.locked = false ∧
        final.readFile .identity = .error (.undecryptable (.file .identity)) :=
  ⟨small_atRest, _, rfl, rfl, rfl, rfl⟩

end Store

end Protection
end Client
end Silver
