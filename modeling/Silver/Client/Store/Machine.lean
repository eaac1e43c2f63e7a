import Silver.Foundation.Run
import Silver.Client.Store.Defs

/-!
# A directory in use, one file-system step at a time

Every write of the store is a sequence of atomic file-system steps: the file, the copy of
the record kept back, the record, the vault's number.  A crash may fall between any two,
and a closed directory is used again after the next unlock.
-/

namespace Silver.Client

open Foundation

/-- Where the program stands: closed, unlocked with no write under way, or with
a record still to be kept back, written, or vouched for by the vault. -/
inductive Phase where
  | closed
  | unlocked (generations : Generations)
  | keeping (state : State)
  | storing (state : State)
  | raising (state : State)

/-- A directory and the program using it. -/
structure Machine where
  disk : Disk
  phase : Phase

/-- A step of the program.  `persist` is the next file-system step of recording,
and `clearSessions` removes one of the two files an identity's replacement
leaves behind. -/
inductive Action where
  | unlock
  | writeFile (name : FileName) (bytes : List UInt8)
  | noteHistoryWrite (file conversation : String) (bytes : Nat)
  | forgetHistoryFile (file : String)
  | clearSessions (name : FileName)
  | persist
  | crash
deriving DecidableEq

namespace Machine

/-- Write one of the store's files whole: the file goes first, and the record of
it is written after. -/
def writeFile (disk : Disk) (generations : Generations) (name : FileName) (bytes : List UInt8) :
    Machine :=
  match generations with
  | .unreadable trouble => { disk, phase := .unlocked (.unreadable trouble) }
  | .unbound => { disk := disk.writeAtomic name (.sealed none bytes), phase := .unlocked .unbound }
  | .bound state =>
    let generation := state.generation + 1
    { disk := disk.writeAtomic name (.sealed (some generation) bytes)
      phase := .keeping { state.wrote name generation with generation } }

def recordHistory (disk : Disk) (generations : Generations) (change : State → State) : Machine :=
  match generations with
  | .bound state =>
    { disk, phase := .keeping { change state with generation := state.generation + 1 } }
  | other => { disk, phase := .unlocked other }

def noteHistoryWrite (disk : Disk) (generations : Generations)
    (file conversation : String) (bytes : Nat) : Machine :=
  recordHistory disk generations fun state => state.wroteHistory file conversation bytes

def forgetHistoryFile (disk : Disk) (generations : Generations) (file : String) : Machine :=
  recordHistory disk generations fun state => state.removedHistory file

def clearSessions (disk : Disk) (generations : Generations) (name : FileName) : Option Machine :=
  if name ∈ [FileName.prekeys, FileName.sessions] then
    some { disk := { disk with files := disk.files.remove name }, phase := .unlocked generations }
  else none

/-- One step, or `none` where the program does not take it. -/
def step (machine : Machine) (action : Action) : Option Machine :=
  match machine.phase, action with
  | _, .crash => some { machine with phase := .closed }
  | .closed, .unlock =>
    let opened := machine.disk.unlock
    some { disk := opened.2, phase := .unlocked opened.1 }
  | .unlocked generations, .writeFile name bytes =>
    some (writeFile machine.disk generations name bytes)
  | .unlocked generations, .noteHistoryWrite file conversation bytes =>
    some (noteHistoryWrite machine.disk generations file conversation bytes)
  | .unlocked generations, .forgetHistoryFile file =>
    some (forgetHistoryFile machine.disk generations file)
  | .unlocked generations, .clearSessions name => clearSessions machine.disk generations name
  | .keeping state, .persist => some { disk := machine.disk.keepPrevious, phase := .storing state }
  | .storing state, .persist =>
    some { disk := machine.disk.writeState state, phase := .raising state }
  | .raising state, .persist =>
    some { disk := machine.disk.raiseAnchor state.generation, phase := .unlocked (.bound state) }
  | _, _ => none

def readFile (machine : Machine) (name : FileName) :
    Option (Except Refusal (Option (List UInt8))) :=
  match machine.phase with
  | .unlocked generations => some (machine.disk.readFile generations name)
  | _ => none

end Machine

def Action.RecordsHistory (action : Action) (change : State → State) : Prop :=
  (∃ file conversation bytes, action = .noteHistoryWrite file conversation bytes ∧
    change = fun state => state.wroteHistory file conversation bytes) ∨
  ∃ file, action = .forgetHistoryFile file ∧ change = fun state => state.removedHistory file

/-- Everything a step can do. -/
inductive Machine.Steps (machine : Machine) : Action → Machine → Prop where
  | crash : Steps machine .crash { machine with phase := .closed }
  | unlock
      (phase : machine.phase = .closed) :
      Steps machine .unlock
        { disk := machine.disk.unlock.2, phase := .unlocked machine.disk.unlock.1 }
  | writeFile {generations : Generations} (name : FileName) (bytes : List UInt8)
      (phase : machine.phase = .unlocked generations) :
      Steps machine (.writeFile name bytes) (Machine.writeFile machine.disk generations name bytes)
  | recordHistory {action : Action} {generations : Generations} {change : State → State}
      (records : action.RecordsHistory change)
      (phase : machine.phase = .unlocked generations) :
      Steps machine action (Machine.recordHistory machine.disk generations change)
  | clearSessions {generations : Generations} (name : FileName)
      (phase : machine.phase = .unlocked generations) :
      Steps machine (.clearSessions name)
        { disk := { machine.disk with files := machine.disk.files.remove name }
          phase := .unlocked generations }
  | keep {state : State} (phase : machine.phase = .keeping state) :
      Steps machine .persist { disk := machine.disk.keepPrevious, phase := .storing state }
  | store {state : State} (phase : machine.phase = .storing state) :
      Steps machine .persist { disk := machine.disk.writeState state, phase := .raising state }
  | raise {state : State} (phase : machine.phase = .raising state) : Steps machine .persist
        { disk := machine.disk.raiseAnchor state.generation, phase := .unlocked (.bound state) }

theorem Machine.steps_of_step {machine next : Machine} (ran : machine.step action = some next) :
    machine.Steps action next := by
  cases action with
  | crash =>
    obtain rfl : _ = next := by
      cases phase : machine.phase <;> simpa [step, phase] using ran
    exact .crash
  | unlock =>
    cases phase : machine.phase <;> simp [step, phase] at ran
    cases ran
    exact .unlock phase
  | writeFile name bytes =>
    cases phase : machine.phase <;> simp [step, phase] at ran
    cases ran
    exact .writeFile name bytes phase
  | noteHistoryWrite file chat bytes =>
    cases phase : machine.phase <;> simp [step, phase] at ran
    cases ran
    exact .recordHistory (.inl ⟨file, chat, bytes, rfl, rfl⟩) phase
  | forgetHistoryFile file =>
    cases phase : machine.phase <;> simp [step, phase] at ran
    cases ran
    exact .recordHistory (.inr ⟨file, rfl, rfl⟩) phase
  | clearSessions name =>
    cases phase : machine.phase <;> simp [step, phase] at ran
    unfold clearSessions at ran
    split at ran
    · cases ran
      exact .clearSessions name phase
    · cases ran
  | persist =>
    cases phase : machine.phase <;> simp [step, phase] at ran
    · cases ran
      exact .keep phase
    · cases ran
      exact .store phase
    cases ran
    exact .raise phase

end Silver.Client
