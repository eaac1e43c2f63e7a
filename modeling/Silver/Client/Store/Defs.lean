import Silver.Foundation.Table

/-!
# The store's whole files and the record of their generations

A protected directory seals every whole file under its name and a generation.  The
encrypted `state` file records the generation each file was last written at, `state.prev`
keeps the record before it, and `vault.json` the one number the record has to agree with.
The cipher is ideal: what is sealed opens under its own name alone.
-/

namespace Silver.Client

open Foundation

/-- The whole files a store keeps. -/
inductive FileName where
  | identity
  | revocation
  | prekeys
  | sessions
  | contacts
  | outbox
  | transparency
  | requests
  | blocked
  | declined
  | devices
  | groups
  | mls
  | config
deriving DecidableEq

def IDENTITY_FILES : List FileName :=
  [.identity, .revocation, .prekeys, .sessions, .contacts, .outbox, .transparency, .requests,
    .blocked, .declined, .devices, .groups, .mls]

def recryptedFiles : List FileName :=
  IDENTITY_FILES ++ [.config]

theorem mem_recryptedFiles (name : FileName) : name ∈ recryptedFiles := by
  cases name <;> decide

/-- Where a history file stands. -/
structure HistoryState where
  conversation : String
  bytes : Nat
deriving DecidableEq

/-- The record of what the directory last wrote. -/
structure State where
  generation : Nat
  files : Table FileName Nat
  history : Table String HistoryState
  covers : Nat

def COVERS_LOG_AND_OUTBOX : Nat := 1

namespace State

def default : State :=
  { generation := 0, files := Table.empty, history := Table.empty, covers := 0 }

def acceptable (state : State) (name : FileName) : List Nat :=
  match state.files.get name with
  | none => [state.generation + 1]
  | some recorded =>
    if recorded = state.generation + 1 then [recorded] else [recorded, state.generation + 1]

def wrote (state : State) (name : FileName) (generation : Nat) : State :=
  { state with files := state.files.insert name generation }

def wroteHistory (state : State) (file conversation : String) (bytes : Nat) : State :=
  { state with history := state.history.insert file ⟨conversation, bytes⟩ }

def removedHistory (state : State) (file : String) : State :=
  { state with history := state.history.remove file }

theorem mem_acceptable (state : State) (name : FileName) (age : Nat) :
    age ∈ state.acceptable name ↔ state.files.get name = some age ∨ age = state.generation + 1 := by
  unfold acceptable
  cases recorded : state.files.get name with
  | none => simp
  | some last =>
    by_cases inFlight : last = state.generation + 1
    · simp [inFlight, eq_comm]
    · simp [inFlight, eq_comm]

end State

/-- Which copy of the record a complaint is about. -/
inductive RecordFile where
  | state
  | statePrevious
deriving DecidableEq

def RecordFile.text : RecordFile → String
  | .state => "state"
  | .statePrevious => "state.prev"

/-- What is wrong with a copy of the record. -/
inductive Trouble where
  | missing (file : RecordFile)
  | generation (file : RecordFile) (found anchor : Nat)
deriving DecidableEq

/-- Why a read or a write is refused. -/
inductive Refusal where
  | unreadable (trouble : List Trouble)
  | replaced (name : FileName) (found : Option Nat) (acceptable : List Nat)
deriving DecidableEq

/-- Where a directory stands with respect to rollback binding. -/
inductive Generations where
  | unbound
  | bound (state : State)
  | unreadable (trouble : List Trouble)

/-- A whole file as it lies on disk: in the clear, or sealed, under its name
alone or under a generation as well. -/
inductive FileImage where
  | plain (bytes : List UInt8)
  | sealed (generation : Option Nat) (bytes : List UInt8)
deriving DecidableEq

namespace FileImage

def bytes : FileImage → List UInt8
  | .plain bytes => bytes
  | .sealed _ bytes => bytes

def generation : FileImage → Option Nat
  | .plain _ => none
  | .sealed generation _ => generation

def encrypt : FileImage → FileImage
  | .plain bytes => .sealed none bytes
  | .sealed generation bytes => .sealed generation bytes

@[simp] theorem bytes_encrypt (image : FileImage) : image.encrypt.bytes = image.bytes := by
  cases image <;> rfl

@[simp] theorem generation_encrypt (image : FileImage) :
    image.encrypt.generation = image.generation := by
  cases image <;> rfl

end FileImage

/-- What the directory holds: the whole files, the two copies of the record and
the generation `vault.json` says the record is at. -/
structure Disk where
  files : Table FileName FileImage
  state : Option State
  statePrevious : Option State
  stateGeneration : Option Nat

namespace Disk

def contents (disk : Disk) (name : FileName) : Option (List UInt8) :=
  (disk.files.get name).map FileImage.bytes

def writeAtomic (disk : Disk) (name : FileName) (image : FileImage) : Disk :=
  { disk with files := disk.files.insert name image }

def keepPrevious (disk : Disk) : Disk :=
  match disk.state with
  | none => disk
  | some current => { disk with statePrevious := some current }

def writeState (disk : Disk) (state : State) : Disk :=
  { disk with state := some state }

def raiseAnchor (disk : Disk) (generation : Nat) : Disk :=
  { disk with stateGeneration := some generation }

def persistGenerations (disk : Disk) (state : State) : Disk :=
  (disk.keepPrevious.writeState state).raiseAnchor state.generation

def readRecord (file : RecordFile) (record : Option State) (anchor : Nat) : Except Trouble State :=
  match record with
  | none => .error (.missing file)
  | some state =>
    if state.generation = anchor ∨ state.generation = anchor + 1 then .ok state
    else .error (.generation file state.generation anchor)

def readGenerations (disk : Disk) (anchor : Nat) : Except (List Trouble) State :=
  match readRecord .state disk.state anchor with
  | .ok state => .ok state
  | .error trouble =>
    match readRecord .statePrevious disk.statePrevious anchor with
    | .ok state => .ok state
    | .error further => .error [trouble, further]

def bindFile (bound : State × Disk) (name : FileName) : State × Disk :=
  match bound.2.files.get name with
  | some (.sealed _ bytes) =>
    let generation := bound.1.generation + 1
    ({ bound.1.wrote name generation with generation },
      bound.2.writeAtomic name (.sealed (some generation) bytes))
  | _ => bound

def bindUncovered (disk : Disk) (state : State) : State × Disk :=
  if COVERS_LOG_AND_OUTBOX ≤ state.covers then (state, disk)
  else
    let bound := [FileName.transparency, FileName.outbox].foldl bindFile (state, disk)
    let state := { bound.1 with covers := COVERS_LOG_AND_OUTBOX }
    (state, bound.2.persistGenerations state)

def FIRST : Nat := 1

/-- Give one file of a directory that has no generations its first one, or take
up the one it already carries. -/
def adoptFile (adopted : State × Disk) (name : FileName) : State × Disk :=
  match adopted.2.files.get name with
  | some (.sealed generation bytes) =>
    let reached := generation.getD FIRST
    ({ adopted.1.wrote name reached with generation := max adopted.1.generation reached },
      match generation with
      | none => adopted.2.writeAtomic name (.sealed (some reached) bytes)
      | some _ => adopted.2)
  | _ => adopted

def adoptGenerations (disk : Disk) : State × Disk :=
  let start := { State.default with generation := FIRST, covers := COVERS_LOG_AND_OUTBOX }
  let adopted := recryptedFiles.foldl adoptFile (start, disk)
  (adopted.1, adopted.2.persistGenerations adopted.1)

/-- Read the record and check it against the vault, adopting generations if the
directory has none yet. -/
def loadGenerations (disk : Disk) : Generations × Disk :=
  match disk.stateGeneration with
  | none =>
    let adopted := disk.adoptGenerations
    (.bound adopted.1, adopted.2)
  | some anchor =>
    match disk.readGenerations anchor with
    | .error trouble => (.unreadable trouble, disk)
    | .ok state =>
      let bound := disk.bindUncovered state
      (.bound bound.1, bound.2)

def sealStragglers (disk : Disk) : Disk :=
  { disk with files := disk.files.map FileImage.encrypt }

def unlock (disk : Disk) : Generations × Disk :=
  disk.sealStragglers.loadGenerations

/-- Read one of the store's files whole. -/
def readFile (disk : Disk) (generations : Generations) (name : FileName) :
    Except Refusal (Option (List UInt8)) :=
  match disk.files.get name with
  | none => .ok none
  | some (.plain bytes) => .ok (some bytes)
  | some (.sealed generation bytes) =>
    match generations with
    | .unreadable trouble => .error (.unreadable trouble)
    | .unbound => .ok (some bytes)
    | .bound state =>
      let acceptable := state.acceptable name
      if generation.any fun carried => acceptable.contains carried then .ok (some bytes)
      else .error (.replaced name generation acceptable)

theorem readFile_bound_eq_ok
    {disk : Disk} {state : State} {name : FileName} {age : Option Nat}
    {bytes : List UInt8} {read : Option (List UInt8)}
    (held : disk.files.get name = some (.sealed age bytes)) :
    disk.readFile (.bound state) name = .ok read ↔
      read = some bytes ∧ ∃ carried, age = some carried ∧
        (state.files.get name = some carried ∨ carried = state.generation + 1) := by
  simp only [readFile, held]
  cases age with
  | none => simp
  | some carried =>
    have listed := state.mem_acceptable name carried
    by_cases allowed : carried ∈ state.acceptable name
    · simp only [Option.any_some, List.contains_iff_mem, allowed, if_true]
      constructor
      · intro same
        exact ⟨(Except.ok.inj same).symm, carried, rfl, listed.mp allowed⟩
      rintro ⟨rfl, -⟩
      rfl
    have refused := mt listed.mpr allowed
    simp [allowed, refused]

end Disk

end Silver.Client
