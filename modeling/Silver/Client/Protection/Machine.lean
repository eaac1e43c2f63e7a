import Silver.Client.History.Log
import Silver.Client.Protection.Defs

/-!
# Unlocking a directory and changing its protection, a write at a time

An operation is the list of the writes it makes, in their order.  Each is atomic:
between two of them the process may be gone, with what it held in memory.
-/

namespace Silver.Client.Protection

open Foundation

/-- One write, and what the store keeps of it in memory. -/
inductive Instruction where
  | writeVault (vault : Vault) (cipher : Cipher)
  | recrypt (source target : Option Cipher) (item : Item)
  | moveLog (source : Option Cipher) (name : LogName) (conversation : Conversation)
  | dropRecord (source : Option Cipher)
  | remove (item : Item)
  | forgetRecord
  | removeVault
  | startRecord
  | adoptFile (name : FileName)
  | adoptLog (conversation : Conversation)
  | adoptMoved (name : LogName)
  | removeAdopted (conversation : Conversation)
  | loadRecord
  | bindFile (name : FileName)
  | coverFiles
  | keepPrevious
  | writeRecord
  | raiseAnchor

/-- A store on its directory: the unlocked keys, the record in force, the one being
made, the keys drawn so far, and the writes an operation has yet to make. -/
structure Store where
  directory : Directory
  cipher : Option Cipher
  binding : Binding
  building : Option Record
  fresh : Key
  program : List Instruction

/-- Why an operation stops. -/
inductive Failure where
  | undecryptable (item : Item)
  | vaultGone
deriving DecidableEq

namespace Directory

/-- The contents of a file as they are after a change of key; a file received in the
clear stays as it is. -/
def recrypted (directory : Directory) (source target : Option Cipher) (item : Item) :
    Option Directory :=
  match item, directory.read item with
  | _, none => some directory
  | .download name, some cells =>
    if cells.all Cell.isPlain then some directory
    else
      (cells.mapM (Cell.opens source (.download name))).map fun payloads =>
        directory.write (.download name) (payloads.map (Cell.encode target (.download name)))
  | item, some cells =>
    (cells.mapM (Cell.opens source item)).map fun payloads =>
      directory.write item (payloads.map (Cell.encode target item))

def copyLog (directory : Directory) (source target : Option Cipher)
    (name destination : LogName) : Option (Directory × Nat) :=
  match directory.read (.log name) with
  | none => some (directory, 0)
  | some cells =>
    (cells.mapM (Cell.opens source (.log name))).map fun payloads =>
      let moved := payloads.map (Cell.encode target (.log destination))
      (directory.write (.log destination) moved, (moved.map Cell.size).sum)

end Directory

namespace Store

def locked (store : Store) : Bool :=
  store.directory.vault.isSome && store.cipher.isNone

def historyFile (store : Store) (conversation : Conversation) : LogName :=
  match store.cipher with
  | some cipher => .mac cipher.naming conversation
  | none => .plain conversation

def withDirectory (store : Store) (directory : Directory) : Store :=
  { store with directory }

/-- Give a file its generation, if it has none, and record it. -/
def adoptFile (store : Store) (name : FileName) : Except Failure Store :=
  match store.building, store.directory.read (.file name) with
  | some record, some [.sealed key bound payload] =>
    match (Cell.sealed key bound payload).opens store.cipher (.file name) with
    | some (.bytes generation data) =>
      let generationAt := generation.getD Disk.FIRST
      let record := record.wrote name generationAt
      let directory :=
        if generation.isNone then
          store.directory.write (.file name)
            [Cell.encode store.cipher (.file name) (.bytes (some generationAt) data)]
        else store.directory
      .ok { store with
        directory
        building := some { record with generation := max record.generation generationAt } }
    | _ => .error (.undecryptable (.file name))
  | _, _ => .ok store

def adoptLog (store : Store) (conversation : Conversation) : Except Failure Store :=
  let destination := store.historyFile conversation
  match store.directory.copyLog store.cipher store.cipher (.plain conversation) destination with
  | some (directory, bytes) =>
    .ok { store with
      directory
      building := store.building.map (·.wroteHistory destination conversation bytes) }
  | none => .error (.undecryptable (.log (.plain conversation)))

def adoptMoved (store : Store) (name : LogName) : Store :=
  { store with
    building := store.building.map fun record =>
      match record.history.lookup name with
      | some entry =>
        record.wroteHistory name entry.conversation
          (((store.directory.read (.log name)).getD []).map Cell.size).sum
      | none => record }

def loadRecord (store : Store) : Store :=
  match store.cipher, store.directory.vault.bind Vault.stateGeneration with
  | some cipher, some anchor =>
    let binding := store.directory.readGenerations cipher anchor
    { store with
      binding
      building := binding.record.filter fun record => record.covers < COVERS_LOG_AND_OUTBOX }
  | _, _ => store

/-- Write a file at the next generation and record it. -/
def bindFile (store : Store) (name : FileName) : Except Failure Store :=
  match store.building, store.directory.read (.file name) with
  | some record, some [.sealed key bound payload] =>
    match (Cell.sealed key bound payload).opens store.cipher (.file name) with
    | some (.bytes _ data) =>
      let next := record.generation + 1
      let record := { record.wrote name next with generation := next }
      .ok { store with
        directory := store.directory.write (.file name)
          [Cell.encode store.cipher (.file name) (.bytes (some next) data)]
        binding := .bound record
        building := some record }
    | _ => .error (.undecryptable (.file name))
  | _, _ => .ok store

def keepPrevious (store : Store) : Store :=
  match store.building, store.directory.read .state with
  | some _, some cells => store.withDirectory (store.directory.write .statePrevious cells)
  | _, _ => store

def writeRecord (store : Store) : Store :=
  match store.building with
  | some record =>
    store.withDirectory
      (store.directory.write .state [Cell.encode store.cipher .state (.record record)])
  | none => store

/-- Raise the number in the vault, as it is on disk, to the record's. -/
def raiseAnchor (store : Store) : Except Failure Store :=
  match store.building, store.directory.vault with
  | some record, some vault =>
    .ok { store with
      directory :=
        store.directory.writeVault { vault with stateGeneration := some record.generation }
      binding := .bound record
      building := none }
  | some _, none => .error .vaultGone
  | none, _ => .ok store

/-- Make one write. -/
def execute (store : Store) : Instruction → Except Failure Store
  | .writeVault vault cipher =>
    .ok { store with directory := store.directory.writeVault vault, cipher := some cipher }
  | .recrypt source target item =>
    match store.directory.recrypted source target item with
    | some directory => .ok (store.withDirectory directory)
    | none => .error (.undecryptable item)
  | .moveLog source name conversation =>
    match store.directory.copyLog source none name (.plain conversation) with
    | some (directory, _) => .ok (store.withDirectory directory)
    | none => .error (.undecryptable (.log name))
  | .dropRecord source =>
    match store.directory.read .state with
    | none => .ok store
    | some cells =>
      match cells.mapM (Cell.opens source .state) with
      | some _ => .ok (store.withDirectory (store.directory.remove .state))
      | none => .error (.undecryptable .state)
  | .remove item => .ok (store.withDirectory (store.directory.remove item))
  | .forgetRecord => .ok { store with binding := .unbound }
  | .removeVault => .ok (store.withDirectory { store.directory with vault := none })
  | .startRecord => .ok { store with building := some .first }
  | .adoptFile name => store.adoptFile name
  | .adoptLog conversation => store.adoptLog conversation
  | .adoptMoved name => .ok (store.adoptMoved name)
  | .removeAdopted conversation =>
    .ok { store with
      directory := store.directory.remove (.log (.plain conversation))
      building := store.building.map (·.removedHistory (.plain conversation)) }
  | .loadRecord => .ok store.loadRecord
  | .bindFile name => store.bindFile name
  | .coverFiles =>
    .ok (match store.building with
      | some record =>
        let record := { record with covers := COVERS_LOG_AND_OUTBOX }
        { store with binding := .bound record, building := some record }
      | none => store)
  | .keepPrevious => .ok store.keepPrevious
  | .writeRecord => .ok store.writeRecord
  | .raiseAnchor => store.raiseAnchor

end Store

def persistGenerations : List Instruction :=
  [.keepPrevious, .writeRecord, .raiseAnchor]

def bindUncovered : List Instruction :=
  [.bindFile .transparency, .bindFile .outbox, .coverFiles] ++ persistGenerations

namespace Directory

def walkedItems (directory : Directory) : List Item :=
  recryptedFiles.map Item.file ++ [Item.state] ++ directory.downloads.map Item.download ++
    directory.logs.map Item.log

def recryptAll (directory : Directory) (source : Option Cipher) (target : Cipher) :
    List Instruction :=
  directory.walkedItems.map (.recrypt source (some target))

/-- What is done with a file when the protection goes: the record goes with it, a log
goes back to the name that says whose it is where the index can say, and the rest is
put in the clear. -/
def decryptItem (source : Cipher) (recorded : Bool) (index : Option Record) :
    Item → List Instruction
  | .state =>
    if recorded then [.dropRecord (some source), .remove .statePrevious, .forgetRecord] else []
  | .log name =>
    match (index.bind fun record => record.history.lookup name).map LogState.conversation with
    | some conversation =>
      if name = .plain conversation then [.recrypt (some source) none (.log name)]
      else [.moveLog (some source) name conversation, .remove (.log name)]
    | none => [.recrypt (some source) none (.log name)]
  | item => [.recrypt (some source) none item]

def decryptAll (directory : Directory) (source : Cipher) (index : Option Record) :
    List Instruction :=
  directory.walkedItems.flatMap (decryptItem source (directory.read .state).isSome index)

def adoptHistory : LogName → List Instruction
  | .plain conversation => [.adoptLog conversation, .removeAdopted conversation]
  | .mac naming conversation => [.adoptMoved (.mac naming conversation)]

def adoptGenerations (directory : Directory) : List Instruction :=
  .startRecord :: recryptedFiles.map .adoptFile ++ directory.logs.flatMap adoptHistory ++
    persistGenerations

def loadGenerations (directory : Directory) (stateGeneration : Option Nat) : List Instruction :=
  match stateGeneration with
  | none => directory.adoptGenerations
  | some _ => .loadRecord :: bindUncovered

end Directory

namespace Store

def opened (directory : Directory) (fresh : Key) : Store :=
  { directory, cipher := none, binding := .unbound, building := none, fresh, program := [] }

def crash (store : Store) : Store :=
  opened store.directory store.fresh

/-- Unlock with the secret the vault calls for: files left in the clear are sealed,
a rotation cut short is finished, and the record is read. -/
def unlock (store : Store) (vault : Vault) : Store :=
  let cipher := vault.unwrap store.fresh
  let stragglers :=
    if store.directory.anyPlain then store.directory.recryptAll (some cipher) cipher else []
  let rotation :=
    if vault.previous.isSome then
      store.directory.recryptAll (some cipher) cipher ++
        [.writeVault { vault with previous := none } cipher.settled]
    else []
  { store with
    cipher := some cipher
    building := none
    fresh := if vault.naming.isSome then store.fresh else store.fresh + 1
    program := stragglers ++ rotation ++ store.directory.loadGenerations vault.stateGeneration }

def protect (store : Store) (kind : Kind) : Store :=
  let cipher : Cipher := { key := store.fresh, previous := none, naming := store.fresh + 1 }
  { store with
    building := none
    fresh := store.fresh + 2
    program :=
      .writeVault (cipher.wrap kind none) cipher ::
        (store.directory.recryptAll none cipher ++ store.directory.adoptGenerations) }

/-- Move the directory onto a fresh data key: the vault names both keys until the
last file is under the new one. -/
def rotateKey (store : Store) (old : Cipher) (kind : Kind) : Store :=
  let rotating := old.rotating store.fresh
  let anchor := store.binding.record.map Record.generation
  { store with
    fresh := store.fresh + 1
    program :=
      .writeVault (rotating.wrap kind anchor) rotating ::
        (store.directory.recryptAll (some old) rotating ++
          [.writeVault (rotating.settled.wrap kind anchor) rotating.settled]) }

def removeProtection (store : Store) (cipher : Cipher) : Store :=
  { store with
    cipher := none
    program := store.directory.decryptAll cipher store.binding.record ++ [.removeVault] }

end Store

/-- A change of protection; `available` is whether there is a key store, `left`
whether a security key is left. -/
inductive Change where
  | protectWithKeystore
  | setPassphrase
  | removePassphrase ( available : Bool)
  | removeProtection
  | addSecurityKey
  | rekeySecurityKeys (left : Bool)
deriving DecidableEq

namespace Store

/-- Begin a change of protection; one that does not fit how the directory is
protected is refused. -/
def change (store : Store) (change : Change) : Option Store :=
  match change, store.directory.vault, store.cipher with
  | .protectWithKeystore, none, _ => some (store.protect .keystore)
  | .setPassphrase, none, _ => some (store.protect .passphrase)
  | .addSecurityKey, none, _ => some (store.protect .securityKey)
  | .removeProtection, none, _ => some store
  | .setPassphrase, some vault, some cipher =>
    if vault.kind = .keystore then some (store.rotateKey cipher .passphrase) else none
  | .removePassphrase available, some vault, some cipher =>
    if vault.kind = .passphrase then
      if available then some (store.rotateKey cipher .keystore)
      else some (store.removeProtection cipher)
    else none
  | .removeProtection, some _, some cipher => some (store.removeProtection cipher)
  | .addSecurityKey, some vault, some cipher =>
    if vault.kind = .securityKey then
      some { store with program := [.writeVault vault cipher] }
    else some (store.rotateKey cipher .securityKey)
  | .rekeySecurityKeys left, some vault, some cipher =>
    if vault.kind = .securityKey then
      some (store.rotateKey cipher (if left then .securityKey else .passphrase))
    else none
  | _, _, _ => none

def complete (store : Store) : Except Failure Store :=
  store.program.foldlM execute { store with program := [] }

section Reading

/-- A whole file. -/
def readFile (store : Store) (name : FileName) : Except ReadError (Option (List UInt8)) :=
  if store.locked then .error .locked
  else
    match store.directory.read (.file name) with
    | none => .ok none
    | some [.plain (.bytes _ data)] => .ok (some data)
    | some [cell] =>
      match store.binding with
      | .unreadable => .error .unreadable
      | binding =>
        match cell.opens store.cipher (.file name) with
        | some (.bytes generation data) =>
          if binding.record.all fun record => generation.any (record.accepts name) then
            .ok (some data)
          else .error (.replaced name generation)
        | _ => .error (.undecryptable (.file name))
    | some _ => .error (.undecryptable (.file name))

/-- A file received. -/
def readDownload (store : Store) (name : String) : Except ReadError (Option (List UInt8)) :=
  if store.locked then .error .locked
  else
    match store.directory.read (.download name) with
    | none => .ok none
    | some [cell] =>
      match cell.opens store.cipher (.download name) with
      | some (.bytes _ data) => .ok (some data)
      | _ => .error (.undecryptable (.download name))
    | some _ => .error (.undecryptable (.download name))

/-- The lines of a log that can be read. -/
def readHistoryLines (store : Store) (name : LogName) : Except ReadError (List Text) :=
  if store.locked then .error .locked
  else
    match store.directory.read (.log name) with
    | none => .ok []
    | some cells =>
      match store.binding with
      | .unreadable => .error .unreadable
      | binding =>
        let found := (cells.map Cell.size).sum
        let lines := cells.filterMap fun cell =>
          (cell.opens store.cipher (.log name)).bind Payload.text?
        match (binding.record.bind fun record => record.history.lookup name) with
        | some entry =>
          if found < entry.bytes then .error (.shorter name found entry.bytes)
          else .ok lines
        | none => .ok lines

def loadHistory (json : LineJson) (store : Store) (conversation : Conversation) :
    Except ReadError (List HistoryEntry) :=
  (store.readHistoryLines (store.historyFile conversation)).map fun lines =>
    entriesOf conversation (lines.filterMap json.fromText)

def conversations (store : Store) : List Conversation :=
  match store.binding.record with
  | some record => record.conversations
  | none =>
    store.directory.logs.filterMap fun name =>
      match name with
      | .plain conversation => some conversation
      | .mac _ _ => none

end Reading

end Store

end Silver.Client.Protection
