import Silver.Client.Protection.Changes

/-!
# Writing the conversation logs, and starting the record again

A write to a log is followed by a write of the record, which is the index of the
conversations as well.  Each of these operations is one step here; only the adoption
that starting the record again ends with is made a write at a time.
-/

namespace Silver.Client.Protection

open Foundation Protocol

/-- Why a write to a log is refused or stops. -/
inductive HistoryFailure where
  | read (error : ReadError)
  | stopped (failure : Failure)
deriving DecidableEq

def Directory.persisted (directory : Directory) (cipher : Option Cipher) (vault : Vault)
    (record : Record) : Directory :=
  let kept :=
    match directory.read .state with
    | some cells => directory.write .statePrevious cells
    | none => directory
  (kept.write .state [Cell.encode cipher .state (.record record)]).writeVault
    { vault with stateGeneration := some record.generation }

namespace Store

def persist (store : Store) (record : Record) : Store × Except HistoryFailure Unit :=
  let noted : Store := { store with binding := .bound record, building := some record }
  let written := noted.keepPrevious.writeRecord
  match written.raiseAnchor with
  | .ok next => (next, .ok ())
  | .error failure => ({ written with building := none }, .error (.stopped failure))

def noteHistoryWrite (store : Store) (name : LogName) (conversation : Conversation) :
    Store × Except HistoryFailure Unit :=
  match store.cipher, store.binding with
  | some _, .bound record =>
    let bytes := (((store.directory.read (.log name)).getD []).map Cell.size).sum
    let record := record.wroteHistory name conversation bytes
    store.persist { record with generation := record.generation + 1 }
  | _, _ => (store, .ok ())

def forgetHistoryFile (store : Store) (name : LogName) : Store × Except HistoryFailure Unit :=
  match store.cipher, store.binding with
  | some _, .bound record =>
    let record := record.removedHistory name
    store.persist { record with generation := record.generation + 1 }
  | _, _ => (store, .ok ())

/-- Add a line to a conversation's log. -/
def appendHistoryLine (store : Store) (conversation : Conversation) (line : Text) :
    Store × Except HistoryFailure Unit :=
  let name := store.historyFile conversation
  if store.locked then (store, .error (.read .locked))
  else
    match store.binding with
    | .unreadable => (store, .error (.read .unreadable))
    | _ =>
      let cells := (store.directory.read (.log name)).getD []
      let written := store.directory.write (.log name)
        (cells ++ [Cell.encode store.cipher (.log name) (.text line)])
      (store.withDirectory written).noteHistoryWrite name conversation

def conversationOf (store : Store) (name : LogName) : Option Conversation :=
  ((store.binding.record.bind fun record => record.history.lookup name).map
    LogState.conversation).or
    (match name with
      | .plain conversation => some conversation
      | .mac _ _ => none)

section Lines

variable (json : LineJson)

def parseLine (store : Store) (name : LogName) (cell : Cell) : Except Cell HistoryLine :=
  match ((cell.opens store.cipher (.log name)).bind Payload.text?).bind json.fromText with
  | some line => .ok line
  | none => .error cell

def writtenLine (store : Store) (name : LogName) : Except Cell HistoryLine → Cell
  | .ok line => Cell.encode store.cipher (.log name) (.text (json.toText line))
  | .error cell => cell

/-- Write lines as the whole of a log. -/
def writeHistoryLines (store : Store) (name : LogName) (lines : List (Except Cell HistoryLine)) :
    Store × Except HistoryFailure Unit :=
  if store.locked then (store, .error (.read .locked))
  else
    let written := store.withDirectory
      (store.directory.write (.log name) (lines.map (store.writtenLine json name)))
    match store.conversationOf name with
    | some conversation => written.noteHistoryWrite name conversation
    | none => (written, .ok ())

def withoutMessages (ids : List String) : Except Cell HistoryLine → Option (Except Cell HistoryLine)
  | .ok line => (Log.withoutMessages ids (.ok line)).bind fun kept => kept.toOption.map .ok
  | .error cell => some (.error cell)

/-- Remove messages from a conversation's log for good, leaving a tombstone for each. -/
def removeMessages (store : Store) (conversation : Conversation) (ids : List String) :
    Store × Except HistoryFailure Unit :=
  let name := store.historyFile conversation
  match store.directory.read (.log name) with
  | none => (store, .ok ())
  | some cells =>
    match store.readHistoryLines name with
    | .error error => (store, .error (.read error))
    | .ok _ =>
      let lines := (cells.map (store.parseLine json name)).filterMap (withoutMessages ids)
      let tombstones := ids.map fun id => Except.ok (HistoryLine.gone id none)
      store.writeHistoryLines json name (lines ++ tombstones)

end Lines

/-- Move a contact's log to another contact.  A line that does not open stops it, with
the lines before it moved already. -/
def migrateHistory (store : Store) (old new : UserId) : Store × Except HistoryFailure Unit :=
  if store.locked then (store, .error (.read .locked))
  else if old = new then (store, .ok ())
  else
    let oldName := store.historyFile (.contact old)
    let newName := store.historyFile (.contact new)
    match store.directory.read (.log oldName) with
    | none => (store, .ok ())
    | some cells =>
      let opened :=
        ((cells.map (Cell.opens store.cipher (.log oldName))).takeWhile Option.isSome).filterMap id
      let before := (store.directory.read (.log newName)).getD []
      let appended := store.directory.write (.log newName)
        (before ++ opened.map (Cell.encode store.cipher (.log newName)))
      if opened.length < cells.length then
        (store.withDirectory appended, .error (.stopped (.undecryptable (.log oldName))))
      else
        match (store.withDirectory (appended.remove (.log oldName))).forgetHistoryFile oldName with
        | (forgotten, .ok ()) => forgotten.noteHistoryWrite newName (.contact new)
        | failed => failed

/-- Start the record again from what is on disk: the old one goes, the vault no longer
vouches for any, and the directory is adopted anew. -/
def resetRollbackProtection (store : Store) : Store :=
  match store.cipher with
  | none => store
  | some _ =>
    let bare := (store.directory.remove .state).remove .statePrevious
    match store.directory.vault with
    | none => store.withDirectory bare
    | some vault =>
      { store with
        directory := bare.writeVault { vault with stateGeneration := none }
        binding := .unbound
        building := none
        program := bare.adoptGenerations }

end Store

/-- What is done with a store between two of its writes. -/
inductive Operation where
  | protection (action : Action)
  | appendHistoryLine (conversation : Conversation) (line : Text)
  | removeMessages (conversation : Conversation) (ids : List String)
  | migrateHistory (old new : UserId)
  | resetRollbackProtection
deriving DecidableEq

namespace Store

def whole (store after : Store) : Option Store :=
  match store.program with
  | [] => some after
  | _ :: _ => none

def operate (json : LineJson) (store : Store) : Operation → Option Store
  | .protection action => store.step action
  | .appendHistoryLine conversation line =>
    store.whole (store.appendHistoryLine conversation line).1
  | .removeMessages conversation ids => store.whole (store.removeMessages json conversation ids).1
  | .migrateHistory old new => store.whole (store.migrateHistory old new).1
  | .resetRollbackProtection => store.whole store.resetRollbackProtection

def unanchored (store : Store) : Bool :=
  store.directory.vault.any fun vault => vault.stateGeneration.isNone

def twinned (store : Store) : Bool :=
  store.directory.logs.all fun name =>
    match name with
    | .plain _ => true
    | .mac naming conversation =>
      store.directory.vault.bind Vault.naming = some naming &&
        (store.directory.read (.log (.plain conversation))).isSome

def adopting (store : Store) : Bool :=
  match store.program.getLast? with
  | some .raiseAnchor => store.unanchored
  | _ => false

def KeepsIndex (store : Store) : Operation → Prop
  | .protection .fail => False
  | .protection .crash => store.program.isEmpty || (store.adopting && store.twinned)
  | .resetRollbackProtection => store.twinned
  | _ => True

instance (store : Store) (operation : Operation) : Decidable (store.KeepsIndex operation) :=
  match operation with
  | .protection .fail => inferInstanceAs (Decidable False)
  | .protection .crash | .resetRollbackProtection => inferInstanceAs (Decidable (_ = true))
  | .protection (.change _) | .protection .unlock | .protection .write | .appendHistoryLine _ _
  | .removeMessages _ _ | .migrateHistory _ _ => inferInstanceAs (Decidable True)

end Store

end Silver.Client.Protection
