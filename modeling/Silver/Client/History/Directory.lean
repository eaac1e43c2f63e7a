import Silver.Client.History.Changes
import Silver.Client.Store.Crash

/-!
# The conversation logs of a directory in use

A change writes a log first and the length recorded for it after, one
file-system step at a time.  An append may be cut anywhere in its line, a rewrite
is put in place whole, and the program may stop between any two steps.
-/

namespace Silver.Client

open Foundation Protocol

/-- How a protected directory names its logs: the file of a conversation, the text
that stands for it in the record, and what such a text or a file name stands for. -/
structure HistoryNames where
  file : Conversation → String
  id : Conversation → String
  parseId : String → Option Conversation
  conversationOfFile : String → Option Conversation

/-- No two conversations share a file, and a recorded conversation is found again. -/
structure HistoryNames.Sound (names : HistoryNames) : Prop where
  file_injective : ∀ {left right}, names.file left = names.file right → left = right
  parseId_id : ∀ conversation, names.parseId (names.id conversation) = some conversation

/-- A step of the program on the logs.  `cutAppend` is an append the program stops
in, with so many bytes of its line written; `persist` is the next file-system step
of recording. -/
inductive HistoryAction where
  | unlock
  | appendHistoryLine (conversation : Conversation) (line : HistoryLine)
  | cutAppend (conversation : Conversation) (line : HistoryLine) (kept : Nat)
  | removeMessages (conversation : Conversation) (ids : List String)
  | markAllDeleted (conversation : Conversation) (ids : List String) (sender : Option UserId)
  | persist
  | crash

/-- Why a conversation is not loaded. -/
inductive HistoryFailure where
  | refused (refusal : Refusal)
  | history (error : HistoryError)
deriving DecidableEq

/-- A directory with its logs, how many nonces have been drawn, and the
conversation whose log has been written and not recorded yet. -/
structure HistoryDirectory where
  machine : Machine
  logs : Table Conversation ByteArray
  drawn : Nat
  writing : Option Conversation

namespace Generations

def refusal : Generations → Option Refusal
  | .unreadable trouble => some (.unreadable trouble)
  | _ => none

def historyState (generations : Generations) (file : String) : Option HistoryState :=
  match generations with
  | .bound state => state.history.get file
  | _ => none

end Generations

def Disk.standing (disk : Disk) : Option State :=
  disk.stateGeneration.bind fun anchor => (disk.readGenerations anchor).toOption

namespace HistoryDirectory

section Steps

variable (cipher : LineCipher Ciphertext) (json : LineJson) (names : HistoryNames)

def log (directory : HistoryDirectory) (generations : Generations) (conversation : Conversation) :
    Log Ciphertext :=
  { file := directory.logs.get conversation
    recorded := (generations.historyState (names.file conversation)).map HistoryState.bytes
    drawn := directory.drawn
    wrote := [] }

/-- Load a conversation from an unlocked directory. -/
def loadHistory (directory : HistoryDirectory) (conversation : Conversation) :
    Option (Except HistoryFailure (List HistoryEntry)) :=
  match directory.machine.phase with
  | .unlocked generations =>
    match directory.logs.get conversation, generations.refusal with
    | some _, some why => some (.error (.refused why))
    | _, _ =>
      some ((Log.loadHistory cipher json (names.file conversation) conversation
        (directory.log names generations conversation)).mapError .history)
  | _ => none

def settle (directory : HistoryDirectory) (machine : Machine) : HistoryDirectory :=
  { directory with
    machine
    writing :=
      match machine.phase with
      | .closed | .unlocked _ => none
      | _ => directory.writing }

def noteHistoryWrite (directory : HistoryDirectory) (generations : Generations)
    (conversation named : Conversation) (file : ByteArray) (drawn : Nat) : HistoryDirectory :=
  { machine := Machine.noteHistoryWrite directory.machine.disk generations
      (names.file conversation) (names.id named) file.size
    logs := directory.logs.insert conversation file
    drawn
    writing := some conversation }

def appendHistoryLine (directory : HistoryDirectory) (generations : Generations)
    (conversation : Conversation) (line : HistoryLine) : HistoryDirectory :=
  if generations.refusal.isSome then directory
  else
    let after := Log.appendHistoryLine cipher (names.file conversation) (json.toText line)
      (directory.log names generations conversation)
    directory.noteHistoryWrite names generations conversation conversation
      (after.file.getD ByteArray.empty) after.drawn

/-- Start adding a line, and stop before it is all there or before it is recorded. -/
def cutAppend (directory : HistoryDirectory) (generations : Generations)
    (conversation : Conversation) (line : HistoryLine) (kept : Nat) : HistoryDirectory :=
  let log : Log Ciphertext := directory.log names generations conversation
  let appended := Log.appendedText cipher (names.file conversation) (json.toText line) log
  { machine := { directory.machine with phase := .closed }
    logs := directory.logs.insert conversation
      (log.file.getD ByteArray.empty ++ (encodeUtf8 appended).extract 0 kept)
    drawn := directory.drawn + 1
    writing := none }

def conversationFor (generations : Generations) (file : String) : Option Conversation :=
  ((generations.historyState file).bind fun held => names.parseId held.conversation).or
    (names.conversationOfFile file)

/-- Rewrite a conversation's log. -/
def rewrite (directory : HistoryDirectory) (generations : Generations)
    (conversation : Conversation) (operation : LogOperation) : HistoryDirectory :=
  if generations.refusal.isSome then directory
  else
    match Log.rewritten cipher json (names.file conversation) conversation
      (directory.log names generations conversation) operation with
    | none => directory
    | some after =>
      let file := after.file.getD ByteArray.empty
      match conversationFor names generations (names.file conversation) with
      | none =>
        { directory with logs := directory.logs.insert conversation file, drawn := after.drawn }
      | some named =>
        directory.noteHistoryWrite names generations conversation named file after.drawn

/-- One step, or `none` where the program does not take it. -/
def step (directory : HistoryDirectory) (action : HistoryAction) : Option HistoryDirectory :=
  match action, directory.machine.phase with
  | .unlock, _ => (directory.machine.step .unlock).map directory.settle
  | .persist, _ => (directory.machine.step .persist).map directory.settle
  | .crash, _ => (directory.machine.step .crash).map directory.settle
  | .appendHistoryLine conversation line, .unlocked generations =>
    some (directory.appendHistoryLine cipher json names generations conversation line)
  | .cutAppend conversation line kept, .unlocked generations =>
    if generations.refusal.isSome then none
    else some (directory.cutAppend cipher json names generations conversation line kept)
  | .removeMessages conversation ids, .unlocked generations =>
    some (directory.rewrite cipher json names generations conversation (.removeMessages ids))
  | .markAllDeleted conversation ids sender, .unlocked generations =>
    some (directory.rewrite cipher json names generations conversation (.markAllDeleted ids sender))
  | _, _ => none

end Steps

end HistoryDirectory

end Silver.Client
