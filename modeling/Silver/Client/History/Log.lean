import Silver.Foundation.Last
import Silver.Foundation.Run
import Silver.Client.History.Defs

/-!
# A protected conversation's log file

Each line is sealed under the file's name and the offset it stands at, and the
directory's record says how long the file was when it was last written.  The
cipher, the armour of its output and the JSON of a line are parameters; the
nonces are drawn one after another.
-/

namespace Silver.Client

open Foundation Protocol

def LINE_PREFIX : Text :=
  ['e', 'n', 'c', ':']

def fileAad (name : String) (place : Option Nat) : List UInt8 :=
  match place with
  | none => utf8 name
  | some offset => utf8 name ++ 0 :: beBytes 8 offset

/-- The cipher under the data key, and the armour of what it gives. -/
structure LineCipher (Ciphertext : Type) where
  encrypt : Nat → List UInt8 → Text → Ciphertext
  decrypt : List UInt8 → Ciphertext → Option Text
  toBase64 : Ciphertext → Text
  fromBase64 : Text → Option Ciphertext

/-- The JSON text of a line. -/
structure LineJson where
  toText : HistoryLine → Text
  fromText : Text → Option HistoryLine

namespace LineCipher

variable (cipher : LineCipher Ciphertext)

def encryptLineAt (draw : Nat) (name : String) (place : Option Nat) (line : Text) : Text :=
  LINE_PREFIX ++ cipher.toBase64 (cipher.encrypt draw (fileAad name place) line)

def decryptLineAt (name : String) (place : Option Nat) (line : Text) : Option Text :=
  if LINE_PREFIX.isPrefixOf line then
    (cipher.fromBase64 (trim (line.drop LINE_PREFIX.length))).bind
      (cipher.decrypt (fileAad name place))
  else none

def decodeLine (name : String) (offset : Nat) (line : Text) : Option Text :=
  if LINE_PREFIX.isPrefixOf line then
    (cipher.decryptLineAt name (some offset) line).or (cipher.decryptLineAt name none line)
  else some line

end LineCipher

/-- Why a log is not read. -/
inductive HistoryError where
  | reading (name : String)
  | shorter (name : String) (found recorded : Nat)
deriving DecidableEq

/-- A log file, the length recorded for it, how many nonces have been drawn, and
every line ever sealed for it with the offset it was sealed at. -/
structure Log (Ciphertext : Type) where
  file : Option ByteArray
  recorded : Option Nat
  drawn : Nat
  wrote : List (Nat × Text × Ciphertext)

/-- What a deletion for everyone did. -/
inductive Deletion where
  | applied
  | tombstoned
  | refused
deriving DecidableEq

def Log.empty : Log Ciphertext :=
  { file := none, recorded := none, drawn := 0, wrote := [] }

/-- A change to a log. -/
inductive LogOperation where
  | appendHistoryLine (json : Text)
  | removeMessages (ids : List String)
  | markAllDeleted (ids : List String) (sender : Option UserId)
deriving DecidableEq

def MAX_FILE : Nat := 2 ^ 64

namespace Log

section Reading

variable (cipher : LineCipher Ciphertext) (json : LineJson) (name : String)

def parseLine (entry : Nat × Text) : Except Text HistoryLine :=
  match (cipher.decodeLine name entry.1 entry.2).bind json.fromText with
  | some line => .ok line
  | none => .error entry.2

def readText (file : ByteArray) (recorded : Option Nat) : Except HistoryError Text :=
  match decodeUtf8 file with
  | none => .error (.reading name)
  | some text =>
    match recorded with
    | some length =>
      if file.size < length then .error (.shorter name file.size length) else .ok text
    | none => .ok text

def readHistoryLines (log : Log Ciphertext) : Except HistoryError (List (Except Text HistoryLine)) :=
  match log.file with
  | none => .ok []
  | some file =>
    (readText name file log.recorded).map fun text =>
      (linesWithOffsets text).map (parseLine cipher json name)

def loadHistory (conversation : Conversation) (log : Log Ciphertext) :
    Except HistoryError (List HistoryEntry) :=
  (readHistoryLines cipher json name log).map fun lines =>
    entriesOf conversation (lines.filterMap Except.toOption)

end Reading

section Writing

variable (cipher : LineCipher Ciphertext) (json : LineJson) (name : String)

def endsWithNewline (file : ByteArray) : Bool :=
  file.data.back?.all fun byte => byte == 10

def sealLine (log : Log Ciphertext) (offset : Nat) (text : Text) : Text × Log Ciphertext :=
  (cipher.encryptLineAt log.drawn name (some offset) text,
    { log with
      drawn := log.drawn + 1
      wrote := log.wrote ++
        [(offset, text, cipher.encrypt log.drawn (fileAad name (some offset)) text)] })

def noteHistoryWrite (log : Log Ciphertext) (file : ByteArray) : Log Ciphertext :=
  { log with file := some file, recorded := some file.size }

def appendHistoryLine (text : Text) (log : Log Ciphertext) : Log Ciphertext :=
  let file := log.file.getD ByteArray.empty
  let broken := !endsWithNewline file
  let offset := if broken then file.size + 1 else file.size
  let encoded := sealLine cipher name log offset text
  let line := encoded.1 ++ ['\n']
  let line := if broken then '\n' :: line else line
  encoded.2.noteHistoryWrite (file ++ encodeUtf8 line)

def writeLine (written : Text × Log Ciphertext) (line : Except Text HistoryLine) :
    Text × Log Ciphertext :=
  match line with
  | .ok parsed =>
    let encoded := sealLine cipher name written.2 (byteSize written.1) (json.toText parsed)
    (written.1 ++ encoded.1 ++ ['\n'], encoded.2)
  | .error raw => (written.1 ++ raw ++ ['\n'], written.2)

def writeHistoryLines (lines : List (Except Text HistoryLine)) (log : Log Ciphertext) :
    Log Ciphertext :=
  let written := lines.foldl (writeLine cipher json name) ([], log)
  written.2.noteHistoryWrite (encodeUtf8 written.1)

/-- A line without what it says about removed messages. -/
def withoutMessages (ids : List String) : Except Text HistoryLine → Option (Except Text HistoryLine)
  | .ok (.receipt receipt named atMs) =>
    let kept := named.filter fun id => !ids.contains id
    if kept.isEmpty then none else some (.ok (.receipt receipt kept atMs))
  | .ok (.read named atMs) =>
    let kept := named.filter fun id => !ids.contains id
    if kept.isEmpty then none else some (.ok (.read kept atMs))
  | .ok parsed => if ids.any fun id => parsed.names id then none else some (.ok parsed)
  | .error raw => some (.error raw)

/-- Remove messages from the file for good, leaving a tombstone for each. -/
def removeMessages (conversation : Conversation) (ids : List String) (log : Log Ciphertext) :
    Except HistoryError (List HistoryEntry × Log Ciphertext) :=
  match log.file with
  | none => .ok ([], log)
  | some _ => do
      let before ← loadHistory cipher json name conversation log
      let lines ← readHistoryLines cipher json name log
      let tombstones := ids.map fun id => Except.ok (HistoryLine.gone id none)
      let lines := lines.filterMap (withoutMessages ids) ++ tombstones
      .ok (before.filter fun entry => ids.contains entry.id,
        writeHistoryLines cipher json name lines log)

def heldAuthor (conversation : Conversation) (lines : List (Except Text HistoryLine)) (id : String) :
    Option (Option UserId) :=
  lastSome (fun line =>
    match line with
    | Except.ok (HistoryLine.entry message) =>
      if message.id = id then some (authorOf message conversation) else none
    | _ => none) lines

def deletionOf (conversation : Conversation) (lines : List (Except Text HistoryLine))
    (sender : Option UserId) (id : String) : Deletion :=
  match heldAuthor conversation lines id with
  | some author => if author ≠ sender then .refused else .applied
  | none => .tombstoned

/-- A line once messages have been deleted for everyone. -/
def afterDeletion (going : List String) : Except Text HistoryLine → Option (Except Text HistoryLine)
  | .ok (.entry message) =>
    if going.contains message.id then
      some (.ok (.entry
        { message with
          text := ""
          file := none
          saved := none
          replyTo := none
          edited := false
          previous := []
          reactions := []
          deleted := true }))
    else some (.ok (.entry message))
  | .ok (.edit edit text editId atMs sender) =>
    if going.contains edit then none else some (.ok (.edit edit text editId atMs sender))
  | .ok (.react react sender emoji) =>
    if going.contains react then none else some (.ok (.react react sender emoji))
  | .ok (.text update text saved) =>
    if going.contains update then none else some (.ok (.text update text saved))
  | other => some other

/-- Delete messages for everyone, where they were written by the one deleting. -/
def markAllDeleted (conversation : Conversation) (ids : List String) (sender : Option UserId)
    (log : Log Ciphertext) : Except HistoryError (List Deletion × Log Ciphertext) := do
  let lines ← readHistoryLines cipher json name log
  let outcome := ids.map (deletionOf conversation lines sender)
  let going := ids.filter fun id => deletionOf conversation lines sender id = .applied
  if going.isEmpty then .ok (outcome, log)
  else
    let lines := lines.filterMap (afterDeletion going)
    .ok (outcome, writeHistoryLines cipher json name lines log)

/-- The log after a change; one that fails leaves it as it was. -/
def apply (conversation : Conversation) (log : Log Ciphertext) : LogOperation → Log Ciphertext
  | .appendHistoryLine text => appendHistoryLine cipher name text log
  | .removeMessages ids =>
    match removeMessages cipher json name conversation ids log with
    | .ok (_, after) => after
    | .error _ => log
  | .markAllDeleted ids sender =>
    match markAllDeleted cipher json name conversation ids sender log with
    | .ok (_, after) => after
    | .error _ => log

def step (conversation : Conversation) (log : Log Ciphertext) (operation : LogOperation) :
    Option (Log Ciphertext) :=
  let after := apply cipher json name conversation log operation
  if after.file.all fun file => file.size < MAX_FILE then some after else none

end Writing

end Log

end Silver.Client
