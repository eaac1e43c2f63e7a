import Silver.Client.History.Defs
import Silver.Client.Store.Defs

/-!
# A protected directory and the keys its files are under

A file is in the clear or sealed under a data key and bound to its name; a
conversation log is a list of such lines.  Keys stand for themselves: what is
sealed under one opens under that one alone, and a log's name under protection is
told by the naming key and the conversation and by nothing else.
-/

namespace Silver.Client.Protection

open Foundation

abbrev Key : Type :=
  Nat

/-- What a conversation log is called: the conversation in the clear, or a MAC of
it under the naming key. -/
inductive LogName where
  | plain (conversation : Conversation)
  | mac (naming : Key) (conversation : Conversation)
deriving DecidableEq

/-- The files of the directory beside the vault. -/
inductive Item where
  | file (name : FileName)
  | state
  | statePrevious
  | download (name : String)
  | log (name : LogName)
deriving DecidableEq

/-- What is recorded of a log. -/
structure LogState where
  conversation : Conversation
  bytes : Nat
deriving DecidableEq

/-- The record of what the directory last wrote; `history` is the index of the
conversations as well. -/
structure Record where
  generation : Nat
  files : Table FileName Nat
  history : AList fun _ : LogName => LogState
  covers : Nat

namespace Record

def first : Record :=
  { generation := Disk.FIRST, files := Table.empty, history := ∅, covers := COVERS_LOG_AND_OUTBOX }

def wrote (record : Record) (name : FileName) (generation : Nat) : Record :=
  { record with files := record.files.insert name generation }

def wroteHistory (record : Record) (name : LogName) (conversation : Conversation) (bytes : Nat) :
    Record :=
  { record with history := record.history.insert name ⟨conversation, bytes⟩ }

def removedHistory (record : Record) (name : LogName) : Record :=
  { record with history := record.history.erase name }

def accepts (record : Record) (name : FileName) (generation : Nat) : Bool :=
  record.files.get name == some generation || generation == record.generation + 1

def conversations (record : Record) : List Conversation :=
  record.history.entries.map fun entry => entry.2.conversation

end Record

/-- What a file or a line says once it is open. -/
inductive Payload where
  | bytes (generation : Option Nat) (data : List UInt8)
  | record (record : Record)
  | text (text : Text)

namespace Payload

def bare : Payload → Payload
  | .bytes _ data => .bytes none data
  | other => other

def text? : Payload → Option Text
  | .text line => some line
  | _ => none

end Payload

/-- A whole file, or a line of a log: in the clear, sealed and bound to where it
belongs, or a sealed line cut short. -/
inductive Cell where
  | plain (payload : Payload)
  | sealed (key : Key) (bound : Item) (payload : Payload)
  | torn (size : Nat)

/-- The unlocked data key, the one before it while a rotation is under way, and the
key names are made with. -/
structure Cipher where
  key : Key
  previous : Option Key
  naming : Key
deriving DecidableEq

namespace Cipher

def opensKey (cipher : Cipher) (key : Key) : Bool :=
  key == cipher.key || cipher.previous == some key

def rotating (cipher : Cipher) (fresh : Key) : Cipher :=
  { key := fresh, previous := some cipher.key, naming := cipher.naming }

def settled (cipher : Cipher) : Cipher :=
  { cipher with previous := none }

end Cipher

def sealedSize (bytes : Nat) : Nat :=
  4 + 4 * ((bytes + 40 + 2) / 3) + 1

namespace Cell

def opens (source : Option Cipher) (item : Item) : Cell → Option Payload
  | .plain payload => some payload
  | .sealed key bound payload =>
    source.bind fun cipher =>
      if cipher.opensKey key && bound == item then some payload else none
  | .torn _ => none

def encode (target : Option Cipher) (item : Item) (payload : Payload) : Cell :=
  match target with
  | none => .plain payload.bare
  | some cipher => .sealed cipher.key item payload

def size : Cell → Nat
  | .plain (.text text) => byteSize text + 1
  | .sealed _ _ (.text text) => sealedSize (byteSize text)
  | .torn size => size + 1
  | _ => 0

def isPlain : Cell → Bool
  | .plain _ => true
  | _ => false

end Cell

/-- How the directory is protected. -/
inductive Kind where
  | passphrase
  | keystore
  | securityKey
deriving DecidableEq

/-- What `vault.json` holds: the data key, the one before it, the naming key and the
generation the record is at.  A vault from before names were made with a key has
none. -/
structure Vault where
  kind : Kind
  key : Key
  previous : Option Key
  naming : Option Key
  stateGeneration : Option Nat
deriving DecidableEq

def Vault.wraps (vault : Vault) (key : Key) : Prop :=
  key = vault.key ∨ vault.previous = some key

def Cipher.wrap (cipher : Cipher) (kind : Kind) (stateGeneration : Option Nat) : Vault :=
  { kind
    key := cipher.key
    previous := cipher.previous
    naming := some cipher.naming
    stateGeneration }

def Vault.unwrap (vault : Vault) (fresh : Key) : Cipher :=
  { key := vault.key, previous := vault.previous, naming := vault.naming.getD fresh }

abbrev Contents : Type :=
  AList fun _ : Item => List Cell

/-- The data directory. -/
structure Directory where
  vault : Option Vault
  contents : Contents

/-- Where the directory stands with respect to rollback binding. -/
inductive Binding where
  | unbound
  | bound (record : Record)
  | unreadable

namespace Binding

def record : Binding → Option Record
  | .bound record => some record
  | _ => none

end Binding

namespace Directory

def read (directory : Directory) (item : Item) : Option (List Cell) :=
  directory.contents.lookup item

def write (directory : Directory) (item : Item) (cells : List Cell) : Directory :=
  { directory with contents := directory.contents.insert item cells }

def remove (directory : Directory) (item : Item) : Directory :=
  { directory with contents := directory.contents.erase item }

def writeVault (directory : Directory) (vault : Vault) : Directory :=
  { directory with vault := some vault }

def logs (directory : Directory) : List LogName :=
  directory.contents.keys.filterMap fun item =>
    match item with
    | .log name => some name
    | _ => none

def downloads (directory : Directory) : List String :=
  directory.contents.keys.filterMap fun item =>
    match item with
    | .download name => some name
    | _ => none

def anyPlain (directory : Directory) : Bool :=
  (recryptedFiles.any fun name =>
    (directory.read (.file name)).any fun cells => cells.head?.any Cell.isPlain) ||
  directory.logs.any fun name =>
    (directory.read (.log name)).any fun cells => cells.head?.any Cell.isPlain

def readRecord (directory : Directory) (cipher : Cipher) (item : Item) : Option Record :=
  match directory.read item with
  | some [.sealed key bound (.record record)] =>
    if cipher.opensKey key && bound == .state then some record else none
  | _ => none

def readGenerations (directory : Directory) (cipher : Cipher) (anchor : Nat) : Binding :=
  let vouched := fun item => (directory.readRecord cipher item).filter fun record =>
    record.generation == anchor || record.generation == anchor + 1
  match (vouched .state).or (vouched .statePrevious) with
  | some record => .bound record
  | none => .unreadable

end Directory

/-- Why something is not read. -/
inductive ReadError where
  | locked
  | unreadable
  | undecryptable (item : Item)
  | replaced (name : FileName) (found : Option Nat)
  | shorter (name : LogName) (found recorded : Nat)
deriving DecidableEq

end Silver.Client.Protection
