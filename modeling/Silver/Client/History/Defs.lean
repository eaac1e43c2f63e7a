import Silver.Foundation.Lines
import Silver.Protocol.Bundle

/-!
# Conversation logs

A log is a list of lines, each an entry or an update of entries.  Reading a
conversation takes the entries first and then applies the updates in order.
-/

namespace Silver.Client

open Foundation Protocol

/-- Whether a message was sent or received. -/
inductive Direction where
  | sent
  | received
deriving DecidableEq

/-- How far a message got on the recipient's side. -/
inductive ReceiptKind where
  | delivered
  | read
deriving DecidableEq

def ReceiptKind.lt : ReceiptKind → ReceiptKind → Bool
  | .delivered, .read => true
  | _, _ => false

/-- A conversation: with a contact, or in a group. -/
inductive Conversation where
  | contact (peer : UserId)
  | group (id : List UInt8)
deriving DecidableEq

/-- What a message says about a file. -/
structure FileInfo where
  name : String
  size : Nat
  blob : String
  key : Bytes 32
  chunks : Nat
  sha256 : Bytes 32
deriving DecidableEq

/-- One person's reaction to a message; nobody is oneself. -/
structure Reaction where
  sender : Option UserId
  emoji : String
deriving DecidableEq

/-- One message of a conversation, with what later lines say about it. -/
structure HistoryEntry where
  id : String
  direction : Direction
  timestampMs : Nat
  text : String
  receipt : Option ReceiptKind
  file : Option FileInfo
  saved : Option String
  sender : Option UserId
  note : Option Bool
  replyTo : Option String
  expireAfterS : Nat
  readAtMs : Option Nat
  edited : Bool
  previous : List String
  deleted : Bool
  reactions : List Reaction
deriving DecidableEq

/-- What one line of a log can be. -/
inductive HistoryLine where
  | entry (entry : HistoryEntry)
  | receipt (receipt : ReceiptKind) (ids : List String) (atMs : Nat)
  | text (update text : String) (saved : Option String)
  | read (ids : List String) (atMs : Nat)
  | edit (edit text editId : String) (atMs : Nat) (sender : Option UserId)
  | react (react : String) (sender : Option UserId) (emoji : String)
  | gone (gone : String) (sender : Option UserId)
deriving DecidableEq

/-- Whether a line is about a message. -/
def HistoryLine.names (line : HistoryLine) (id : String) : Bool :=
  match line with
  | .entry message => message.id == id
  | .receipt _ ids _ => ids.contains id
  | .text subject _ _ => subject == id
  | .read ids _ => ids.contains id
  | .edit subject _ _ _ _ => subject == id
  | .react subject _ _ => subject == id
  | .gone subject _ => subject == id

def authorOf (entry : HistoryEntry) (conversation : Conversation) : Option UserId :=
  entry.sender.or
    (match conversation, entry.direction with
      | .contact peer, .received => some peer
      | _, _ => none)

def changeLast (picks passes : α → Bool) (change : α → α) : List α → List α
  | [] => []
  | item :: items =>
    if items.any picks then item :: changeLast picks passes change items
    else if picks item && passes item then change item :: items
    else item :: items

def revise (entries : List HistoryEntry) (id : String) (change : HistoryEntry → HistoryEntry) :
    List HistoryEntry :=
  changeLast (fun entry => entry.id == id) (fun entry => !entry.deleted) change entries

/-- Apply one update to the entries. -/
def applyUpdate (conversation : Conversation) (entries : List HistoryEntry) :
    HistoryLine → List HistoryEntry
  | .entry _ => entries
  | .receipt receipt ids _ =>
    entries.map fun entry =>
      if ids.contains entry.id && entry.receipt.all fun before => before.lt receipt then
        { entry with receipt := some receipt }
      else entry
  | .text update text saved =>
    revise entries update fun entry => { entry with text, saved := saved.or entry.saved }
  | .read ids atMs =>
    entries.map fun entry =>
      if ids.contains entry.id && entry.readAtMs.isNone then { entry with readAtMs := some atMs }
      else entry
  | .edit edit text _ _ sender =>
    revise entries edit fun entry =>
      if authorOf entry conversation = sender then
        { entry with text, previous := entry.previous ++ [entry.text], edited := true }
      else entry
  | .react react sender emoji =>
    revise entries react fun entry =>
      let others := entry.reactions.filter fun reaction => reaction.sender ≠ sender
      { entry with reactions := if emoji.isEmpty then others else others ++ [⟨sender, emoji⟩] }
  | .gone gone sender =>
    entries.filter fun entry =>
      entry.id ≠ gone ∨ sender.any fun who => authorOf entry conversation ≠ some who

def HistoryLine.entry? : HistoryLine → Option HistoryEntry
  | .entry message => some message
  | _ => none

def entriesOf (conversation : Conversation) (lines : List HistoryLine) : List HistoryEntry :=
  let entries := lines.filterMap HistoryLine.entry?
  let updates := lines.filter fun line => line.entry?.isNone
  updates.foldl (applyUpdate conversation) entries

end Silver.Client
