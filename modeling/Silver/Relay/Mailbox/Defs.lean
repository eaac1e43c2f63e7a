import Silver.Foundation.Run
import Silver.Foundation.Table
import Silver.Protocol.Bundle

/-!
# Mailboxes

The relay keeps an envelope for its recipient until it is acknowledged or too old.  Rows
are keyed by owner and position; a second table says where each message id sits, whoever's
mailbox that is, so that a resend is not stored twice.  Every operation is one
transaction.
-/

namespace Silver.Relay.Mailbox

open Foundation Protocol

/-- What the relay sees: an opaque blob addressed to a recipient. -/
structure Envelope where
  id : String
  recipient : UserId
  ephemeralPublic : DhPublic
  nonce : Bytes 24
  ciphertext : List UInt8
deriving DecidableEq

/-- A row of the mailbox table: where it sits, when it came in, the envelope and the
length of the value stored. -/
structure Row where
  owner : UserId
  seq : Nat
  receivedAt : Nat
  envelope : Envelope
  size : Nat
deriving DecidableEq

/-- How much the relay holds; zero is no cap. -/
structure Limits where
  maxMessages : Nat
  maxBytes : Nat
  maxTotalBytes : Nat
deriving DecidableEq

def Limits.default : Limits :=
  ⟨1000, 32 * 1024 * 1024, 4 * 1024 * 1024 * 1024⟩

/-- Outcome of storing an envelope. -/
inductive Enqueue where
  | stored
  | duplicate
  | mailboxFull
  | storageFull
deriving DecidableEq

/-- The tables the mailboxes are kept in: rows, where each id sits, messages and bytes of
each owner, the next position, and all bytes queued. -/
structure Store where
  mailbox : List Row
  byId : Table String (UserId × Nat)
  usage : Table UserId (Nat × Nat)
  nextSeq : Nat
  mailboxBytes : Nat

def Store.empty : Store :=
  ⟨[], Table.empty, Table.empty, 0, 0⟩

def U64_MAX : Nat := 2 ^ 64 - 1

def saturatingAdd (first second : Nat) : Nat :=
  min (first + second) U64_MAX

def checkedAdd (first second : Nat) : Option Nat :=
  if first + second ≤ U64_MAX then some (first + second) else none

theorem checkedAdd_eq {first : Nat} (added : checkedAdd first second = some sum) :
    sum = first + second ∧ first + second ≤ U64_MAX := by
  unfold checkedAdd at added
  split at added
  next fits => exact ⟨(Option.some.inj added).symm, fits⟩
  · cases added

namespace Store

def used (store : Store) (user : UserId) : Nat × Nat :=
  (store.usage.get user).getD (0, 0)

def row (store : Store) (owner : UserId) (seq : Nat) : Option Row :=
  store.mailbox.find? fun row => row.owner = owner && row.seq = seq

def without (store : Store) (owner : UserId) (seq : Nat) : List Row :=
  store.mailbox.filter fun row => !(row.owner = owner && row.seq = seq)

/-- Queue an envelope for its recipient, under the next position. -/
def insert (store : Store) (envelope : Envelope) (size nowMs : Nat) : Option Store := do
  let (count, bytes) := store.used envelope.recipient
  let nextSeq ← checkedAdd store.nextSeq 1
  let mailboxBytes ← checkedAdd store.mailboxBytes size
  let messages ← checkedAdd count 1
  let held ← checkedAdd bytes size
  some
    { mailbox := store.mailbox ++ [⟨envelope.recipient, store.nextSeq, nowMs, envelope, size⟩]
      byId := store.byId.insert envelope.id (envelope.recipient, store.nextSeq)
      usage := store.usage.insert envelope.recipient (messages, held)
      nextSeq
      mailboxBytes }

/-- Queue an envelope for its recipient, if its id is not queued and there is room. The
value stored is the time in eight bytes and the envelope as `encoded` long. -/
def enqueue (encoded : Envelope → Nat) (store : Store) (envelope : Envelope) (nowMs : Nat)
    (limits : Limits) : Option (Enqueue × Store) :=
  let size := 8 + encoded envelope
  if (store.byId.get envelope.id).isSome then some (.duplicate, store)
  else
    let (count, bytes) := store.used envelope.recipient
    let overCount := 0 < limits.maxMessages ∧ limits.maxMessages ≤ count
    let overBytes := 0 < limits.maxBytes ∧ limits.maxBytes < saturatingAdd bytes size
    if overCount ∨ overBytes then some (.mailboxFull, store)
    else if 0 < limits.maxTotalBytes ∧
        limits.maxTotalBytes < saturatingAdd store.mailboxBytes size then
      some (.storageFull, store)
    else (store.insert envelope size nowMs).map fun after => (.stored, after)

def adjustUsage (usage : Table UserId (Nat × Nat)) (owner : UserId)
    (fewerMessages fewerBytes : Nat) : Table UserId (Nat × Nat) :=
  let (count, bytes) := (usage.get owner).getD (0, 0)
  if count - fewerMessages = 0 then usage.remove owner
  else usage.insert owner (count - fewerMessages, bytes - fewerBytes)

/-- Drop an envelope from a user's mailbox, if the id is that user's mail. -/
def ack (store : Store) (user : UserId) (id : String) : Bool × Store :=
  match store.byId.get id with
  | none => (false, store)
  | some (owner, seq) =>
    if owner = user then
      let size := ((store.row owner seq).map Row.size).getD 0
      (true,
        { store with
          mailbox := store.without owner seq
          byId := store.byId.remove id
          usage := adjustUsage store.usage owner 1 size
          mailboxBytes := store.mailboxBytes - size })
    else (false, store)

/-- Remove one row that is too old, and its index while that still points there. -/
def expireRow (store : Store) (victim : Row) : Store :=
  match store.row victim.owner victim.seq with
  | none => store
  | some gone =>
    { store with
      mailbox := store.without victim.owner victim.seq
      byId := if store.byId.get victim.envelope.id = some (victim.owner, victim.seq) then
          store.byId.remove victim.envelope.id
        else store.byId
      usage := adjustUsage store.usage victim.owner 1 gone.size
      mailboxBytes := store.mailboxBytes - gone.size }

def expire (store : Store) (cutoffMs : Nat) : Store :=
  (store.mailbox.filter fun row => row.receivedAt < cutoffMs).foldl expireRow store

def removeRow (store : Store) (victim : Row) : Store :=
  { store with
    mailbox := store.without victim.owner victim.seq
    byId := store.byId.remove victim.envelope.id }

def removeUserData (store : Store) (user : UserId) : Store :=
  let entries := store.mailbox.filter fun row => row.owner = user
  let emptied := entries.foldl removeRow store
  { emptied with
    usage := emptied.usage.remove user
    mailboxBytes := emptied.mailboxBytes - (entries.map Row.size).sum }

end Store

/-- What is done to the store.  Removing a user and cutting one off are the same to the
mailboxes. -/
inductive Operation where
  | enqueue (envelope : Envelope) (nowMs : Nat) (limits : Limits)
  | ack (user : UserId) (id : String)
  | expire (cutoffMs : Nat)
  | removeUser (user : UserId)
  | cutOff (user : UserId)
deriving DecidableEq

def Store.step (encoded : Envelope → Nat) (store : Store) : Operation → Option Store
  | .enqueue envelope nowMs limits => (store.enqueue encoded envelope nowMs limits).map Prod.snd
  | .ack user id => some (store.ack user id).2
  | .expire cutoffMs => some (store.expire cutoffMs)
  | .removeUser user => some (store.removeUserData user)
  | .cutOff user => some (store.removeUserData user)

end Silver.Relay.Mailbox
