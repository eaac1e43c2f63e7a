import Silver.Foundation.Table
import Silver.Protocol.Bundle

/-!
# Deposits of one-time prekeys

A user leaves one-time prekeys with the relay, which hands each out once.  The relay keeps
the ids it handed out until the user's list no longer has them.  X25519 and ML-KEM keys are
kept the same way in tables of their own; every operation is one transaction.
-/

namespace Silver.Relay

open Foundation Protocol

/-- One user's keys on deposit, in the order of their ids, and the ids handed out. -/
structure Deposit (Key : Type) where
  held : List (Nat × Key)
  used : List Nat
deriving DecidableEq

namespace Deposit

def empty : Deposit Key :=
  ⟨[], []⟩

def add (deposit : Deposit Key) (entry : Nat × Key) : Deposit Key :=
  if entry.1 ∈ deposit.used ∨ entry.1 ∈ deposit.held.map Prod.fst then deposit
  else
    { deposit with held := deposit.held.orderedInsert (fun left right => left.1 ≤ right.1) entry }

def forget (deposit : Deposit Key) (listed : List Nat) : Deposit Key :=
  ⟨deposit.held.filter fun entry => entry.1 ∈ listed, deposit.used.filter (· ∈ listed)⟩

def replace (deposit : Deposit Key) (keys : List (Nat × Key)) : Deposit Key :=
  keys.foldl add (deposit.forget (keys.map Prod.fst))

def take (deposit : Deposit Key) : Option (Nat × Key) × Deposit Key :=
  match deposit.held with
  | [] => (none, deposit)
  | entry :: rest =>
    (some entry, ⟨rest, if entry.1 ∈ deposit.used then deposit.used
        else deposit.used.orderedInsert (· ≤ ·) entry.1⟩)

def status (deposit : Deposit Key) : Nat × List Nat :=
  (deposit.held.length, deposit.used)

end Deposit

def depositOf {Key : Type} (table : Table UserId (Deposit Key)) (user : UserId) : Deposit Key :=
  (table.get user).getD Deposit.empty

end Silver.Relay
