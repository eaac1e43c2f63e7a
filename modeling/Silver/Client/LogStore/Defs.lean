import Silver.Foundation.Table
import Silver.Protocol.Wire

/-!
# What a client keeps of the relay's log

The client replays the log page by page and keeps the head, a set of checkpoints
and, for every subject, where it last appears.  Against that it checks the
answers to lookups and the heads its contacts report.
-/

namespace Silver.Client

open Foundation Protocol

def DENSE : Nat :=
  4096

def SPARSE : Nat :=
  256

def BREAKS_KEPT : Nat :=
  8

/-- The evidence of one time the relay's log contradicted the replay. -/
structure Break (Hash : Type) where
  atMs : Nat
  rewound : Bool
  ours : LogHead Hash
  theirs : LogHead Hash
  checkpoints : List (LogHead Hash)
deriving DecidableEq

/-- Where a subject last appears in the replayed log. -/
structure Latest (Hash : Type) where
  last : LogPosition Hash
  kind : Option EntryKind
  bundle : Option (LogPosition Hash)
  revocation : Option (LogPosition Hash)
  succession : Option (LogPosition Hash)
deriving DecidableEq

/-- What this client knows about the relay's log.  A checkpoint is the head the
log had at its index. -/
structure LogStore (Hash : Type) where
  head : LogHead Hash
  breaks : List (Break Hash)
  checkpoints : List (LogHead Hash)
  latest : Table Hash (Latest Hash)
  verifiedAtMs : Nat

/-- Something a lookup showed that the log does not bear out. -/
inductive Discrepancy where
  | unloggedBundle
  | notLatestBundle (logged : Nat)
  | claimMismatch (claimed seen : Nat)
  | withheldRevocation (logged : Nat)
  | withheldSuccession (logged : Nat)
  | unloggedStatement
deriving DecidableEq

/-- The text a discrepancy is reported with. -/
def Discrepancy.text : Discrepancy → String
  | .unloggedBundle => "the relay showed a key for them that its log does not contain"
  | .notLatestBundle logged =>
    s!"the relay showed a key for them that is not the latest in its log (entry {logged})"
  | .claimMismatch claimed seen =>
    s!"the relay's claim about its log (entry {claimed}) does not match the log it showed (entry {seen})"
  | .withheldRevocation logged =>
    s!"the relay is hiding a revocation of their identity (log entry {logged})"
  | .withheldSuccession logged =>
    s!"the relay is hiding a handover of their identity (log entry {logged})"
  | .unloggedStatement => "the relay showed a statement about them that is not the one in its log"

/-- How a contact's head compares with the replayed chain. -/
inductive HeadCheck (Hash : Type) where
  | consistent
  | fork (position : Nat)
  | needEntries (start finish : LogHead Hash)
  | ahead
deriving DecidableEq

namespace Latest

def default (sha256 : Sha256 Hash) : Latest Hash :=
  { last := ⟨0, sha256.zero⟩, kind := none, bundle := none, revocation := none, succession := none }

def note (latest : Latest Hash) (entry : LogEntry Hash) : Latest Hash :=
  let noted := { latest with last := entry.position, kind := some entry.kind }
  match entry.kind with
  | .bundle => { noted with bundle := some entry.position }
  | .revocation => { noted with revocation := some entry.position }
  | .succession => { noted with succession := some entry.position }

end Latest

namespace LogStore

variable [DecidableEq Hash] (sha256 : Sha256 Hash)

def empty (breaks : List (Break Hash)) : LogStore Hash :=
  { head := LogHead.EMPTY sha256
    breaks := breaks
    checkpoints := []
    latest := Table.empty
    verifiedAtMs := 0 }

def latestFor (store : LogStore Hash) (user : UserId) : Option (Latest Hash) :=
  store.latest.get (subject sha256 user)

def kept (length : Nat) (checkpoint : LogHead Hash) : Bool :=
  decide (length - DENSE < checkpoint.index) || decide (checkpoint.index % SPARSE = 0)

def noteCheckpoint (checkpoints : List (LogHead Hash)) (head : LogHead Hash) :
    List (LogHead Hash) :=
  (checkpoints ++ [head]).filter (kept head.index)

def checkPage : LogHead Hash → List (LogEntry Hash) → Except ReplayError (LogHead Hash)
  | head, [] => .ok head
  | head, entry :: rest =>
    if entry.follows head then checkPage (entry.head sha256) rest
    else .error (.broken head.index entry.index)

def noteEntry (store : LogStore Hash) (entry : LogEntry Hash) : LogStore Hash :=
  { store with
    latest := store.latest.insert entry.subject
      (((store.latest.get entry.subject).getD (Latest.default sha256)).note entry)
    checkpoints := noteCheckpoint store.checkpoints (entry.head sha256) }

def apply (store : LogStore Hash) (entries : List (LogEntry Hash)) (nowMs : Nat) :
    Except ReplayError (LogStore Hash) :=
  match checkPage sha256 store.head entries with
  | .error error => .error error
  | .ok head =>
    .ok { entries.foldl (noteEntry sha256) store with head := head, verifiedAtMs := nowMs }

def confirm (store : LogStore Hash) (nowMs : Nat) : LogStore Hash :=
  { store with verifiedAtMs := nowMs }

/-- Start the replay again, keeping what disagreed with the relay's chain. -/
def reset (store : LogStore Hash) (rewound : Bool) (theirs : LogHead Hash) (nowMs : Nat) :
    LogStore Hash :=
  let evidence : Break Hash :=
    { atMs := nowMs
      rewound := rewound
      ours := store.head
      theirs := theirs
      checkpoints := store.checkpoints }
  let breaks := store.breaks ++ [evidence]
  empty sha256 (breaks.drop (breaks.length - BREAKS_KEPT))

def hashAt (store : LogStore Hash) (index : Nat) : Option Hash :=
  if index = 0 then some (LogHead.EMPTY sha256).hash
  else if index = store.head.index then some store.head.hash
  else (store.checkpoints.find? fun checkpoint => checkpoint.index = index).map LogHead.hash

def canCheck (store : LogStore Hash) (index : Nat) : Bool :=
  decide (index = 0) || decide (index = store.head.index) || (store.hashAt sha256 index).isSome

def checkpointBelow (store : LogStore Hash) (index : Nat) : LogHead Hash :=
  ((store.checkpoints.takeWhile fun checkpoint => checkpoint.index ≤ index).getLast?).getD
    (LogHead.EMPTY sha256)

def checkpointAbove (store : LogStore Hash) (index : Nat) : LogHead Hash :=
  (((store.checkpoints.dropWhile fun checkpoint => checkpoint.index < index).head?).filter
      fun checkpoint => checkpoint.index ≤ store.head.index).getD store.head

def checkPeerHead (store : LogStore Hash) (head : LogHead Hash) : HeadCheck Hash :=
  if store.head.index < head.index then .ahead
  else
    match store.hashAt sha256 head.index with
    | some hash => if hash = head.hash then .consistent else .fork head.index
    | none =>
      .needEntries (store.checkpointBelow sha256 head.index) (store.checkpointAbove head.index)

def revocationIsDeviceStatement (signatures : Signatures) (store : LogStore Hash)
    (user : UserId) (served : List DeviceRevocation) : Bool :=
  match (store.latestFor sha256 user).bind Latest.revocation with
  | none => false
  | some logged =>
    served.any fun revocation =>
      decide (revocation.device = user) && revocation.verify signatures &&
        decide (revocation.transparencyLeaf sha256 = logged.leaf)

def checkClaim (latest : Option (Latest Hash)) (claimed : Option (LogPosition Hash)) :
    Except Discrepancy Unit :=
  match claimed with
  | none => .ok ()
  | some claimed =>
    let seen := (latest.map Latest.last).getD ⟨0, sha256.zero⟩
    if claimed = seen then .ok () else .error (.claimMismatch claimed.index seen.index)

def checkBundle (latest : Option (Latest Hash)) (bundle : KeyBundle) : Except Discrepancy Unit :=
  match latest.bind Latest.bundle with
  | none => .error .unloggedBundle
  | some logged =>
    if logged.leaf = bundle.transparencyLeaf sha256 then .ok ()
    else .error (.notLatestBundle logged.index)

def checkStatement (withheld : Nat → Discrepancy) (logged : Option (LogPosition Hash))
    (served : Option Hash) : Except Discrepancy Unit :=
  match logged, served with
  | some logged, none => .error (withheld logged.index)
  | some logged, some leaf => if leaf = logged.leaf then .ok () else .error .unloggedStatement
  | none, some _ => .error .unloggedStatement
  | none, none => .ok ()

/-- What a lookup showed, compared with the log as replayed.  A succession is
expected only without a logged revocation. -/
def checkLookup (store : LogStore Hash) (user : UserId) (bundle : Option KeyBundle)
    (revocation : Option Revocation) (succession : Option Succession)
    (claimed : Option (LogPosition Hash)) : Except Discrepancy Unit := do
  let latest := store.latestFor sha256 user
  checkClaim sha256 latest claimed
  bundle.elim (.ok ()) (checkBundle sha256 latest)
  checkStatement .withheldRevocation (latest.bind Latest.revocation)
    (revocation.map (Revocation.transparencyLeaf sha256))
  if (latest.bind Latest.revocation).isNone then
    checkStatement .withheldSuccession (latest.bind Latest.succession)
      (succession.map (Succession.transparencyLeaf sha256))

def checkDeviceLookup (store : LogStore Hash) (device : UserId) (bundle : KeyBundle)
    (revocation : Option DeviceRevocation) : Except Discrepancy Unit := do
  let latest := store.latestFor sha256 device
  checkBundle sha256 latest bundle
  checkStatement .withheldRevocation (latest.bind Latest.revocation)
    (revocation.map (DeviceRevocation.transparencyLeaf sha256))

/-- The check of a whole answer for the user it is about.  A revocation that is
missing from it is borne out by a device statement served beside the bundle. -/
def checkAnswer (signatures : Signatures) (store : LogStore Hash)
    (answer : LookupResult Hash) : Except Discrepancy Unit :=
  match store.checkLookup sha256 answer.userId answer.bundle answer.revocation
    answer.succession answer.logged with
  | .error (.withheldRevocation logged) =>
    if store.revocationIsDeviceStatement sha256 signatures answer.userId
        answer.deviceRevocations then .ok ()
    else .error (.withheldRevocation logged)
  | other => other

end LogStore

end Silver.Client
