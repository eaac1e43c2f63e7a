import Silver.Client.Tail.Defs
import Silver.Relay.Directory.History

/-!
# A client on its connection

A client and its relay over one connection.  Frames arrive in the order they were
sent and the relay answers one after the other, reading its tables one at a time;
other connections write between any two of those reads.  Contacts' messages bring
heads of the same log.
-/

namespace Silver.System

open Foundation Protocol Client Relay

/-- What the client asks of the relay, the log's head on login included. -/
inductive Request where
  | login
  | logSince (index : Nat)
  | lookup (user : UserId)
deriving DecidableEq

/-- What the relay answers. -/
inductive Reply (Hash : Type) where
  | logHead (head : LogHead Hash)
  | logEntries (entries : List (LogEntry Hash)) (head : LogHead Hash)
  | lookupResult (result : LookupResult Hash)
deriving DecidableEq

/-- The read of a lookup that comes next. -/
inductive Stage where
  | bundle
  | revocation
  | succession
  | logged
  | head
  | revokedBy (device : UserId) (listed : List DeviceCertificate)
  | deviceBundle (device : UserId) (listed : List DeviceCertificate)
  | issued
  | own
deriving DecidableEq

/-- A frame the relay is in the middle of answering, with what it has read. -/
inductive Reading (Hash : Type) where
  | login
  | logSince (index : Nat)
  | logHead (entries : List (LogEntry Hash))
  | lookup (connection : Connection) (stage : Stage) (draft : LookupResult Hash)
deriving DecidableEq

/-- Both ends of a connection, the frames between them, and what has come of it:
the events raised and what the callers of lookups were told.  The tables are what
the writes so far made of them. -/
structure Network (Hash : Type) where
  operations : List Operation
  tail : Tail Hash
  lookups : List (UserId × Nat)
  requests : List Request
  reading : Option (Reading Hash)
  replies : List (Reply Hash)
  raised : List (ClientEvent Hash)
  told : List (Nat × Except String Lookup)

/-- What happens next: a write, a caller's lookup, the relay taking up a request or
reading a table, a frame arriving, a contact's message with a head in it. -/
inductive Action where
  | write (operation : Operation)
  | ask (user : UserId) (caller : Nat)
  | take (connection : Connection)
  | read (handout : Handout)
  | deliver (nowMs : Nat)
  | hear (peer : UserId) (index : Nat)

def Stage.devices : List DeviceCertificate → Stage
  | [] => .issued
  | certificate :: listed => .revokedBy certificate.device listed

section Relay

variable [DecidableEq Hash] (sha256 : Sha256 Hash)

/-- The relay takes up a frame. -/
def Reading.start (connection : Connection) : Request → Reading Hash
  | .login => .login
  | .logSince index => .logSince index
  | .lookup user =>
    .lookup connection .bundle
      { userId := user
        bundle := none
        revocation := none
        succession := none
        head := none
        logged := none
        deviceBundles := []
        deviceRevocations := [] }

/-- One read of a lookup. -/
def readLookup (directory : Directory Hash) (handout : Handout) (connection : Connection)
    (draft : LookupResult Hash) : Stage → Reading Hash ⊕ Reply Hash
  | .bundle =>
    let stored := directory.bundles.get draft.userId
    .inl (.lookup connection .revocation
      { draft with
        bundle := if connection.prekeys then stored.map (popOneTimePrekeys handout)
          else stored })
  | .revocation =>
    match directory.revocations.get draft.userId with
    -- Once a revocation is held, no succession is served.
    | some revocation =>
      .inl (.lookup connection .logged { draft with revocation := some revocation })
    | none => .inl (.lookup connection .succession draft)
  | .succession =>
    .inl (.lookup connection .logged
      { draft with succession := directory.successions.get draft.userId })
  | .logged =>
    .inl (.lookup connection .head
      { draft with logged := directory.logLatestOf sha256 draft.userId })
  | .head =>
    .inl (.lookup connection
      (if connection.devices then .devices (draft.bundle.elim [] KeyBundle.devices)
        else .issued)
      { draft with head := some (directory.logHead sha256) })
  | .revokedBy device listed =>
    .inl (.lookup connection
      (if directory.revokedBy draft.userId device then .devices listed
        else .deviceBundle device listed)
      draft)
  | .deviceBundle device listed =>
    .inl (.lookup connection (.devices listed)
      { draft with
        deviceBundles := draft.deviceBundles ++ ((directory.bundles.get device).filter fun bundle =>
            bundle.account = some draft.userId).toList.map (popOneTimePrekeys handout) })
  | .issued =>
    .inl (.lookup connection .own
      { draft with deviceRevocations := directory.deviceRevocationsBy draft.userId })
  | .own =>
    .inr (.lookupResult
      { draft with
        deviceRevocations := draft.deviceRevocations ++
          (directory.deviceRevocations.get draft.userId).toList })

def Reading.next (directory : Directory Hash) (handout : Handout) :
    Reading Hash → Reading Hash ⊕ Reply Hash
  | .login => .inr (.logHead (directory.logHead sha256))
  | .logSince index => .inl (.logHead (directory.logSince index LOG_PAGE))
  | .logHead entries => .inr (.logEntries entries (directory.logHead sha256))
  | .lookup connection stage draft => readLookup sha256 directory handout connection draft stage

def Reading.finish (directory : Directory Hash) (handout : Handout) :
    Nat → Reading Hash → Option (Reply Hash)
  | 0, _ => none
  | reads + 1, reading =>
    match reading.next sha256 directory handout with
    | .inl further => further.finish directory handout reads
    | .inr reply => some reply

end Relay

section Instant

end Instant

namespace Network

variable [DecidableEq Hash] (sha256 : Sha256 Hash) (signatures : Signatures)

/-- A new connection. -/
def connect (operations : List Operation) (log : Option (LogStore Hash)) : Network Hash :=
  { operations := operations
    tail := Tail.new log
    lookups := []
    requests := [.login]
    reading := none
    replies := []
    raised := []
    told := [] }

def directory (network : Network Hash) : Directory Hash :=
  Directory.after sha256 network.operations

def history (network : Network Hash) : List Logged :=
  Directory.history sha256 network.operations

def dispatch (network : Network Hash) (dealt : Tail Hash × Step Hash) : Network Hash :=
  { network with
    tail := dealt.1
    requests := network.requests ++ dealt.2.send.map Request.logSince
    raised := network.raised ++ dealt.2.events
    told := network.told ++ dealt.2.replies }

/-- A frame arrives.  An answer is for everybody who waits for one about its
user. -/
def receive (network : Network Hash) (nowMs : Nat) : Reply Hash → Network Hash
  | .logHead head => network.dispatch (network.tail.onRelayHead sha256 head nowMs)
  | .logEntries entries head =>
    network.dispatch (network.tail.onEntries sha256 signatures entries head nowMs)
  | .lookupResult result =>
    let (awaited, others) := network.lookups.partition fun lookup => lookup.1 = result.userId
    { network with lookups := others }.dispatch (network.tail.onAnswer sha256 signatures
        { result := result, replies := awaited.map Prod.snd } nowMs)

/-- One step of the connection. -/
def step (network : Network Hash) : Action → Option (Network Hash)
  | .write operation => some { network with operations := network.operations ++ [operation] }
  | .ask user caller =>
    some { network with
      lookups := network.lookups ++ [(user, caller)]
      requests := network.requests ++ [.lookup user] }
  | .take connection =>
    match network.reading, network.requests with
    | none, request :: rest =>
      some { network with requests := rest, reading := some (Reading.start connection request) }
    | _, _ => none
  | .read handout =>
    network.reading.map fun reading =>
      match reading.next sha256 (network.directory sha256) handout with
      | .inl further => { network with reading := some further }
      | .inr reply => { network with reading := none, replies := network.replies ++ [reply] }
  | .deliver nowMs =>
    match network.replies with
    | [] => none
    | reply :: rest => some ({ network with replies := rest }.receive sha256 signatures nowMs reply)
  | .hear peer index =>
    if index ≤ (network.directory sha256).log.length then
      some (network.dispatch (network.tail.onPeerHead sha256 peer
        (headAt sha256 (network.directory sha256).log index)))
    else none

end Network

end Silver.System
