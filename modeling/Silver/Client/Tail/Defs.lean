import Silver.Client.LogStore.Defs

/-!
# Tailing the log

A tail is driven by one connection: it is told what the relay says and what
contacts say, and answers with requests to send and events to raise.  One thing
is fetched at a time; what arrives meanwhile waits until the log is caught up.
-/

namespace Silver.Client

open Foundation Protocol

/-- A lookup's answer, with the callers waiting for it. -/
structure Answer (Hash : Type) where
  result : LookupResult Hash
  replies : List Nat
deriving DecidableEq

/-- What a caller gets for a lookup that holds up. -/
structure Lookup where
  bundle : Option KeyBundle
  deviceBundles : List KeyBundle
  deviceRevocations : List DeviceRevocation
deriving DecidableEq

/-- What a tail raises about the log. -/
inductive TransparencyEvent (Hash : Type) where
  | synced (head : LogHead Hash)
  | lookup (who : UserId) (problem : String)
  | fork (peer : Option UserId) (position : Nat)
  | withheld (peer : Option UserId) (index : Nat)
  | rewound (start finish : Nat)
deriving DecidableEq

/-- What a tail raises. -/
inductive ClientEvent (Hash : Type) where
  | transparency (event : TransparencyEvent Hash)
  | peerRevoked (revocation : Revocation)
  | peerSucceeded (succession : Succession)
  | deviceRevoked (revocation : DeviceRevocation)
deriving DecidableEq

/-- What a step decided: the indices to ask the log after, the events to raise,
and what the callers of lookups are told. -/
structure Step (Hash : Type) where
  send : List Nat
  events : List (ClientEvent Hash)
  replies : List (Nat × Except String Lookup)

/-- What is being fetched: the log up to a head, or an old segment of it from a
cursor to a checkpoint, to compare a contact's head on the way. -/
inductive Mode (Hash : Type) where
  | advance (target : LogHead Hash) (origin : Option UserId)
  | verify (cursor check finish : LogHead Hash) (peer : UserId) (matched : Option Bool)
deriving DecidableEq

/-- What waits for the log to be caught up. -/
inductive Deferred (Hash : Type) where
  | answer (answer : Answer Hash)
  | peerHead (peer : UserId) (head : LogHead Hash)
deriving DecidableEq

/-- The state of a tail; without a log everything passes unchecked. -/
structure Tail (Hash : Type) where
  log : Option (LogStore Hash)
  mode : Option (Mode Hash)
  deferred : List (Deferred Hash)
  lastSynced : Option (LogHead Hash)

namespace Step

def empty : Step Hash :=
  ⟨[], [], []⟩

def append (first second : Step Hash) : Step Hash :=
  ⟨first.send ++ second.send, first.events ++ second.events, first.replies ++ second.replies⟩

instance : Append (Step Hash) :=
  ⟨append⟩

def logSince (index : Nat) : Step Hash :=
  ⟨[index], [], []⟩

def raise (event : TransparencyEvent Hash) : Step Hash :=
  ⟨[], [.transparency event], []⟩

end Step

section Answers

variable [DecidableEq Hash] (sha256 : Sha256 Hash) (signatures : Signatures)

def lifecycleEvents (result : LookupResult Hash) : List (ClientEvent Hash) :=
  ((result.revocation.filter fun revocation => revocation.verify signatures).map
      ClientEvent.peerRevoked).toList ++
    ((result.succession.filter fun succession => succession.verify signatures).map
      ClientEvent.peerSucceeded).toList

/-- Hand an answer to its callers, and raise the statements it carried. -/
def settle (answer : Answer Hash) : Step Hash :=
  let revocations := answer.result.deviceRevocations.filter fun revocation =>
    revocation.verify signatures
  let lookup : Lookup :=
    { bundle := answer.result.bundle
      deviceBundles := answer.result.deviceBundles
      deviceRevocations := revocations }
  { send := []
    events := lifecycleEvents signatures answer.result ++ revocations.map ClientEvent.deviceRevoked
    replies := answer.replies.map fun reply => (reply, .ok lookup) }

def refuse (answer : Answer Hash) (reason : String) : Step Hash :=
  { send := []
    events := lifecycleEvents signatures answer.result ++
      [.transparency (.lookup answer.result.userId reason)]
    replies := answer.replies.map fun reply => (reply, .error reason) }

def borneOut (log : LogStore Hash) (revocation : DeviceRevocation) : Bool :=
  ((log.latestFor sha256 revocation.device).bind Latest.revocation).any fun logged =>
    logged.leaf = revocation.transparencyLeaf sha256

/-- Check an answer against the log and settle or refuse it.  A device whose
bundle or revocation the log does not bear out is left out and reported. -/
def resolve (log : LogStore Hash) (answer : Answer Hash) : Step Hash :=
  match log.checkAnswer sha256 signatures answer.result with
  | .error problem => refuse signatures answer problem.text
  | .ok () =>
    let kept := answer.result.deviceRevocations.filter (borneOut sha256 log)
    let dropped := answer.result.deviceRevocations.filter fun revocation =>
      !borneOut sha256 log revocation
    let check (bundle : KeyBundle) :=
      log.checkDeviceLookup sha256 bundle.userId bundle
        (kept.find? fun revocation => revocation.device = bundle.userId)
    let problems := answer.result.deviceBundles.filterMap fun bundle =>
      match check bundle with
      | .ok () => none
      | .error problem => some (ClientEvent.transparency (.lookup bundle.userId problem.text))
    let bundles := answer.result.deviceBundles.filter fun bundle => (check bundle).isOk
    { send := []
      events := (dropped.map fun revocation =>
          .transparency (.lookup revocation.device Discrepancy.unloggedStatement.text)) ++
        problems
      replies := [] } ++
      settle signatures { answer with
        result := { answer.result with
          deviceBundles := bundles
          deviceRevocations := kept } }

end Answers

/-- What a fetched segment turned out to be. -/
inductive Segment where
  | genuine
  | doctored (position : Nat)
  | incomplete
deriving DecidableEq

/-- Go through a page of a segment: the cursor follows the entries, the head in
question is compared on passing its index, and the segment is judged at its
end. -/
def scan {Hash : Type} [DecidableEq Hash] (sha256 : Sha256 Hash) (check finish : LogHead Hash) :
    LogHead Hash → Option Bool → List (LogEntry Hash) → Segment × LogHead Hash × Option Bool
  | cursor, matched, [] => (.incomplete, cursor, matched)
  | cursor, matched, entry :: rest =>
    if !entry.follows cursor then (.doctored (cursor.index + 1), cursor, matched)
    else
      let cursor := entry.head sha256
      let matched :=
        if cursor.index = check.index then some (decide (cursor.hash = check.hash))
        else matched
      if cursor.index = finish.index then
        (if cursor.hash = finish.hash then .genuine else .doctored finish.index, cursor, matched)
      else scan sha256 check finish cursor matched rest

namespace Tail

variable [DecidableEq Hash] (sha256 : Sha256 Hash) (signatures : Signatures)

def new (log : Option (LogStore Hash)) : Tail Hash :=
  { log := log
    mode := none
    deferred := []
    lastSynced := (log.map LogStore.head).filter fun head => 0 < head.index }

def ours (tail : Tail Hash) : LogHead Hash :=
  (tail.log.map LogStore.head).getD (LogHead.EMPTY sha256)

def startAdvance (tail : Tail Hash) (target : LogHead Hash) (origin : Option UserId) :
    Tail Hash × Step Hash :=
  ({ tail with mode := some (.advance target origin) }, Step.logSince (tail.ours sha256).index)

/-- Start the replay again because the relay's head contradicts it. -/
def startAgain (tail : Tail Hash) (log : LogStore Hash) (rewound : Bool) (head : LogHead Hash)
    (nowMs : Nat) (event : TransparencyEvent Hash) : Tail Hash × Step Hash :=
  let cleared : Tail Hash :=
    { tail with
      log := some (log.reset sha256 rewound head nowMs)
      mode := none
      lastSynced := none }
  let (advancing, step) := cleared.startAdvance sha256 head none
  (advancing, Step.raise event ++ step)

/-- The relay told us where its log stands. -/
def onRelayHead (tail : Tail Hash) (head : LogHead Hash) (nowMs : Nat) : Tail Hash × Step Hash :=
  match tail.log with
  | none => (tail, Step.empty)
  | some log =>
    if head.index < log.head.index then
      tail.startAgain sha256 log true head nowMs (.rewound log.head.index head.index)
    else if head.index = log.head.index ∧ head.hash ≠ log.head.hash then
      tail.startAgain sha256 log false head nowMs (.fork none head.index)
    else if log.head.index < head.index ∧ tail.mode = none then
      tail.startAdvance sha256 head none
    else (tail, Step.empty)

/-- Compare a contact's head with our chain, fetching what that needs. -/
def checkHead (tail : Tail Hash) (log : LogStore Hash) (peer : UserId) (head : LogHead Hash) :
    Tail Hash × Step Hash :=
  match log.checkPeerHead sha256 head with
  | .consistent => (tail, Step.empty)
  | .fork position => (tail, Step.raise (.fork (some peer) position))
  | .ahead => tail.startAdvance sha256 head (some peer)
  | .needEntries start finish =>
    ({ tail with mode := some (.verify start head finish peer none) }, Step.logSince start.index)

/-- Deal with what waited, until something needs another fetch. -/
def resolveWaiting (log : LogStore Hash) : Tail Hash → List (Deferred Hash) → Tail Hash × Step Hash
  | tail, [] => ({ tail with deferred := [] }, Step.empty)
  | tail, waiting :: rest =>
    if tail.mode.isSome then ({ tail with deferred := waiting :: rest }, Step.empty)
    else
      match waiting with
      | .answer answer =>
        match answer.result.head with
        | some head =>
          if log.head.index < head.index then
            { tail with deferred := waiting :: rest }.startAdvance sha256 head none
          else
            let (resolved, step) := resolveWaiting log tail rest
            (resolved, resolve sha256 signatures log answer ++ step)
        | none =>
          let (resolved, step) := resolveWaiting log tail rest
          (resolved, resolve sha256 signatures log answer ++ step)
      | .peerHead peer head =>
        let (checked, first) := tail.checkHead sha256 log peer head
        let (resolved, step) := resolveWaiting log checked rest
        (resolved, first ++ step)

def resolveDeferred (tail : Tail Hash) (log : LogStore Hash) : Tail Hash × Step Hash :=
  resolveWaiting sha256 signatures log tail tail.deferred

def failDeferred (tail : Tail Hash) (reason : String) : Tail Hash × Step Hash :=
  ({ tail with deferred := [] }, tail.deferred.foldl (fun step waiting =>
        match waiting with
        | .answer answer => step ++ refuse signatures answer reason
        | .peerHead _ _ => step)
      Step.empty)

/-- A lookup was answered.  It is checked once the log is replayed up to the head
it came with. -/
def onAnswer (tail : Tail Hash) (answer : Answer Hash) (nowMs : Nat) : Tail Hash × Step Hash :=
  match tail.log with
  | none => (tail, settle signatures answer)
  | some _ =>
    match answer.result.head with
    | none =>
      (tail, refuse signatures answer
        "the relay keeps a transparency log but answered without its head")
    | some head =>
      let (told, step) := tail.onRelayHead sha256 head nowMs
      if told.mode.isSome ∨ (told.ours sha256).index < head.index then
        let waiting := { told with deferred := told.deferred ++ [.answer answer] }
        if told.mode = none then
          let (advancing, more) := waiting.startAdvance sha256 head none
          (advancing, step ++ more)
        else (waiting, step)
      else
        match told.log with
        | none => (told, step)
        | some log => (told, step ++ resolve sha256 signatures log answer)

def onPeerHead (tail : Tail Hash) (peer : UserId) (head : LogHead Hash) : Tail Hash × Step Hash :=
  match tail.log with
  | none => (tail, Step.empty)
  | some log =>
    if tail.mode.isSome then
      ({ tail with deferred := tail.deferred ++ [.peerHead peer head] }, Step.empty)
    else tail.checkHead sha256 log peer head

def judgeTarget (log : LogStore Hash) (target : LogHead Hash) (origin : Option UserId) :
    Step Hash :=
  if log.head.index < target.index then Step.raise (.withheld origin target.index)
  -- Between checkpoints, or below the ones still kept: nothing is said.
  else if !log.canCheck sha256 target.index then Step.empty
  else if log.hashAt sha256 target.index ≠ some target.hash then
    Step.raise (.fork origin target.index)
  else Step.empty

def noteSynced (tail : Tail Hash) (head : LogHead Hash) : Tail Hash × Step Hash :=
  if tail.lastSynced = some head then (tail, Step.empty)
  else ({ tail with lastSynced := some head }, Step.raise (.synced head))

/-- A page that advances our head.  The mode has been taken. -/
def onAdvance (tail : Tail Hash) (log : LogStore Hash) (target : LogHead Hash)
    (origin : Option UserId) (entries : List (LogEntry Hash)) (head : LogHead Hash)
    (nowMs : Nat) : Tail Hash × Step Hash :=
  match log.apply sha256 entries nowMs with
  | .error (.broken position _) | .error (.fork position) =>
    let (failed, step) := tail.failDeferred signatures "the relay's log does not chain"
    (failed, Step.raise (.fork origin position) ++ step)
  | .ok log =>
    let tail := { tail with log := some log }
    if log.head.index < head.index then
      if entries = [] then
        -- It says there is more but hands out nothing.
        let (failed, step) := tail.failDeferred signatures "the relay withholds its log"
        (failed, Step.raise (.withheld origin head.index) ++ step)
      else tail.startAdvance sha256 target origin
    else if log.head.index = head.index ∧ log.head.hash ≠ head.hash then
      let (failed, step) := tail.failDeferred signatures "the relay's log does not chain"
      (failed, Step.raise (.fork none head.index) ++ step)
    else
      let (noted, synced) := tail.noteSynced log.head
      let (resolved, step) := noted.resolveDeferred sha256 signatures log
      (resolved, judgeTarget sha256 log target origin ++ synced ++ step)

/-- A page of a segment under verification.  The mode has been taken. -/
def onVerify (tail : Tail Hash) (log : LogStore Hash) (cursor check finish : LogHead Hash)
    (peer : UserId) (matched : Option Bool) (entries : List (LogEntry Hash)) :
    Tail Hash × Step Hash :=
  let (segment, cursor, matched) := scan sha256 check finish cursor matched entries
  let conclude (step : Step Hash) : Tail Hash × Step Hash :=
    let (resolved, more) := tail.resolveDeferred sha256 signatures log
    (resolved, step ++ more)
  match segment with
  | .genuine =>
    conclude (if matched = some false then Step.raise (.fork (some peer) check.index)
      else Step.empty)
  | .doctored position => conclude (Step.raise (.fork none position))
  | .incomplete =>
    if entries = [] then conclude (Step.raise (.withheld (some peer) finish.index))
    else
      ({ tail with mode := some (.verify cursor check finish peer matched) },
        Step.logSince cursor.index)

/-- A page of entries arrived. -/
def onEntries (tail : Tail Hash) (entries : List (LogEntry Hash)) (head : LogHead Hash)
    (nowMs : Nat) : Tail Hash × Step Hash :=
  match tail.log, tail.mode with
  | none, _ => (tail, Step.empty)
  | some _, none => (tail, Step.empty)
  | some log, some (.advance target origin) =>
    { tail with mode := none }.onAdvance sha256 signatures log target origin entries head nowMs
  | some log, some (.verify cursor check finish peer matched) =>
    { tail with mode := none }.onVerify sha256 signatures log cursor check finish peer
      matched entries

end Tail

end Silver.Client
