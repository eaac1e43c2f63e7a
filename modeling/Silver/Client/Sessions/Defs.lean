import Silver.Foundation.Rows
import Silver.Protocol.Session.Defs

/-!
# The session store

A client keeps its private prekeys, and for each peer the sessions it can read on, of which one
is active for sending.  Random numbers and whether a write to the disk goes through are given
with each call; a call that would draw more random numbers than it is given has no result.
-/

namespace Silver.Client

open Foundation Protocol

def ONE_TIME_TARGET : Nat := 20

def ONE_TIME_MIN : Nat := 10

def PQ_ONE_TIME_TARGET : Nat := 10

def PQ_ONE_TIME_MIN : Nat := 5

def SIGNED_PREKEY_ROTATION : Nat := 7 * 24 * 3600 * 1000

def SIGNED_PREKEY_RETENTION : Nat := 21 * 24 * 3600 * 1000

def ONE_TIME_RETENTION : Nat := 30 * 24 * 3600 * 1000

def CROSSING_WINDOW : Nat := 10 * 60 * 1000

def MAX_SESSIONS_PER_PEER : Nat := 5

def MAX_SESSION_PEERS : Nat := 256

def TOP_UPS_PER_HOUR : Nat := 6

def MAX_HANDED_OUT_KEPT : Nat := 4 * ONE_TIME_TARGET

def SESSION_RETENTION : Nat := 180 * 24 * 3600 * 1000

/-- What goes wrong with a session. -/
inductive SessionError where
  | noPrekeys
  | stalePrekeys (days : Nat)
  | unknownSession
  | unknownPrekey (id : Nat)
  | sessionMismatch
  | protocol (error : ProtocolError)
  | inSession (error : ProtocolError)
  | storage
deriving DecidableEq

/-- A one-time key on deposit at the relay. -/
structure Deposited (Key : Type) where
  key : Key
  handedOutAtMs : Option Nat
deriving DecidableEq

/-- The private prekeys; the signed ones newest first. -/
structure PrekeyFile where
  signed : List PrekeySecret
  oneTime : List (Deposited PrekeySecret)
  pqSigned : List PqPrekeySecret
  pqOneTime : List (Deposited PqPrekeySecret)
deriving DecidableEq

/-- A session with a peer. -/
structure PeerSession where
  session : Session
  initiator : UserId
  establishedAtMs : Nat
  lastUsedMs : Nat
  pendingInit : Option InitHeader
  active : Bool
deriving DecidableEq

/-- The sessions and prekeys of one client. -/
structure SessionStore where
  me : UserId
  prekeys : PrekeyFile
  peers : Rows UserId (List PeerSession)
  topUps : List Nat

/-- What is drawn at random: numbers for ids, keys and seeds. -/
structure Supply where
  ids : List Nat
  secrets : List (Bytes 32)
  seeds : List (Bytes 64)

abbrev Draw : Type -> Type :=
  StateT Supply Option

section Drawing

def firstFree (taken : Nat -> Bool) : List Nat -> Option (Nat × List Nat)
  | [] => none
  | id :: ids => if taken id then firstFree taken ids else some (id, ids)

def PrekeyFile.takes (file : PrekeyFile) (id : Nat) : Bool :=
  id = 0 || file.signed.any (·.id = id) || file.oneTime.any (·.key.id = id) ||
    file.pqSigned.any (·.id = id) || file.pqOneTime.any (·.key.id = id)

def freshId (file : PrekeyFile) : Draw Nat := fun supply =>
  (firstFree file.takes supply.ids).map fun (id, rest) => (id, { supply with ids := rest })

def drawSecret : Draw (Bytes 32) := fun supply =>
  match supply.secrets with
  | [] => none
  | secret :: rest => some (secret, { supply with secrets := rest })

def drawSeed : Draw (Bytes 64) := fun supply =>
  match supply.seeds with
  | [] => none
  | seed :: rest => some (seed, { supply with seeds := rest })

end Drawing

section Prekeys

variable {Key : Type}

def Deposited.onDeposit (deposited : Deposited Key) : Bool :=
  deposited.handedOutAtMs.isNone

def renew (createdAtMs : Key -> Nat) (fresh : Draw Key) (keys : List Key) (nowMs : Nat) :
    Draw (List Key) :=
  if keys.head?.all (fun key => nowMs - createdAtMs key ≥ SIGNED_PREKEY_ROTATION) then do
    let key ← fresh
    pure (key :: keys)
  else pure keys

def retained (createdAtMs : Key -> Nat) (keys : List Key) (nowMs : Nat) : List Key :=
  let keep := (keys.takeWhile fun key => nowMs - createdAtMs key < SIGNED_PREKEY_RETENTION).length
  keys.take (max keep 1)

def rotate (createdAtMs : Key -> Nat) (fresh : Draw Key) (keys : List Key) (nowMs : Nat) :
    Draw (List Key) := do
  let renewed ← renew createdAtMs fresh keys nowMs
  pure (retained createdAtMs renewed nowMs)

/-- Drop one-time keys handed out long ago, and keep no more than so many of the rest. -/
def forgetStale (deposit : List (Deposited Key)) (nowMs : Nat) : List (Deposited Key) :=
  let kept := deposit.filter fun deposited =>
    deposited.handedOutAtMs.all fun moment => nowMs - moment < ONE_TIME_RETENTION
  let handedOut := kept.filterMap Deposited.handedOutAtMs
  if handedOut.length > MAX_HANDED_OUT_KEPT then
    let cutoff :=
      ((handedOut.insertionSort (· <= ·))[handedOut.length - MAX_HANDED_OUT_KEPT]?).getD 0
    kept.filter fun deposited => deposited.handedOutAtMs.all fun moment => moment ≥ cutoff
  else kept

def deposited (deposit : List (Deposited Key)) : Nat :=
  deposit.countP Deposited.onDeposit

def markHandedOut (id : Key -> Nat) (consumed : List Nat) (nowMs : Nat)
    (deposit : List (Deposited Key)) : List (Deposited Key) :=
  deposit.map fun deposited =>
    if consumed.contains (id deposited.key) && deposited.onDeposit then
      { deposited with handedOutAtMs := some nowMs }
    else deposited

namespace PrekeyFile

def addOneTime (nowMs : Nat) (file : PrekeyFile) : Draw PrekeyFile := do
  let id ← freshId file
  let secret ← drawSecret
  pure { file with oneTime := file.oneTime ++ [⟨⟨id, secret, nowMs⟩, none⟩] }

def addPqOneTime (nowMs : Nat) (file : PrekeyFile) : Draw PrekeyFile := do
  let id ← freshId file
  let seed ← drawSeed
  pure { file with pqOneTime := file.pqOneTime ++ [⟨⟨id, seed, nowMs⟩, none⟩] }

def addEach (add : PrekeyFile -> Draw PrekeyFile) : Nat -> PrekeyFile -> Draw PrekeyFile
  | 0, file => pure file
  | count + 1, file => do
      let more ← add file
      addEach add count more

def topUpOneTime (nowMs : Nat) (file : PrekeyFile) : Draw PrekeyFile :=
  let kept := { file with oneTime := forgetStale file.oneTime nowMs }
  addEach (addOneTime nowMs) (ONE_TIME_TARGET - deposited kept.oneTime) kept

def topUpPqOneTime (nowMs : Nat) (file : PrekeyFile) : Draw PrekeyFile :=
  let kept := { file with pqOneTime := forgetStale file.pqOneTime nowMs }
  addEach (addPqOneTime nowMs) (PQ_ONE_TIME_TARGET - deposited kept.pqOneTime) kept

/-- The public halves; without a signed prekey there are none. -/
def publicPrekeys (primitives : Primitives) (identity : Identity) (file : PrekeyFile) :
    Option Prekeys :=
  file.signed.head?.map fun signed =>
    { signed := signed.signedBy primitives identity
      oneTime := (file.oneTime.filter Deposited.onDeposit).map fun deposited =>
        deposited.key.oneTime primitives
      pqSigned := file.pqSigned.head?.map fun key => key.signedBy primitives identity
      pqOneTime := (file.pqOneTime.filter Deposited.onDeposit).map fun deposited =>
        deposited.key.signedBy primitives identity }

/-- Rotate the signed prekeys and top the one-time keys up. -/
def refresh (nowMs : Nat) (file : PrekeyFile) : Draw PrekeyFile := do
  let id ← freshId file
  let signed ← rotate PrekeySecret.createdAtMs
    (do let secret ← drawSecret; pure ⟨id, secret, nowMs⟩) file.signed nowMs
  let rotated := { file with signed := signed }
  let pqId ← freshId rotated
  let pqSigned ← rotate PqPrekeySecret.createdAtMs
    (do let seed ← drawSeed; pure ⟨pqId, seed, nowMs⟩) rotated.pqSigned nowMs
  let toppedUp ← topUpOneTime nowMs { rotated with pqSigned := pqSigned }
  topUpPqOneTime nowMs toppedUp

end PrekeyFile

end Prekeys

namespace SessionStore

def saving (saved : Bool) (result : α) : Except SessionError α :=
  if saved then .ok result else .error .storage

section Publishing

variable (primitives : Primitives)

def prekeysForPublish (store : SessionStore) (identity : Identity) (nowMs : Nat) (saved : Bool) :
    Draw (Except SessionError Prekeys × SessionStore) := do
  let file ← store.prekeys.refresh nowMs
  let prekeys ← StateT.lift (file.publicPrekeys primitives identity)
  pure (saving saved prekeys, { store with prekeys := file })

def mayTopUp (store : SessionStore) (nowMs : Nat) : Bool × SessionStore :=
  let recent := store.topUps.filter fun moment => nowMs - moment < 3600000 && moment <= nowMs
  if recent.length ≥ TOP_UPS_PER_HOUR then (false, { store with topUps := recent })
  else (true, { store with topUps := recent ++ [nowMs] })

def noteHandedOut (store : SessionStore) (consumed pqConsumed : List Nat) (nowMs : Nat) :
    SessionStore :=
  { store with
    prekeys.oneTime := markHandedOut PrekeySecret.id consumed nowMs store.prekeys.oneTime
    prekeys.pqOneTime := markHandedOut PqPrekeySecret.id pqConsumed nowMs store.prekeys.pqOneTime }

/-- Note what the relay reported after a publish, and say whether a new one is needed. -/
def applyPrekeyStatus (store : SessionStore) (oneTimeRemaining : Nat) (consumed : List Nat)
    (pqOneTimeRemaining : Option Nat) (pqConsumed : List Nat) (nowMs : Nat) (saved : Bool) :
    Draw (Except SessionError Bool × SessionStore) :=
  let noted := store.noteHandedOut consumed pqConsumed nowMs
  let low := oneTimeRemaining < ONE_TIME_MIN || pqOneTimeRemaining.any (· < PQ_ONE_TIME_MIN)
  let counted := if low then noted.mayTopUp nowMs else (false, noted)
  if counted.1 then do
    let file ← counted.2.prekeys.topUpOneTime nowMs
    let filled ← file.topUpPqOneTime nowMs
    pure (saving saved true, { counted.2 with prekeys := filled })
  else
    pure (if noted.prekeys = store.prekeys then .ok false else saving saved false, counted.2)

end Publishing

section Peers

def sessionsWith (store : SessionStore) (peer : UserId) : List PeerSession :=
  (store.peers.lookup peer).getD []

def withSessions (store : SessionStore) (peer : UserId) (sessions : List PeerSession) :
    SessionStore :=
  { store with peers := store.peers.insert peer sessions }

def usable (session : PeerSession) : Bool :=
  session.active && session.session.canSend

def active (store : SessionStore) (peer : UserId) : Option PeerSession :=
  (store.sessionsWith peer).find? usable

def usefulness (me : UserId) (sessions : List PeerSession) : Bool ×ₗ Nat :=
  toLex (sessions.any (·.initiator = me), (sessions.map PeerSession.lastUsedMs).foldl max 0)

def dropLeast (me : UserId) : Nat -> Rows UserId (List PeerSession) -> Rows UserId (List PeerSession)
  | 0, peers => peers
  | count + 1, peers =>
    match peers.entries.argmin (fun row => usefulness me row.2) with
    | none => peers
    | some victim => dropLeast me count (peers.erase victim.1)

def makeRoom (store : SessionStore) (peer : UserId) (nowMs : Nat) : SessionStore :=
  if peer ∈ store.peers then store
  else
    let cutoff := nowMs - SESSION_RETENTION
    let kept := store.peers.eraseEach
      (store.peers.collect fun sessions => !sessions.any (·.lastUsedMs ≥ cutoff))
    { store with peers := dropLeast store.me (kept.entries.length + 1 - MAX_SESSION_PEERS) kept }

def pruneBy : Nat -> List PeerSession -> List PeerSession
  | 0, sessions => sessions
  | count + 1, sessions =>
    match (sessions.zipIdx.filter fun entry => !entry.1.active).argmin
        fun entry => entry.1.lastUsedMs with
    | none => sessions
    | some victim => pruneBy count (sessions.eraseIdx victim.2)

def prune (sessions : List PeerSession) : List PeerSession :=
  pruneBy (sessions.length - MAX_SESSIONS_PER_PEER) sessions

def deactivate (sessions : List PeerSession) : List PeerSession :=
  sessions.map fun session => { session with active := false }

def replaceFirst (test : PeerSession -> Bool) (updated : PeerSession) :
    List PeerSession -> List PeerSession
  | [] => []
  | session :: sessions =>
    if test session then updated :: sessions
    else session :: replaceFirst test updated sessions

def forget (store : SessionStore) (peer : UserId) : SessionStore :=
  { store with peers := store.peers.erase peer }

end Peers

section Encrypting

variable (primitives : Primitives)

def staleDays (prekeys : Option Prekeys) (nowMs : Nat) : Option Nat :=
  prekeys.bind fun prekeys =>
    let age := nowMs - prekeys.signed.createdAtMs
    if age > SIGNED_PREKEY_RETENTION then some (age / (24 * 3600 * 1000)) else none

def bodyOf (session : Session) (init : Option InitHeader) (message : RatchetMessage) :
    RatchetBody :=
  ⟨session.bodyVersion, session.id, init, message⟩

/-- Start a session with the owner of a bundle and encrypt a first message on it. -/
def startSession (store : SessionStore) (identity : Identity) (peer : KeyBundle)
    (plaintext : List UInt8) (nowMs : Nat) (draws : HandshakeDraws) (saved : Bool) :
    Except SessionError RatchetBody × SessionStore :=
  match (do
    let (session, init) ← Session.initiate primitives identity peer draws
    let (message, session) ← session.encrypt primitives plaintext
    pure (session, init, message) : Except ProtocolError _) with
  | .error why => (.error (.protocol why), store)
  | .ok (session, init, message) =>
    let started : PeerSession := ⟨session, store.me, nowMs, nowMs, some init, true⟩
    (saving saved (bodyOf session (some init) message), store.withSessions peer.userId
        (prune (deactivate (store.sessionsWith peer.userId) ++ [started])))

/-- Encrypt for the owner of a bundle, starting a session where there is none to send on. -/
def encrypt (store : SessionStore) (identity : Identity) (peer : KeyBundle)
    (plaintext : List UInt8) (nowMs : Nat) (draws : HandshakeDraws) (saved : Bool) :
    Except SessionError RatchetBody × SessionStore :=
  let room := store.makeRoom peer.userId nowMs
  let entered := room.withSessions peer.userId (room.sessionsWith peer.userId)
  match entered.active peer.userId with
  | some current =>
    match current.session.encrypt primitives plaintext with
    | .error why => (.error (.protocol why), entered)
    | .ok (message, session) =>
      let updated := { current with session := session, lastUsedMs := nowMs }
      (saving saved (bodyOf session current.pendingInit message), entered.withSessions peer.userId
          (replaceFirst usable updated (entered.sessionsWith peer.userId)))
  | none =>
    if peer.prekeys.isNone then (.error .noPrekeys, entered)
    else
      match staleDays peer.prekeys nowMs with
      | some days => (.error (.stalePrekeys days), entered)
      | none => entered.startSession primitives identity peer plaintext nowMs draws saved

end Encrypting

section Decrypting

variable (primitives : Primitives)

/-- The prekeys a handshake names. -/
structure Named where
  signed : PrekeySecret
  oneTime : Option PrekeySecret
  pq : Option PqPrekeySecret
  pqOneTime : Bool

def namedOneTime (file : PrekeyFile) : Option Nat -> Except SessionError (Option PrekeySecret)
  | none => .ok none
  | some id =>
    match file.oneTime.find? (·.key.id = id) with
    | some deposited => .ok (some deposited.key)
    | none => .error (.unknownPrekey id)

/-- The ML-KEM key of an id, and whether it is a one-time key. -/
def namedPq (file : PrekeyFile) : Option Nat -> Except SessionError (Option PqPrekeySecret × Bool)
  | none => .ok (none, false)
  | some id =>
    match file.pqOneTime.find? (·.key.id = id) with
    | some deposited => .ok (some deposited.key, true)
    | none =>
      match file.pqSigned.find? (·.id = id) with
      | some key => .ok (some key, false)
      | none => .error (.unknownPrekey id)

def named (file : PrekeyFile) (init : InitHeader) : Except SessionError Named :=
  match file.signed.find? (·.id = init.signedPrekeyId) with
  | none => .error (.unknownPrekey init.signedPrekeyId)
  | some signed => do
      let oneTime ← namedOneTime file init.oneTimePrekeyId
      let (pq, pqOneTime) ← namedPq file init.pqPrekeyId
      .ok ⟨signed, oneTime, pq, pqOneTime⟩

def respond (identity : Identity) (which : DhKey) (sender : UserId) (keys : Named)
    (init : InitHeader) (body : RatchetBody) (draws : RatchetDraws) :
    Except SessionError (Except ProtocolError (List UInt8) × Session) := do
  let session ← (Session.respondWith primitives identity which sender keys.signed keys.oneTime
    keys.pq init (body.version = 4)).mapError .protocol
  refuseIf (session.id ≠ body.session) .sessionMismatch
  .ok (session.decrypt primitives body.message draws)

/-- Read the first message of a session under the key we publish, or else under the one we
published before. -/
def establish (identity : Identity) (sender : UserId) (keys : Named) (init : InitHeader)
    (body : RatchetBody) (draws : RatchetDraws) :
    Except SessionError (List UInt8 × Session) := do
  let first ← respond primitives identity .current sender keys init body draws
  match first.1 with
  | .ok plaintext => .ok (plaintext, first.2)
  | .error why =>
    if identity.dhPrevious.isNone then .error (.inSession why)
    else
      let second ← respond primitives identity .previous sender keys init body draws
      match second.1 with
      | .ok plaintext => .ok (plaintext, second.2)
      | .error why => .error (.inSession why)

/-- Drop the one-time keys a handshake used. -/
def spend (file : PrekeyFile) (keys : Named) : PrekeyFile :=
  { file with
    oneTime :=
      match keys.oneTime with
      | none => file.oneTime
      | some key => file.oneTime.eraseP (·.key.id = key.id)
    pqOneTime :=
      match keys.pq with
      | none => file.pqOneTime
      | some key =>
        if keys.pqOneTime then file.pqOneTime.eraseP (·.key.id = key.id)
        else file.pqOneTime }

def oursWins (me sender : UserId) (nowMs : Nat) (sessions : List PeerSession) : Bool :=
  sessions.any fun session =>
    session.active && session.initiator = me && session.pendingInit.isSome &&
      nowMs - session.establishedAtMs < CROSSING_WINDOW && decide (me.data < sender.data)

def adopt (store : SessionStore) (sender : UserId) (session : Session) (nowMs : Nat) :
    SessionStore :=
  let room := store.makeRoom sender nowMs
  let sessions := room.sessionsWith sender
  let ours := oursWins room.me sender nowMs sessions
  let kept := if ours then sessions else deactivate sessions
  room.withSessions sender (prune (kept ++ [⟨session, sender, nowMs, nowMs, none, !ours⟩]))

/-- Read a message on a session that is there. -/
def readOn (store : SessionStore) (sender : UserId) (existing : PeerSession) (body : RatchetBody)
    (nowMs : Nat) (draws : RatchetDraws) (saved : Bool) :
    Except SessionError (List UInt8 × Option DhPublic) × SessionStore :=
  match existing.session.decrypt primitives body.message draws with
  | (.error why, _) => (.error (.inSession why), store)
  | (.ok plaintext, session) =>
    let updated :=
      { existing with session := session, lastUsedMs := nowMs, pendingInit := none }
    (saving saved (plaintext, none), store.withSessions sender
        (replaceFirst (·.session.id = body.session) updated (store.sessionsWith sender)))

/-- Read the first message of a session a peer started. -/
def readFirst (store : SessionStore) (identity : Identity) (sender : UserId) (init : InitHeader)
    (body : RatchetBody) (nowMs : Nat) (draws : RatchetDraws) (prekeysSaved saved : Bool) :
    Except SessionError (List UInt8 × Option DhPublic) × SessionStore :=
  match (do
    let keys ← named store.prekeys init
    let read ← establish primitives identity sender keys init body draws
    pure (keys, read) : Except SessionError _) with
  | .error why => (.error why, store)
  | .ok (keys, plaintext, session) =>
    let spent := { store with prekeys := spend store.prekeys keys }
    if (keys.oneTime.isSome || keys.pqOneTime) && !prekeysSaved then (.error .storage, spent)
    else
      (saving saved (plaintext, some init.identityDh), spent.adopt sender session nowMs)

/-- Decrypt a body, deriving a session from our prekeys where it carries a handshake we have
not seen. -/
def decrypt (store : SessionStore) (identity : Identity) (sender : UserId) (body : RatchetBody)
    (nowMs : Nat) (draws : RatchetDraws) (prekeysSaved saved : Bool) :
    Except SessionError (List UInt8 × Option DhPublic) × SessionStore :=
  match (store.sessionsWith sender).find? (·.session.id = body.session) with
  | some existing => store.readOn primitives sender existing body nowMs draws saved
  | none =>
    match body.init with
    | none => (.error .unknownSession, store)
    | some init =>
      store.readFirst primitives identity sender init body nowMs draws prekeysSaved saved

end Decrypting

end SessionStore

end Silver.Client
