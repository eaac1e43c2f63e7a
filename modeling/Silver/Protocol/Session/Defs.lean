import Silver.Foundation.Checks
import Silver.Protocol.Device

/-!
# Sessions

A session is made by a handshake against the peer's published prekeys and run as a Double
Ratchet.  The curve, the KEM, the hashes and the cipher are parameters, and so is what is drawn
at random; everything that is put together from them is here.
-/

namespace Silver.Protocol

open Foundation

/-- The primitives a session is built on. -/
structure Primitives extends Keys where
  sha256 : List UInt8 -> Bytes 32
  publicKey : Bytes 32 -> DhPublic
  diffieHellman : Bytes 32 -> DhPublic -> Bytes 32
  kemPublic : Bytes 64 -> List UInt8
  encapsulate : List UInt8 -> Bytes 32 -> Except ProtocolError (List UInt8 × Bytes 32)
  decapsulate : Bytes 64 -> List UInt8 -> Except ProtocolError (Bytes 32)
  hkdf : (size : Nat) -> (salt input info : List UInt8) -> Bytes size
  hmac : Bytes 32 -> List UInt8 -> Bytes 32
  aeadSeal : (key : Bytes 32) -> (nonce : Bytes 24) -> (message aad : List UInt8) ->
    Option (List UInt8)
  aeadOpen : (key : Bytes 32) -> (nonce : Bytes 24) -> (ciphertext aad : List UInt8) ->
    Option (List UInt8)

def X3DH_INFO : List UInt8 := utf8 "silver-messenger/v2/x3dh"

def PQXDH_INFO : List UInt8 := utf8 "silver-messenger/v3/pqxdh"

def SESSION_ID_DOMAIN : List UInt8 := utf8 "silver-messenger/v2/session-id"

def ROOT_INFO : List UInt8 := utf8 "silver-messenger/v2/ratchet-root"

def ROOT_INFO_V4 : List UInt8 := utf8 "silver-messenger/v4/ratchet-root"

def MESSAGE_INFO : List UInt8 := utf8 "silver-messenger/v2/ratchet-message"

def BUNDLE_DOMAIN : List UInt8 := utf8 "silver-messenger/v1/key-bundle"

def SIGNED_PREKEY_DOMAIN : List UInt8 := utf8 "silver-messenger/v2/signed-prekey"

def PQ_PREKEY_DOMAIN : List UInt8 := utf8 "silver-messenger/v3/pq-prekey"

def MAX_SKIP : Nat := 1000

def MAX_SKIPPED_KEYS : Nat := 2000

def KEM_PUBLIC_LEN : Nat := 1184

def KEM_CIPHERTEXT_LEN : Nat := 1088

def U32_MAX : Nat := 2 ^ 32 - 1

abbrev SessionId : Type :=
  Bytes 16

section Prekeys

/-- The private half of an X25519 prekey. -/
structure PrekeySecret where
  id : Nat
  secret : Bytes 32
  createdAtMs : Nat
deriving DecidableEq

/-- The private half of an ML-KEM prekey. -/
structure PqPrekeySecret where
  id : Nat
  seed : Bytes 64
  createdAtMs : Nat
deriving DecidableEq

variable (primitives : Primitives)

def SignedPrekey.signedBytes (id : Nat) (dhPublic : DhPublic) (createdAtMs : Nat) : List UInt8 :=
  beBytes 4 id ++ dhPublic.data ++ beBytes 8 createdAtMs

def SignedPrekey.verify (owner : UserId) (prekey : SignedPrekey) : Except ProtocolError Unit :=
  refuseIf
    (!primitives.verify owner SIGNED_PREKEY_DOMAIN
      (signedBytes prekey.id prekey.dhPublic prekey.createdAtMs) prekey.signature)
    .invalidSignature

def SignedPqPrekey.signedBytes (id : Nat) (kemPublic : List UInt8) (createdAtMs : Nat) :
    List UInt8 :=
  beBytes 4 id ++ kemPublic ++ beBytes 8 createdAtMs

def SignedPqPrekey.verify (owner : UserId) (prekey : SignedPqPrekey) :
    Except ProtocolError Unit := do
  refuseIf (prekey.kemPublic.length ≠ KEM_PUBLIC_LEN)
    (.malformed ("ML-KEM key of " ++ toString prekey.kemPublic.length ++ " bytes"))
  refuseIf
    (!primitives.verify owner PQ_PREKEY_DOMAIN
      (signedBytes prekey.id prekey.kemPublic prekey.createdAtMs) prekey.signature)
    .invalidSignature

def Prekeys.verify (owner : UserId) (prekeys : Prekeys) : Except ProtocolError Unit := do
  prekeys.signed.verify primitives owner
  (prekeys.pqSigned.toList ++ prekeys.pqOneTime).forM fun prekey => prekey.verify primitives owner

def Prekeys.pqKey (prekeys : Prekeys) : Option SignedPqPrekey :=
  prekeys.pqOneTime.head?.or prekeys.pqSigned

def KeyBundle.supportsPqRatchet (bundle : KeyBundle) : Bool :=
  bundle.prekeys.any (fun prekeys => prekeys.pqKey.isSome) && bundle.caps.contains "pq_ratchet"

def PrekeySecret.dhPublic (prekey : PrekeySecret) : DhPublic :=
  primitives.publicKey prekey.secret

def PrekeySecret.signedBy (identity : Identity) (prekey : PrekeySecret) : SignedPrekey :=
  { id := prekey.id
    dhPublic := prekey.dhPublic primitives
    createdAtMs := prekey.createdAtMs
    signature := identity.sign SIGNED_PREKEY_DOMAIN
      (SignedPrekey.signedBytes prekey.id (prekey.dhPublic primitives) prekey.createdAtMs) }

def PrekeySecret.oneTime (prekey : PrekeySecret) : OneTimePrekey :=
  ⟨prekey.id, prekey.dhPublic primitives⟩

def PqPrekeySecret.signedBy (identity : Identity) (prekey : PqPrekeySecret) : SignedPqPrekey :=
  { id := prekey.id
    kemPublic := primitives.kemPublic prekey.seed
    createdAtMs := prekey.createdAtMs
    signature := identity.sign PQ_PREKEY_DOMAIN
      (SignedPqPrekey.signedBytes prekey.id (primitives.kemPublic prekey.seed) prekey.createdAtMs) }

end Prekeys

/-- What the initiator tells the responder so that it can derive the same session. -/
structure InitHeader where
  identityDh : DhPublic
  ephemeral : DhPublic
  signedPrekeyId : Nat
  oneTimePrekeyId : Option Nat
  pqPrekeyId : Option Nat
  kemCiphertext : Option (List UInt8)
  identityDhSignature : Option Signature
deriving DecidableEq

/-- The part of a message that is not encrypted. -/
structure RatchetHeader where
  dh : DhPublic
  pn : Nat
  n : Nat
  kem : Option (List UInt8)
  kemCt : Option (List UInt8)
deriving DecidableEq

/-- A message encrypted under a session. -/
structure RatchetMessage where
  header : RatchetHeader
  ciphertext : List UInt8
deriving DecidableEq

/-- A message with what the peer needs to read it. -/
structure RatchetBody where
  version : Nat
  session : SessionId
  init : Option InitHeader
  message : RatchetMessage
deriving DecidableEq

namespace RatchetHeader

def checkLengths (header : RatchetHeader) : Except ProtocolError Unit := do
  refuseIf (header.kem.any (·.length ≠ KEM_PUBLIC_LEN)) (.malformed "bad ML-KEM key length")
  refuseIf (header.kemCt.any (·.length ≠ KEM_CIPHERTEXT_LEN))
    (.malformed "bad ML-KEM ciphertext length")

def bytes (header : RatchetHeader) : List UInt8 :=
  header.dh.data ++ beBytes 4 header.pn ++ beBytes 4 header.n ++ header.kem.getD [] ++
    header.kemCt.getD []

end RatchetHeader

/-- The key of a message passed over. -/
structure SkippedKey where
  dh : DhPublic
  n : Nat
  key : Bytes 32
deriving DecidableEq

/-- One side's state of a session. -/
structure Session where
  id : SessionId
  ad : List UInt8
  dhSelf : Bytes 32
  dhSelfPublic : DhPublic
  dhRemote : Option DhPublic
  rootKey : Bytes 32
  chainSend : Option (Bytes 32)
  chainRecv : Option (Bytes 32)
  nSend : Nat
  nRecv : Nat
  pn : Nat
  skipped : List SkippedKey
  postQuantum : Bool
  pqRatchet : Bool
  kemSelf : Option (Bytes 64)
  kemSelfPublic : Option (List UInt8)
  kemRemote : Option (List UInt8)
  kemCtSend : Option (List UInt8)
deriving DecidableEq

section Derivations

variable (primitives : Primitives)

def wasContributory (shared : Bytes 32) : Bool :=
  shared ≠ Bytes.fill 32 0

def sessionId (ephemeral signedPrekey : DhPublic) : SessionId :=
  (Bytes.split 16 16
    (primitives.sha256 (SESSION_ID_DOMAIN ++ [0] ++ ephemeral.data ++ signedPrekey.data))).1

def x3dhKdf (dh1 dh2 dh3 : Bytes 32) (dh4 kem : Option (Bytes 32)) : Bytes 32 :=
  primitives.hkdf 32 (Bytes.fill 32 0).data
    ((Bytes.fill 32 0xFF).data ++ dh1.data ++ dh2.data ++ dh3.data ++
      (dh4.map Bytes.data).getD [] ++ (kem.map Bytes.data).getD [])
    (if kem.isSome then PQXDH_INFO else X3DH_INFO)

def x3dhSecret (dh1 dh2 dh3 : Bytes 32) (dh4 kem : Option (Bytes 32)) :
    Except ProtocolError (Bytes 32) := do
  refuseIf (([dh1, dh2, dh3] ++ dh4.toList).any (!wasContributory ·)) .weakKey
  .ok (x3dhKdf primitives dh1 dh2 dh3 dh4 kem)

def x3dhAd (initiator : UserId) (initiatorDh : DhPublic) (responder : UserId)
    (responderDh : DhPublic) : List UInt8 :=
  initiator.data ++ initiatorDh.data ++ responder.data ++ responderDh.data

def kdfRoot (root dhOut : Bytes 32) (kem : Option (Bytes 32)) (pq : Bool) : Bytes 32 × Bytes 32 :=
  Bytes.split 32 32
    (primitives.hkdf 64 root.data (dhOut.data ++ (kem.map Bytes.data).getD [])
      (if pq then ROOT_INFO_V4 else ROOT_INFO))

def kdfChain (chain : Bytes 32) : Bytes 32 × Bytes 32 :=
  (primitives.hmac chain [2], primitives.hmac chain [1])

def messageKeyMaterial (messageKey : Bytes 32) : Bytes 32 × Bytes 24 :=
  Bytes.split 32 24 (primitives.hkdf 56 [] messageKey.data MESSAGE_INFO)

def aeadEncrypt (messageKey : Bytes 32) (plaintext aad : List UInt8) :
    Except ProtocolError (List UInt8) :=
  let material := messageKeyMaterial primitives messageKey
  match primitives.aeadSeal material.1 material.2 plaintext aad with
  | some ciphertext => .ok ciphertext
  | none => .error (.malformed "encryption failed")

def aeadDecrypt (messageKey : Bytes 32) (ciphertext aad : List UInt8) :
    Except ProtocolError (List UInt8) :=
  let material := messageKeyMaterial primitives messageKey
  match primitives.aeadOpen material.1 material.2 ciphertext aad with
  | some plaintext => .ok plaintext
  | none => .error .decryptFailed

end Derivations

/-- What a handshake draws at random. -/
structure HandshakeDraws where
  ephemeral : Bytes 32
  encapsulation : Bytes 32
  kemSeed : Bytes 64
  ratchet : Bytes 32

/-- What a turn of the ratchet draws at random. -/
structure RatchetDraws where
  dh : Bytes 32
  kemSeed : Bytes 64
  encapsulation : Bytes 32

/-- One of an identity's Diffie-Hellman keys. -/
inductive DhKey where
  | current
  | previous
deriving DecidableEq

def Identity.dhSecret (identity : Identity) : DhKey -> Option (Bytes 32)
  | .current => some identity.dhCurrent
  | .previous => identity.dhPrevious

namespace Session

section Handshake

variable (primitives : Primitives)

def handshakeKem (key : Option SignedPqPrekey) (draws : HandshakeDraws) :
    Except ProtocolError (Option (Nat × List UInt8 × Bytes 32)) :=
  match key with
  | none => .ok none
  | some key =>
    (primitives.encapsulate key.kemPublic draws.encapsulation).map fun made => some (key.id, made)

/-- Start a session with a peer who has published prekeys, and say what the peer needs to
derive it. -/
def initiate (me : Identity) (peer : KeyBundle) (draws : HandshakeDraws) :
    Except ProtocolError (Session × InitHeader) :=
  match peer.prekeys with
  | none => .error .missingPrekeys
  | some prekeys => do
      prekeys.verify primitives peer.userId
      let spk := prekeys.signed.dhPublic
      let opk := prekeys.oneTime.head?
      let myPublic := primitives.publicKey me.dhCurrent
      let ephemeralPublic := primitives.publicKey draws.ephemeral
      let kem ← handshakeKem primitives prekeys.pqKey draws
      let secret ← x3dhSecret primitives
        (primitives.diffieHellman me.dhCurrent spk)
        (primitives.diffieHellman draws.ephemeral peer.dhPublic)
        (primitives.diffieHellman draws.ephemeral spk)
        (opk.map fun key => primitives.diffieHellman draws.ephemeral key.dhPublic)
        (kem.map fun made => made.2.2)
      let pqRatchet := kem.isSome && peer.supportsPqRatchet
      let shared := primitives.diffieHellman draws.ratchet spk
      refuseIf (!wasContributory shared) .weakKey
      let derived := kdfRoot primitives secret shared none pqRatchet
      .ok
        ({ id := sessionId primitives ephemeralPublic spk
           ad := x3dhAd me.userId myPublic peer.userId peer.dhPublic
           dhSelf := draws.ratchet
           dhSelfPublic := primitives.publicKey draws.ratchet
           dhRemote := some spk
           rootKey := derived.1
           chainSend := some derived.2
           chainRecv := none
           nSend := 0
           nRecv := 0
           pn := 0
           skipped := []
           postQuantum := kem.isSome
           pqRatchet := pqRatchet
           kemSelf := if pqRatchet then some draws.kemSeed else none
           kemSelfPublic :=
             if pqRatchet then some (primitives.kemPublic draws.kemSeed) else none
           kemRemote := none
           kemCtSend := none },
          { identityDh := myPublic
            ephemeral := ephemeralPublic
            signedPrekeyId := prekeys.signed.id
            oneTimePrekeyId := opk.map OneTimePrekey.id
            pqPrekeyId := kem.map Prod.fst
            kemCiphertext := kem.map fun made => made.2.1
            identityDhSignature :=
              if pqRatchet then some (me.sign BUNDLE_DOMAIN myPublic.data) else none })

def respondKem (pq : Option PqPrekeySecret) (init : InitHeader) :
    Except ProtocolError (Option (Bytes 32)) :=
  match init.kemCiphertext, init.pqPrekeyId, pq with
  | none, none, none => .ok none
  | some ciphertext, some id, some secret =>
    if secret.id = id then (primitives.decapsulate secret.seed ciphertext).map some
    else .error (.malformed "post-quantum prekey given does not match the header")
  | _, _, _ => .error (.malformed "post-quantum prekey given does not match the header")

/-- For the post-quantum ratchet, the initiator's key is bound to its identity. -/
def checkBinding (initiator : UserId) (init : InitHeader) (pqRatchet : Bool) :
    Except ProtocolError Unit :=
  if pqRatchet then
    match init.identityDhSignature with
    | none => .error (.malformed "a v4 handshake carries no key-binding signature")
    | some signature =>
      refuseIf (!primitives.verify initiator BUNDLE_DOMAIN init.identityDh.data signature)
        .invalidSignature
  else .ok ()

/-- Derive the session an initiator described. -/
def respondWith (me : Identity) (which : DhKey) (initiator : UserId) (signed : PrekeySecret)
    (oneTime : Option PrekeySecret) (pq : Option PqPrekeySecret) (init : InitHeader)
    (pqRatchet : Bool) : Except ProtocolError Session :=
  match me.dhSecret which with
  | none => .error (.malformed "no previous Diffie–Hellman key is held")
  | some dhSecret => do
      refuseIf (init.signedPrekeyId ≠ signed.id)
        (.malformed "signed prekey given is not the one the header names")
      refuseIf (init.oneTimePrekeyId.isSome ≠ oneTime.isSome)
        (.malformed "one-time prekey given does not match the header")
      refuseIf (pqRatchet && init.kemCiphertext.isNone)
        (.malformed "the post-quantum ratchet needs a post-quantum handshake")
      checkBinding primitives initiator init pqRatchet
      let kem ← respondKem primitives pq init
      let secret ← x3dhSecret primitives
        (primitives.diffieHellman signed.secret init.identityDh)
        (primitives.diffieHellman dhSecret init.ephemeral)
        (primitives.diffieHellman signed.secret init.ephemeral)
        (oneTime.map fun key => primitives.diffieHellman key.secret init.ephemeral)
        kem
      .ok
        { id := sessionId primitives init.ephemeral (signed.dhPublic primitives)
          ad := x3dhAd initiator init.identityDh me.userId (primitives.publicKey dhSecret)
          dhSelf := signed.secret
          dhSelfPublic := signed.dhPublic primitives
          dhRemote := none
          rootKey := secret
          chainSend := none
          chainRecv := none
          nSend := 0
          nRecv := 0
          pn := 0
          skipped := []
          postQuantum := kem.isSome
          pqRatchet := pqRatchet
          kemSelf := none
          kemSelfPublic := none
          kemRemote := none
          kemCtSend := none }

end Handshake

def bodyVersion (session : Session) : Nat :=
  if session.pqRatchet then 4 else 2

def canSend (session : Session) : Bool :=
  session.chainSend.isSome

def aad (session : Session) (header : RatchetHeader) : List UInt8 :=
  session.ad ++ session.id.data ++ header.bytes

section Ratchet

variable (primitives : Primitives)

/-- Encrypt a message under the sending chain. -/
def encrypt (session : Session) (plaintext : List UInt8) :
    Except ProtocolError (RatchetMessage × Session) :=
  match session.chainSend with
  | none => .error .sessionNotReady
  | some chain => do
      let derived := kdfChain primitives chain
      let header : RatchetHeader :=
        ⟨session.dhSelfPublic, session.pn, session.nSend, session.kemSelfPublic, session.kemCtSend⟩
      let ciphertext ← aeadEncrypt primitives derived.2 plaintext (session.aad header)
      .ok (⟨header, ciphertext⟩,
        { session with chainSend := some derived.1, nSend := session.nSend + 1 })

def isFor (header : RatchetHeader) (key : SkippedKey) : Bool :=
  key.dh = header.dh && key.n = header.n

def takeSkipped (session : Session) (header : RatchetHeader) : Option (Bytes 32 × Session) :=
  (session.skipped.find? (isFor header)).map fun found =>
    (found.key, { session with skipped := session.skipped.eraseP (isFor header) })

def chainKeys (remote : DhPublic) : (count n : Nat) -> Bytes 32 -> List SkippedKey × Bytes 32
  | 0, _, chain => ([], chain)
  | count + 1, n, chain =>
    let derived := kdfChain primitives chain
    let rest := chainKeys remote count (n + 1) derived.1
    (⟨remote, n, derived.2⟩ :: rest.1, rest.2)

/-- Set aside the keys of the messages before a position of the receiving chain. -/
def skipMessageKeys (session : Session) (upTo : Nat) : Except ProtocolError Session :=
  if min (session.nRecv + MAX_SKIP) U32_MAX < upTo then .error .tooManySkipped
  else
    match session.chainRecv, session.dhRemote with
    | some chain, some remote =>
      let passed := chainKeys primitives remote (upTo - session.nRecv) session.nRecv chain
      let skipped := session.skipped ++ passed.1
      .ok
        { session with
          skipped := skipped.drop (skipped.length - MAX_SKIPPED_KEYS)
          chainRecv := some passed.2
          nRecv := max session.nRecv upTo }
    | _, _ => .ok session

/-- The ML-KEM secret of a receiving chain. -/
def receivedKem (session : Session) (header : RatchetHeader) :
    Except ProtocolError (Option (Bytes 32)) :=
  if session.pqRatchet then
    match header.kemCt, session.kemSelf with
    | some ciphertext, some seed => (primitives.decapsulate seed ciphertext).map some
    | none, _ => .ok none
    | some _, none =>
      .error (.malformed "a post-quantum ratchet message arrived before we have a ratchet key")
  else .ok none

def sentKem (pqRatchet : Bool) (peer : Option (List UInt8)) (draws : RatchetDraws) :
    Except ProtocolError (Option (List UInt8 × Bytes 32)) :=
  match pqRatchet, peer with
  | true, some key => (primitives.encapsulate key draws.encapsulation).map some
  | _, _ => .ok none

/-- The peer moved to a new ratchet key: a receiving chain for it, and a sending chain under a
fresh key of our own. -/
def dhRatchet (session : Session) (header : RatchetHeader) (draws : RatchetDraws) :
    Except ProtocolError Session := do
  let shared := primitives.diffieHellman session.dhSelf header.dh
  refuseIf (!wasContributory shared) .weakKey
  let received ← receivedKem primitives session header
  let receiving := kdfRoot primitives session.rootKey shared received session.pqRatchet
  let kemRemote := if session.pqRatchet then header.kem else session.kemRemote
  let sent := primitives.diffieHellman draws.dh header.dh
  refuseIf (!wasContributory sent) .weakKey
  let fresh ← sentKem primitives session.pqRatchet kemRemote draws
  let sending := kdfRoot primitives receiving.1 sent (fresh.map Prod.snd) session.pqRatchet
  .ok
    { session with
      pn := session.nSend
      nSend := 0
      nRecv := 0
      dhRemote := some header.dh
      dhSelf := draws.dh
      dhSelfPublic := primitives.publicKey draws.dh
      rootKey := sending.1
      chainRecv := some receiving.2
      chainSend := some sending.2
      kemRemote := kemRemote
      kemSelf := if session.pqRatchet then some draws.kemSeed else session.kemSelf
      kemSelfPublic :=
        if session.pqRatchet then some (primitives.kemPublic draws.kemSeed)
        else session.kemSelfPublic
      kemCtSend := if session.pqRatchet then fresh.map Prod.fst else session.kemCtSend }

def readNext (session : Session) (message : RatchetMessage) (aad : List UInt8) :
    Except ProtocolError (List UInt8 × Session) :=
  match session.chainRecv with
  | none => .error .sessionNotReady
  | some chain => do
      let derived := kdfChain primitives chain
      let plaintext ← aeadDecrypt primitives derived.2 message.ciphertext aad
      .ok (plaintext, { session with chainRecv := some derived.1, nRecv := session.nRecv + 1 })

def turn (session : Session) (header : RatchetHeader) (draws : RatchetDraws) :
    Except ProtocolError Session :=
  if session.dhRemote = some header.dh then .ok session
  else do
    let passed ← session.skipMessageKeys primitives header.pn
    passed.dhRatchet primitives header draws

def readAhead (session : Session) (message : RatchetMessage) (draws : RatchetDraws) :
    Except ProtocolError (List UInt8 × Session) := do
  let turned ← session.turn primitives message.header draws
  let caughtUp ← turned.skipMessageKeys primitives message.header.n
  caughtUp.readNext primitives message (session.aad message.header)

def decryptAdvancing (session : Session) (message : RatchetMessage) (draws : RatchetDraws) :
    Except ProtocolError (List UInt8 × Session) := do
  message.header.checkLengths
  match session.takeSkipped message.header with
  | some (key, rest) =>
    (aeadDecrypt primitives key message.ciphertext (session.aad message.header)).map (·, rest)
  | none => session.readAhead primitives message draws

def decrypt (session : Session) (message : RatchetMessage) (draws : RatchetDraws) :
    Except ProtocolError (List UInt8) × Session :=
  match session.decryptAdvancing primitives message draws with
  | .error why => (.error why, session)
  | .ok (plaintext, next) => (.ok plaintext, next)

end Ratchet

end Session

end Silver.Protocol
