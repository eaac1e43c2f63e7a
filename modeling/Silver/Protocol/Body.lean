import Silver.Protocol.Group
import Silver.Protocol.Session.Defs

/-!
# Bodies on the wire

A body is checked, written as JSON and padded; what arrives is read by its version and checked
again.  The plaintext in a group's message goes the same way without the padding.  The kinds of
content, the references to blobs and the reading of JSON are parameters.
-/

namespace Silver.Protocol

open Foundation

def MAX_BODY_BYTES : Nat := 32 * 1024

def PAD_BLOCK : Nat := 160

def MAX_MESSAGE_ID_BYTES : Nat := 64

def BODY_VERSION : Nat := 5

/-- What goes wrong with a body. -/
inductive BodyError where
  | protocol (error : ProtocolError)
  | tooLarge (length : Nat)
deriving DecidableEq

def BodyError.malformed (what : String) : BodyError :=
  .protocol (.malformed what)

open BodyError

/-- Printable ASCII, not empty, not too long. -/
def isValidMessageId (id : String) : Bool :=
  !id.isEmpty && (utf8 id).length <= MAX_MESSAGE_ID_BYTES &&
    (utf8 id).all fun byte => 0x21 <= byte && byte <= 0x7e

def base64Digit (sextet : Nat) : UInt8 :=
  (utf8 "ABCDEFGHIJKLMNOPQRSTUVWXYZabcdefghijklmnopqrstuvwxyz0123456789+/").getD sextet 0

/-- Standard base64, filled up with `=`. -/
def toBase64 : List UInt8 -> List UInt8
  | first :: second :: third :: rest =>
    base64Digit (first.toNat / 4) :: base64Digit (first.toNat % 4 * 16 + second.toNat / 16) ::
      base64Digit (second.toNat % 16 * 4 + third.toNat / 64) :: base64Digit (third.toNat % 64) ::
      toBase64 rest
  | [first, second] =>
    [base64Digit (first.toNat / 4), base64Digit (first.toNat % 4 * 16 + second.toNat / 16),
      base64Digit (second.toNat % 16 * 4), 0x3d]
  | [first] => [base64Digit (first.toNat / 4), base64Digit (first.toNat % 4 * 16), 0x3d, 0x3d]
  | [] => []

/-- Fill up with spaces to the next multiple of the block. -/
def pad (bytes : List UInt8) : List UInt8 :=
  bytes.rightpad (max ((bytes.length + PAD_BLOCK - 1) / PAD_BLOCK) 1 * PAD_BLOCK) 0x20

/-- Pad a text, unless it is too large then. -/
def padded (text : List UInt8) : Except BodyError (List UInt8) := do
  refuseIf ((pad text).length > MAX_BODY_BYTES) (.tooLarge (pad text).length)
  .ok (pad text)

/-- What a group body carries. -/
inductive GroupKind where
  | welcome
  | handshake
  | message
  | join
  | rejoin
deriving DecidableEq

def GroupKind.name : GroupKind -> String
  | .welcome => "welcome"
  | .handshake => "handshake"
  | .message => "message"
  | .join => "join"
  | .rejoin => "rejoin"

/-- The most a parked message may be. -/
def GroupKind.most : GroupKind -> Nat
  | .welcome | .handshake => 1024 * 1024
  | .message | .join | .rejoin => 64 * 1024

/-- One MLS message for one group, carried inline or parked in a blob. -/
structure GroupBody (Blob : Type) where
  v : Nat
  group : GroupId
  kind : GroupKind
  mls : Option (List UInt8)
  blob : Option Blob
  join : Option (Bytes 32)
deriving DecidableEq

namespace GroupBody

def validate (checkBlob : Blob -> Nat -> Except ProtocolError Unit) (body : GroupBody Blob) :
    Except BodyError Unit := do
  refuseIf (body.v ≠ BODY_VERSION) (malformed "group body: wrong version")
  match body.mls, body.blob with
  | some mls, none =>
    refuseIf mls.isEmpty (malformed "group body: empty message")
    refuseIf (mls.length > MAX_BODY_BYTES) (.tooLarge mls.length)
  | none, some blob => (checkBlob blob body.kind.most).mapError .protocol
  | _, _ => .error (malformed "group body: exactly one of mls and blob")
  refuseIf (decide (body.kind = .join) ≠ body.join.isSome)
    (malformed "group body: join proof exactly for a join")

def field (name : String) (bytes : List UInt8) : List UInt8 :=
  utf8 name ++ utf8 "\":\"" ++ toBase64 bytes ++ utf8 "\""

/-- The JSON of a body; what is absent is left out. -/
def toVec (blobToVec : Blob -> List UInt8) (body : GroupBody Blob) : List UInt8 :=
  utf8 "\x7b\"v\":" ++ utf8 (toString body.v) ++ field ",\"group" body.group.data ++
    utf8 ",\"kind\":\"" ++ utf8 body.kind.name ++ utf8 "\"" ++
    body.mls.elim [] (field ",\"mls") ++
    body.blob.elim [] (fun blob => utf8 ",\"blob\":" ++ blobToVec blob) ++
    body.join.elim [] (fun proof => field ",\"join\":\x7b\"proof" proof.data ++ utf8 "\x7d") ++
    utf8 "\x7d"

def encode (checkBlob : Blob -> Nat -> Except ProtocolError Unit) (blobToVec : Blob -> List UInt8)
    (body : GroupBody Blob) : Except BodyError (List UInt8) := do
  body.validate checkBlob
  padded (body.toVec blobToVec)

end GroupBody

/-- The checks on what a message is called and says. -/
def checkMessage (check : Content -> Except ProtocolError Unit) (refusal id : String)
    (content : Content) : Except BodyError Unit := do
  refuseIf (!isValidMessageId id) (malformed refusal)
  (check content).mapError .protocol

/-- What a message in a group says, inside the MLS ciphertext. -/
structure GroupPlaintext (Content Head : Type) where
  id : String
  sentAtMs : Nat
  content : Content
  head : Option Head
deriving DecidableEq

namespace GroupPlaintext

section

variable (check : Content -> Except ProtocolError Unit)

def encode (toVec : GroupPlaintext Content Head -> List UInt8) (plain : GroupPlaintext Content Head) :
    Except BodyError (List UInt8) := do
  (check plain.content).mapError .protocol
  refuseIf ((toVec plain).length > MAX_BODY_BYTES) (.tooLarge (toVec plain).length)
  .ok (toVec plain)

end

/-- A text without an id. -/
def unnamed : GroupPlaintext String Unit :=
  { id := "", sentAtMs := 1, content := "hi", head := none }

end GroupPlaintext

/-- A message: its id, its content, and the fields nothing is checked of. -/
structure PlainBody (Content Fields : Type) where
  id : String
  content : Content
  fields : Fields
deriving DecidableEq

def InitHeader.checkLengths (init : InitHeader) : Except ProtocolError Unit := do
  refuseIf (init.kemCiphertext.any (·.length ≠ KEM_CIPHERTEXT_LEN))
    (.malformed "bad ML-KEM handshake ciphertext length")
  refuseIf (init.kemCiphertext.isSome ≠ init.pqPrekeyId.isSome)
    (.malformed "post-quantum handshake is half present")

def RatchetBody.validate (body : RatchetBody) : Except ProtocolError Unit := do
  body.message.header.checkLengths
  body.init.toList.forM fun init => do
    init.checkLengths
    refuseIf (body.version = 4 && init.identityDhSignature.isNone)
      (.malformed "a v4 handshake carries no key-binding signature")

/-- Everything the sealed layer can carry. -/
inductive Body (Content Fields Blob : Type) where
  | plain (body : PlainBody Content Fields)
  | ratchet (body : RatchetBody)
  | group (body : GroupBody Blob)
deriving DecidableEq

/-- The version a body is read by, zero where it says none. -/
def Body.version : Body Content Fields Blob -> Nat
  | .plain _ => 0
  | .ratchet body => body.version
  | .group body => body.v

/-- How bodies are written and read, with the checks on their parts. -/
structure Json (Content Fields Blob : Type) where
  check : Content -> Except ProtocolError Unit
  checkBlob : Blob -> Nat -> Except ProtocolError Unit
  toVec : Body Content Fields Blob -> List UInt8
  version : List UInt8 -> Except BodyError Nat
  plain : List UInt8 -> Except BodyError (PlainBody Content Fields)
  ratchet : List UInt8 -> Except BodyError RatchetBody
  group : List UInt8 -> Except BodyError (GroupBody Blob)

namespace Json

variable (json : Json Content Fields Blob)

def checkPlain (body : PlainBody Content Fields) : Except BodyError Unit :=
  checkMessage json.check "message id" body.id body.content

/-- What a sender checks. -/
def checkSent : Body Content Fields Blob -> Except BodyError Unit
  | .plain body => json.checkPlain body
  | .ratchet _ => .ok ()
  | .group body => body.validate json.checkBlob

def encode (body : Body Content Fields Blob) : Except BodyError (List UInt8) := do
  json.checkSent body
  padded (json.toVec body)

end Json

namespace Json

/-- A handshake whose key nothing binds to its sender. -/
def unbound : RatchetBody where
  version := 4
  session := default
  init := some ⟨default, default, 1, none, none, none, none⟩
  message := ⟨⟨default, 0, 0, none, none⟩, [7]⟩

/-- Writes and reads that one. -/
def single : Json String Unit Unit where
  check _ := .ok ()
  checkBlob _ _ := .ok ()
  toVec _ := utf8 "\x7b\"v\":4\x7d"
  version _ := .ok 4
  plain _ := .error (malformed "v")
  ratchet _ := .ok unbound
  group _ := .error (malformed "v")

end Json

end Silver.Protocol
