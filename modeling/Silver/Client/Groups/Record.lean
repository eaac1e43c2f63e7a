import Silver.Client.Groups.Commit

/-!
# A client's record of a group

What a client keeps of a group beside its MLS state: who is in it as far as the
client has followed, where the group stands for the client, the tokens of past
epochs and the messages held back.
-/

namespace Silver.Client.Groups

open Foundation Protocol

def TOKENS_KEPT : Nat := 64

def HOLD_LIMIT : Nat := 16

def HOLD_BYTES : Nat := 384 * 1024

def HOLD_FOR_MS : Nat := 10 * 60 * 1000

def SEEN_IDS : Nat := 256

/-- A leaf of the tree: the identity it belongs to, the device that signed it and
its sealing key. -/
structure MemberInfo where
  user : UserId
  device : UserId
  sealKey : DhPublic
  admin : Bool
deriving DecidableEq

def identities (members : List MemberInfo) : List UserId :=
  (members.map MemberInfo.user).eraseDups

/-- Why a group is broken: a commit the rules refuse, or one that leaves a tree
nobody can read. -/
inductive Breach where
  | refused (refusal : Refusal)
  | unreadable (error : GroupError)
deriving DecidableEq

/-- Where a group stands for a client. -/
inductive GroupState where
  | active
  | invited (inviter : UserId)
  | left
  | removed (committer : UserId)
  | broken (committer : UserId) (reason : Breach)
  | outOfSync (sinceMs : Nat)
deriving DecidableEq

/-- The token of an epoch. -/
structure EpochToken where
  epoch : Nat
  token : Bytes 32
deriving DecidableEq

/-- A handshake message from a later epoch, kept until the epochs between
arrive. -/
structure Held where
  receivedAtMs : Nat
  sender : UserId
  mls : List UInt8
deriving DecidableEq

/-- A client's record of a group. -/
structure GroupRecord where
  name : String
  members : List MemberInfo
  state : GroupState
  tokens : List EpochToken
  held : List Held
  seen : List String
  expireAfterS : Nat
deriving DecidableEq

namespace GroupRecord

def isAdmin (record : GroupRecord) (user : UserId) : Bool :=
  record.members.any fun member => member.user = user && member.admin

def identities (record : GroupRecord) : List UserId :=
  Groups.identities record.members

def admins (record : GroupRecord) : List UserId :=
  record.identities.filter record.isAdmin

def isMember (record : GroupRecord) (user : UserId) : Bool :=
  record.members.any fun member => member.user = user

def devicesOf (record : GroupRecord) (user : UserId) : List UserId :=
  (record.members.filter fun member => member.user = user).map MemberInfo.device

def active (record : GroupRecord) : Except GroupError Unit :=
  match record.state with
  | .active => .ok ()
  | .invited _ => .error (.notActive "not accepted yet")
  | .left => .error (.notActive "left")
  | .removed _ => .error (.notActive "one you were removed from")
  | .broken _ _ => .error (.notActive "broken")
  | .outOfSync _ => .error (.notActive "out of sync")

end GroupRecord

def membersOf (leaves : List (Nat × Leaf)) (extension : SilverGroup) : List MemberInfo :=
  leaves.map fun leaf =>
    { user := leaf.2.account
      device := leaf.2.device
      sealKey := leaf.2.sealKey
      admin := extension.isAdmin leaf.2.account }

end Silver.Client.Groups
