import Silver.Client.Groups.Defs

/-!
# Commits

A commit carries proposals, each made by a member or by somebody outside, and as
a rule a fresh leaf of its committer.  MLS applies it to the tree and to the
context; whether the membership rules allow it is for every member to check.
-/

namespace Silver.Client.Groups

open Foundation Protocol

def CIPHERSUITE : Nat := 0x004F

/-- The extensions of a group's context. -/
structure ContextExtensions where
  group : Option (Except ProtocolError SilverGroup)
  required : Option (List ExtensionType)
deriving DecidableEq

/-- What every member of a group agrees on. -/
structure GroupContext where
  ciphersuite : Nat
  extensions : ContextExtensions
deriving DecidableEq

/-- A change to a group. -/
inductive Proposal where
  | add (leaf : LeafNode)
  | update (leaf : LeafNode)
  | remove (index : Nat)
  | groupContextExtensions (extensions : ContextExtensions)
deriving DecidableEq

/-- Who made a proposal: the member at an index, or somebody outside. -/
inductive Sender where
  | member (index : Nat)
  | outside
deriving DecidableEq

/-- A proposal a commit carries. -/
structure QueuedProposal where
  proposal : Proposal
  sender : Sender
deriving DecidableEq

/-- A commit, opened but not merged: the index of its committer, its proposals,
the committer's fresh leaf and the context it leads to. -/
structure StagedCommit where
  sender : Nat
  proposals : List QueuedProposal
  path : Option LeafNode
  context : GroupContext
deriving DecidableEq

namespace StagedCommit

def addProposals (staged : StagedCommit) : List LeafNode :=
  staged.proposals.filterMap fun queued =>
    match queued.proposal with
    | .add leaf => some leaf
    | _ => none

def removeProposals (staged : StagedCommit) : List (Sender × Nat) :=
  staged.proposals.filterMap fun queued =>
    match queued.proposal with
    | .remove index => some (queued.sender, index)
    | _ => none

def updateProposals (staged : StagedCommit) : List (Sender × LeafNode) :=
  staged.proposals.filterMap fun queued =>
    match queued.proposal with
    | .update leaf => some (queued.sender, leaf)
    | _ => none

def contextProposals (staged : StagedCommit) : List ContextExtensions :=
  staged.proposals.filterMap fun queued =>
    match queued.proposal with
    | .groupContextExtensions extensions => some extensions
    | _ => none

def changesContext (staged : StagedCommit) : Bool :=
  !staged.contextProposals.isEmpty

def removedIndices (staged : StagedCommit) : List Nat :=
  staged.removeProposals.map Prod.snd

def refreshed (staged : StagedCommit) (index : Nat) (leaf : LeafNode) : Option LeafNode :=
  if index ∈ staged.removedIndices then none
  else if index = staged.sender then some (staged.path.getD leaf)
  else
    match staged.updateProposals.find? fun update => update.1 = .member index with
    | some update => some update.2
    | none => some leaf

def appliedNodes (staged : StagedCommit) (tree : Tree) : List (Option LeafNode) :=
  Slots.fillAll (tree.nodes.mapIdx fun index node => node.bind (staged.refreshed index))
    staged.addProposals

def appliedContext (staged : StagedCommit) (context : GroupContext) : GroupContext :=
  match staged.contextProposals with
  | [] => context
  | extensions :: _ => { context with extensions := extensions }

end StagedCommit

def extensionOf (extensions : ContextExtensions) : Except GroupError SilverGroup :=
  match extensions.group with
  | none => .error (.mls "the group has no silver extension")
  | some (.error error) => .error (.protocol error)
  | some (.ok group) => .ok group

/-- What a commit did. -/
inductive Change where
  | added (users : List UserId)
  | removed (users : List UserId)
  | left (users : List UserId)
  | renamed (name : String)
  | admins (users : List UserId)
  | linkReset
  | updated
deriving DecidableEq

/-- Why a commit is refused. -/
inductive Refusal where
  | addedLeaf (error : GroupError)
  | leaves (error : GroupError)
  | removedNobody
  | added (committer : UserId)
  | removed (committer : UserId)
  | settings (committer : UserId)
  | ciphersuite
  | extension (error : GroupError)
  | requiredExtensions
  | noAdmin
  | adminNotMember
  | tooLarge
  | tooManyLeaves (who : UserId) (count : Nat)
  | tooManyInAll
  | updatedLeaf (error : GroupError)
  | identity (account : UserId)
deriving DecidableEq

/-- A leaf removed: whose, and whether by the leaf's own proposal. -/
structure Removal where
  index : Nat
  who : UserId
  bySelf : Bool
deriving DecidableEq

/-- What a commit is read as. -/
structure CommitReading where
  adds : List Leaf
  leaves : List (Nat × Leaf)
  removed : List Removal
deriving DecidableEq

def removalOf (leaves : List (Nat × Leaf)) (proposal : Sender × Nat) : Except Refusal Removal :=
  match leaves.find? fun leaf => leaf.1 == proposal.2 with
  | none => .error .removedNobody
  | some leaf =>
    .ok { index := proposal.2, who := leaf.2.account, bySelf := proposal.1 = .member proposal.2 }

def readCommit (keys : Keys) (tree : Tree) (staged : StagedCommit) :
    Except Refusal CommitReading := do
  let adds ← (staged.addProposals.mapM fun leaf => verifyLeaf keys leaf none).mapError
    Refusal.addedLeaf
  let leaves ← (leavesOf keys tree).mapError Refusal.leaves
  let removed ← staged.removeProposals.mapM (removalOf leaves)
  .ok { adds := adds, leaves := leaves, removed := removed }

namespace CommitReading

def staying (reading : CommitReading) : List (Nat × Leaf) :=
  reading.leaves.filter fun leaf => leaf.1 ∉ reading.removed.map Removal.index

def accountsAfter (reading : CommitReading) : List UserId :=
  reading.staying.map (fun leaf => leaf.2.account) ++ reading.adds.map Leaf.account

def identitiesBefore (reading : CommitReading) : List UserId :=
  (reading.leaves.map fun leaf => leaf.2.account).eraseDups

def identitiesAfter (reading : CommitReading) : List UserId :=
  reading.accountsAfter.eraseDups

def wentBySelf (reading : CommitReading) (who : UserId) : Bool :=
  (reading.removed.filter fun removal => removal.who = who).all Removal.bySelf

def leftBySelf (reading : CommitReading) : List UserId :=
  ((reading.removed.filter Removal.bySelf).map Removal.who).filter reading.wentBySelf

def overfull (reading : CommitReading) : Option UserId :=
  reading.accountsAfter.find? fun who => reading.accountsAfter.count who > MAX_DEVICES

/-- What the commit does to the membership as identities. -/
def change (reading : CommitReading) : Change :=
  let added := reading.identitiesAfter.filter fun user => user ∉ reading.identitiesBefore
  let gone := reading.identitiesBefore.filter fun user => user ∉ reading.identitiesAfter
  let left := gone.filter reading.wentBySelf
  let removed := gone.filter fun user => !reading.wentBySelf user
  if !added.isEmpty then .added added
  else if !removed.isEmpty then .removed removed
  else if !left.isEmpty then .left left
  else .updated

end CommitReading

def checkRights (reading : CommitReading) (staged : StagedCommit) (committer : UserId)
    (admin : Bool) : Except Refusal Unit := do
  refuseIf (!admin && reading.adds.any fun leaf => leaf.account ≠ committer) (.added committer)
  refuseIf (!admin && reading.removed.any fun removal => removal.who ≠ committer && !removal.bySelf)
    (.removed committer)
  refuseIf (staged.changesContext && !admin) (.settings committer)

def checkContext (context : GroupContext) : Except Refusal SilverGroup := do
  refuseIf (context.ciphersuite ≠ CIPHERSUITE) Refusal.ciphersuite
  let after ← (extensionOf context.extensions).mapError Refusal.extension
  let required := context.extensions.required.getD []
  refuseIf (.group ∉ required || .seal ∉ required) Refusal.requiredExtensions
  refuseIf after.admins.isEmpty Refusal.noAdmin
  .ok after

/-- The membership a commit leads to. -/
def checkMembership (reading : CommitReading) (after : SilverGroup) : Except Refusal Unit := do
  refuseIf
    (after.admins.any fun admin => admin ∉ reading.identitiesAfter && admin ∉ reading.leftBySelf)
    Refusal.adminNotMember
  refuseIf (reading.identitiesAfter.length > MAX_MEMBERS) Refusal.tooLarge
  match reading.overfull with
  | some who => .error (.tooManyLeaves who (reading.accountsAfter.count who))
  | none => refuseIf (reading.accountsAfter.length > MAX_MEMBERS * MAX_DEVICES) Refusal.tooManyInAll

def StagedCommit.updated (staged : StagedCommit) (committer : UserId) :
    List (LeafNode × Option UserId) :=
  (staged.path.map fun leaf => (leaf, some committer)).toList ++
    staged.updateProposals.map fun update => (update.2, none)

def checkUpdated (keys : Keys) (leaves : List (Nat × Leaf)) (update : LeafNode × Option UserId) :
    Except Refusal Unit := do
  let fresh ← (verifyLeaf keys update.1 update.2).mapError Refusal.updatedLeaf
  let same := leaves.any fun old => old.2.account = fresh.account && old.2.device = fresh.device
  refuseIf (!same) (.identity fresh.account)

def checkCommit (keys : Keys) (tree : Tree) (staged : StagedCommit) (committer : UserId)
    (before : SilverGroup) : Except Refusal Change := do
  let reading ← readCommit keys tree staged
  checkRights reading staged committer (before.isAdmin committer)
  let after ← checkContext staged.context
  checkMembership reading after
  (staged.updated committer).forM (checkUpdated keys reading.leaves)
  .ok reading.change

end Silver.Client.Groups
