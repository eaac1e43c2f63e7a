import Silver.Client.Groups.Record

/-!
# The changes a client stages

A client asks for a change of a group it is in; the engine checks it against the
client's record of the group and makes the proposals of a commit from it.  A
member that leaves only proposes its own removal and is gone; a later commit of
somebody else's carries the proposal.
-/

namespace Silver.Client.Groups

open Foundation Protocol

/-- A device running this program: its key, the certificate that binds it to an
account where it is a linked one, and what its leaves carry.  A certificate is
verified before it is used. -/
structure Engine (keys : Keys) where
  identity : UserId
  certificate : Option DeviceCertificate
  sealKey : DhPublic
  everyday : Bool
  identityIsKey : keys.isKey identity = true
  certified : ∀ linked ∈ certificate, linked.verify keys = .ok () ∧
    linked.device = identity ∧ keys.isKey linked.account = true

namespace Engine

def account (engine : Engine keys) : UserId :=
  match engine.certificate with
  | some certificate => certificate.account
  | none => engine.identity

def leafNode (engine : Engine keys) : LeafNode :=
  { credential := engine.account.data
    signatureKey := engine.identity.data
    device := engine.certificate.map fun certificate =>
      .ok { certificate with deviceSignature := none }
    sealKey := some (.ok engine.sealKey)
    everyday := engine.everyday }

def leaf (engine : Engine keys) : Leaf :=
  { account := engine.account
    device := engine.identity
    sealKey := engine.sealKey
    everyday := engine.everyday }

end Engine

/-- What a client sees of a group it has followed: its record, the leaves of the
tree and the settings. -/
structure View where
  record : GroupRecord
  leaves : List (Nat × Leaf)
  extension : SilverGroup
deriving DecidableEq

/-- A change to a group a user asks for. -/
inductive Request where
  | add (packages : List LeafNode)
  | remove (users : List UserId)
  | removeDevice (device : UserId)
  | rename (name : String)
  | admin (user : UserId) (appoint : Bool)
  | linkReset (inviteKey : Bytes 32)
  | selfUpdate
  | rejoin (member : UserId) (package : LeafNode)
deriving DecidableEq

def contextExtensions (extension : SilverGroup) : Except GroupError ContextExtensions := do
  extension.check.mapError GroupError.protocol
  .ok { group := some (.ok extension), required := some [.group, .seal] }

def leaveInstead : GroupError :=
  .mls "leave with /group leave"

/-- Read a key package after those read before it. -/
def addPackage (keys : Keys) (view : View) (added : List MemberInfo) (package : LeafNode) :
    Except GroupError (List MemberInfo) := do
  let leaf ← verifyLeaf keys package none
  refuseIf
    ((view.record.members.any fun member => member.device = leaf.device) ||
      added.any fun member => member.device = leaf.device)
    (.alreadyAMember leaf.account)
  .ok (added ++
    [{ user := leaf.account
       device := leaf.device
       sealKey := leaf.sealKey
       admin := view.record.isAdmin leaf.account }])

section Staging

variable (engine : Engine keys) (view : View)

def stageAdd (packages : List LeafNode) : Except GroupError (List Proposal) := do
  view.record.active
  let added ← packages.foldlM (addPackage keys view) []
  refuseIf (!view.record.isAdmin engine.account &&
    added.any fun member => member.user ≠ engine.account) .notAdmin
  let after := (view.record.identities ++ added.map MemberInfo.user).eraseDups
  refuseIf (after.length > MAX_MEMBERS) .full
  .ok (packages.map .add)

def leavesOfUser (user : UserId) : Except GroupError (List Nat) :=
  let theirs := (view.leaves.filter fun leaf => leaf.2.account = user).map Prod.fst
  if theirs.isEmpty then .error (.notAMember user) else .ok theirs

def stageRemove (users : List UserId) : Except GroupError (List Proposal) := do
  view.record.active
  refuseIf (!view.record.isAdmin engine.account) .notAdmin
  refuseIf (users.contains engine.account) leaveInstead
  refuseIf (view.record.admins.filter fun admin => !users.contains admin).isEmpty .lastAdmin
  let indices ← users.mapM (leavesOfUser view)
  let context ← contextExtensions (users.foldl SilverGroup.withoutAdmin view.extension)
  .ok (indices.flatten.map .remove ++ [.groupContextExtensions context])

/-- Remove one device's leaf. -/
def stageRemoveDevice (device : UserId) : Except GroupError (List Proposal) := do
  view.record.active
  refuseIf (device = engine.identity) leaveInstead
  match view.record.members.find? fun member => member.device = device with
  | none => .error (.notAMember device)
  | some member =>
    refuseIf (!view.record.isAdmin engine.account && member.user ≠ engine.account) .notAdmin
    let account := member.user
    let last := (view.record.devicesOf account).length = 1
    refuseIf (last && account = engine.account) leaveInstead
    refuseIf (last && view.record.isAdmin account && view.record.admins.length = 1) .lastAdmin
    match view.leaves.find? fun leaf => leaf.2.device = device with
    | none => .error (.notAMember device)
    | some (index, _) =>
      if last then
        let context ← contextExtensions (view.extension.withoutAdmin account)
        .ok [.remove index, .groupContextExtensions context]
      else .ok [.remove index]

def stageExtensionChange (change : SilverGroup → Except GroupError SilverGroup) :
    Except GroupError (List Proposal) := do
  view.record.active
  refuseIf (!view.record.isAdmin engine.account) .notAdmin
  let extension ← change view.extension
  let context ← contextExtensions extension
  .ok [.groupContextExtensions context]

def stageRename (name : String) : Except GroupError (List Proposal) := do
  (checkNewName name).mapError GroupError.protocol
  stageExtensionChange engine view fun extension => .ok { extension with name := name }

def stageAdmin (user : UserId) (appoint : Bool) : Except GroupError (List Proposal) := do
  view.record.active
  refuseIf (!view.record.isMember user) (.notAMember user)
  stageExtensionChange engine view fun extension =>
    let next := if appoint then extension.withAdmin user else extension.withoutAdmin user
    if next.admins.isEmpty then .error .lastAdmin else .ok next

def stageLinkReset (inviteKey : Bytes 32) : Except GroupError (List Proposal) :=
  stageExtensionChange engine view fun extension => .ok (extension.withNewInviteKey inviteKey)

def stageSelfUpdate : Except GroupError (List Proposal) := do
  view.record.active
  .ok []

def stageRejoin (member : UserId) (package : LeafNode) : Except GroupError (List Proposal) := do
  view.record.active
  refuseIf (!view.record.isAdmin engine.account && member ≠ engine.account) .notAdmin
  let leaf ← verifyLeaf keys package (some member)
  match view.leaves.find? fun standing => standing.2.device = leaf.device with
  | none => .error (.notAMember member)
  | some (index, _) => .ok [.remove index, .add package]

/-- The proposals a request makes. -/
def proposals : Request → Except GroupError (List Proposal)
  | .add packages => stageAdd engine view packages
  | .remove users => stageRemove engine view users
  | .removeDevice device => stageRemoveDevice engine view device
  | .rename name => stageRename engine view name
  | .admin user appoint => stageAdmin engine view user appoint
  | .linkReset inviteKey => stageLinkReset engine view inviteKey
  | .selfUpdate => stageSelfUpdate view
  | .rejoin member package => stageRejoin engine view member package

def consumesQueue : Request → Bool
  | .selfUpdate => view.record.isAdmin engine.account
  | _ => true

def leave : Except GroupError Unit := do
  view.record.active
  let me := engine.account
  let otherAdmins := view.record.admins.filter fun admin => admin ≠ me
  let lastLeaf := (view.record.devicesOf me).length = 1
  refuseIf (view.record.isAdmin me && otherAdmins.isEmpty && lastLeaf &&
    view.record.identities.length > 1) .lastAdmin

end Staging

def keepLastRemoves : List QueuedProposal → List QueuedProposal
  | [] => []
  | queued :: rest =>
    match queued.proposal with
    | .remove index =>
      if rest.any fun later => later.proposal = .remove index then keepLastRemoves rest
      else queued :: keepLastRemoves rest
    | _ => queued :: keepLastRemoves rest

/-- The commit made of a member's proposals and of the removals in its queue. -/
def stage {keys : Keys} (engine : Engine keys) (context : GroupContext) (sender : Nat)
    (queue : List Nat) (made : List Proposal) : StagedCommit :=
  let queued := queue.map fun index =>
    { proposal := Proposal.remove index, sender := Sender.member index }
  let inline := made.map fun proposal => { proposal := proposal, sender := Sender.member sender }
  let staged : StagedCommit :=
    { sender := sender
      proposals := keepLastRemoves (queued ++ inline)
      path := some engine.leafNode
      context := context }
  { staged with context := staged.appliedContext context }

end Silver.Client.Groups
