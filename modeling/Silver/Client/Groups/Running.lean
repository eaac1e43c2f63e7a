import Silver.Foundation.Run
import Silver.Client.Groups.Engine

/-!
# A group over its epochs

The members of a group agree on its tree and its context; each epoch ends with
the one commit the sequencer accepted, which every member that is still there
checks before it merges it.  A member's proposal to leave counts in the epoch it
was made in, and reaches the others in any order or not at all.
-/

namespace Silver.Client.Groups

open Foundation Protocol

def Tree.ofNodes (nodes : List (Option LeafNode)) : Option Tree :=
  if distinct : (Slots.items nodes).Pairwise fun first second =>
      first.signatureKey ≠ second.signatureKey then
    some { nodes := nodes, distinct := distinct }
  else none

/-- A group in one epoch: what the members agree on, the indices whose members
have proposed to leave in this epoch and are gone, and who broke it. -/
structure Group where
  tree : Tree
  context : GroupContext
  leaving : List Nat
  breach : Option (UserId × Breach)

/-- What a member does. -/
inductive Move (keys : Keys) where
  | commit (engine : Engine keys) (request : Request) (queue : List Nat)
  | leave (engine : Engine keys)

namespace Group

variable (keys : Keys) (group : Group)

def recordOf (leaves : List (Nat × Leaf)) (extension : SilverGroup) : GroupRecord :=
  { name := extension.name
    members := membersOf leaves extension
    state := .active
    tokens := []
    held := []
    seen := []
    expireAfterS := 0 }

def view : Option View := do
  let leaves ← (leavesOf keys group.tree).toOption
  let extension ← (extensionOf group.context.extensions).toOption
  some { record := recordOf leaves extension, leaves := leaves, extension := extension }

def indexOf {keys : Keys} (engine : Engine keys) : Option Nat :=
  ((Slots.occupied group.tree.nodes).find? fun member =>
    member.2.signatureKey = engine.identity.data && member.2.credential = engine.account.data).map
    Prod.fst

def receivers (index : Nat) : List Nat :=
  ((Slots.occupied group.tree.nodes).map Prod.fst).filter fun other =>
    other ≠ index && other ∉ group.leaving

def verdict (staged : StagedCommit) (committer : UserId) (before : SilverGroup) (after : Tree) :
    Except Breach Unit := do
  let _ ← (checkCommit keys group.tree staged committer before).mapError Breach.refused
  let _ ← (leavesOf keys after).mapError Breach.unreadable
  .ok ()

def moved (staged : StagedCommit) (after : Tree) : Group :=
  { tree := after, context := staged.context, leaving := [], breach := none }

/-- The commit of a member's request, which is the one the sequencer accepts for
this epoch.  Where nobody else is left, nobody checks it. -/
def commit {keys : Keys} (engine : Engine keys) (request : Request) (queue : List Nat) :
    Option Group := do
  let view ← group.view keys
  let index ← group.indexOf engine
  guard (index ∉ group.leaving)
  guard (queue ⊆ group.leaving)
  let made ← (proposals engine view request).toOption
  let queue := if consumesQueue engine view request then queue else []
  let staged := stage engine group.context index queue made
  -- MLS builds no commit that removes its committer, and none with a key twice.
  guard (index ∉ staged.removedIndices)
  let after ← Tree.ofNodes (staged.appliedNodes group.tree)
  if (group.receivers index).isEmpty then some (moved staged after)
  else
    match group.verdict keys staged engine.account view.extension after with
    | .ok () => some (moved staged after)
    | .error reason => some { group with breach := some (engine.account, reason) }

def leave {keys : Keys} (engine : Engine keys) : Option Group := do
  let view ← group.view keys
  let index ← group.indexOf engine
  guard (index ∉ group.leaving)
  (Groups.leave engine view).toOption
  some { group with leaving := index :: group.leaving }

def step (group : Group) (move : Move keys) : Option Group :=
  match group.breach with
  | some _ => some group
  | none =>
    match move with
    | .commit engine request queue => some ((group.commit engine request queue).getD group)
    | .leave engine => some ((group.leave engine).getD group)

/-- A new group: its creator the only member and admin. -/
def create {keys : Keys} (engine : Engine keys) (name : String) (inviteKey : Bytes 32)
    (nowMs : Nat) : Except GroupError Group := do
  (checkNewName name).mapError GroupError.protocol
  let extension ← (SilverGroup.new name engine.account inviteKey nowMs).mapError GroupError.protocol
  let extensions ← contextExtensions extension
  .ok
    { tree := { nodes := [some engine.leafNode], distinct := List.pairwise_singleton _ _ }
      context := { ciphersuite := CIPHERSUITE, extensions := extensions }
      leaving := []
      breach := none }

end Group

end Silver.Client.Groups
