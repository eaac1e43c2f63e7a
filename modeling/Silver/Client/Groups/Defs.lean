import Silver.Foundation.Checks
import Silver.Foundation.Slots
import Silver.Foundation.Tally
import Silver.Protocol.Group

/-!
# Leaves and members of a group

A group is a tree with a leaf for every device of every member.  A leaf names an
account and is signed by that account's own key or by a device key the account
has certified.  The extensions of a leaf and of a group's context are held here
as what decoding their bytes gives.
-/

namespace Silver.Client.Groups

open Foundation Protocol Slots

variable {keys : Keys} {account : UserId} {node : LeafNode}
  {expected : Option UserId}

/-- Why the engine does not do something. -/
inductive GroupError where
  | noSuchGroup
  | notAdmin
  | notActive (why : String)
  | nothingStaged
  | alreadyStaged
  | notAMember (user : UserId)
  | alreadyAMember (user : UserId)
  | full
  | lastAdmin
  | keyPackage (what : String)
  | mls (what : String)
  | protocol (error : ProtocolError)
deriving DecidableEq

/-- A leaf of the tree, as MLS holds it. -/
structure LeafNode where
  credential : List UInt8
  signatureKey : List UInt8
  device : Option (Except ProtocolError DeviceCertificate)
  sealKey : Option (Except ProtocolError DhPublic)
  everyday : Bool
deriving DecidableEq

/-- What a verified leaf says: whose it is, which device signed it, and how to
seal to it. -/
structure Leaf where
  account : UserId
  device : UserId
  sealKey : DhPublic
  everyday : Bool
deriving DecidableEq

/-- The account and the device a leaf belongs to. -/
def identityOf (keys : Keys) (leaf : LeafNode) : Except GroupError (UserId × UserId) :=
  if long : leaf.credential.length = 32 then
    let account : UserId := ⟨leaf.credential, long⟩
    if !keys.isKey account then .error (.keyPackage "credential is not a valid key")
    else if leaf.signatureKey = account.data then .ok (account, account)
    else
      match leaf.device with
      | none =>
        .error (.keyPackage
          "credential and signature key differ, and no device certificate says why")
      | some (.error error) => .error (.keyPackage ("device certificate: " ++ error.text))
      | some (.ok certificate) =>
        if certificate.account ≠ account ∨ certificate.device.data ≠ leaf.signatureKey then
          .error (.keyPackage "the device certificate is not for this leaf")
        else
          match certificate.verify keys with
          | .error _ => .error (.keyPackage "the device certificate does not verify")
          | .ok () => .ok (account, certificate.device)
  else .error (.keyPackage "credential is not a user id")

/-- Check a leaf: whose it is, which may be expected, and that it has a sealing
key. -/
def verifyLeaf (keys : Keys) (leaf : LeafNode) (expected : Option UserId) :
    Except GroupError Leaf := do
  let (account, device) ← identityOf keys leaf
  refuseIf (expected.any fun user => account ≠ user)
    (GroupError.keyPackage "signed by another identity")
  match leaf.sealKey with
  | none => .error (.keyPackage "no sealing key in the leaf")
  | some (.error error) => .error (.protocol error)
  | some (.ok sealKey) =>
    .ok { account := account, device := device, sealKey := sealKey, everyday := leaf.everyday }

/-- The ratchet tree: leaves by index, no two signed by one key. -/
structure Tree where
  nodes : List (Option LeafNode)
  distinct : (Slots.items nodes).Pairwise fun first second =>
    first.signatureKey ≠ second.signatureKey

def leafIn (keys : Keys) (tree : Tree) (member : LeafNode) : Except GroupError Leaf :=
  match (Slots.items tree.nodes).find? fun leaf => leaf.signatureKey == member.signatureKey with
  | none => .error (.mls "a member without a leaf")
  | some leaf => verifyLeaf keys leaf none

def leafAt (keys : Keys) (tree : Tree) (index : Nat) : Except GroupError Leaf :=
  match tree.nodes[index]? with
  | some (some member) => leafIn keys tree member
  | _ => .error (.mls "nobody at that leaf")

def leavesOf (keys : Keys) (tree : Tree) : Except GroupError (List (Nat × Leaf)) :=
  (Slots.occupied tree.nodes).mapM fun member =>
    (leafIn keys tree member.2).map fun leaf => (member.1, leaf)

def Bound (keys : Keys) (leaf : LeafNode) (account : UserId) : Prop :=
  leaf.credential = account.data ∧ (leaf.signatureKey = account.data ∨
      ∃ certificate, leaf.device = some (.ok certificate) ∧ certificate.account = account ∧
        certificate.device.data = leaf.signatureKey ∧ certificate.verify keys = .ok ())

theorem identityOf_eq_ok {device : UserId} (read : identityOf keys leaf = .ok (account, device)) :
    Bound keys leaf account ∧ device.data = leaf.signatureKey := by
  unfold identityOf at read
  split at read
  next =>
    simp only at read
    split at read
    · cases read
    split at read
    next own =>
      cases read
      exact ⟨⟨rfl, .inl own⟩, own.symm⟩
    next =>
      split at read
      · cases read
      · cases read
      next certificate carried =>
        split at read
        · cases read
        next matching =>
          rw [not_or, not_not, not_not] at matching
          split at read
          · cases read
          next verified =>
            cases read
            exact ⟨⟨rfl, .inr ⟨certificate, carried, matching.1, matching.2, verified⟩⟩, matching.2⟩
  next => cases read

theorem identityOf_certified {certificate : DeviceCertificate} (isKey : keys.isKey account = true)
    (names : leaf.credential = account.data) (carried : leaf.device = some (.ok certificate))
    (certifies : certificate.account = account)
    (signed : leaf.signatureKey = certificate.device.data)
    (verified : certificate.verify keys = .ok ()) :
    identityOf keys leaf = .ok (account, certificate.device) := by
  have apart : certificate.account ≠ certificate.device := by
    intro same
    unfold DeviceCertificate.verify at verified
    obtain ⟨_, -, rest⟩ := bind_eq_ok.mp verified
    rw [if_pos same] at rest
    cases rest
  have otherBytes : certificate.device.data ≠ account.data :=
    fun same => apart (certifies.trans (Bytes.ext same).symm)
  simp [identityOf, names, signed, carried, account.length_data, isKey, otherBytes, certifies,
    verified]

section

variable {leaf : Leaf} (verified : verifyLeaf keys node expected = .ok leaf)
include verified

theorem verifyLeaf_eq_ok :
    identityOf keys node = .ok (leaf.account, leaf.device) ∧
      (∀ user ∈ expected, leaf.account = user) ∧
      verifyLeaf keys node none = .ok leaf := by
  unfold verifyLeaf at verified ⊢
  obtain ⟨⟨account, device⟩, read, rest⟩ := bind_eq_ok.mp verified
  obtain ⟨asExpected, sealed⟩ := refuseIf_bind_eq_ok.mp rest
  have same : leaf.account = account ∧ leaf.device = device := by
    split at sealed
    · cases sealed
    · cases sealed
    cases sealed
    exact ⟨rfl, rfl⟩
  refine ⟨by rw [same.1, same.2]; exact read, ?_, ?_⟩
  · rintro user rfl
    rw [same.1]
    simpa using asExpected
  · exact bind_eq_ok.mpr ⟨(account, device), read, refuseIf_bind_eq_ok.mpr ⟨rfl, sealed⟩⟩

theorem verifyLeaf_bound : Bound keys node leaf.account :=
  (identityOf_eq_ok (verifyLeaf_eq_ok verified).1).1

theorem verifyLeaf_device : leaf.device.data = node.signatureKey :=
  (identityOf_eq_ok (verifyLeaf_eq_ok verified).1).2

end

section Tree

variable {index : Nat}

theorem leafIn_eq (held : tree.nodes[index]? = some (some node)) :
    leafIn keys tree node = verifyLeaf keys node none := by
  have listed : node ∈ items tree.nodes := mem_items.mpr ⟨index, held⟩
  have found : (items tree.nodes).find?
      (fun leaf => leaf.signatureKey == node.signatureKey) = some node := by
    have distinct := tree.distinct
    revert listed distinct
    generalize items tree.nodes = leaves
    intro listed distinct
    induction leaves with
    | nil => cases listed
    | cons first _ ih =>
      rw [List.pairwise_cons] at distinct
      rcases List.mem_cons.mp listed with rfl | later
      · simp
      have other : (first.signatureKey == node.signatureKey) = false := by
        simpa using distinct.1 node later
      rw [List.find?_cons_of_neg (by simp [other])]
      exact ih later distinct.2
  rw [leafIn, found]

theorem leafAt_eq_ok : leafAt keys tree index = .ok leaf ↔
      ∃ node, tree.nodes[index]? = some (some node) ∧ verifyLeaf keys node none = .ok leaf := by
  unfold leafAt
  split
  next member held =>
    rw [leafIn_eq held]
    constructor
    · intro verified
      exact ⟨member, held, verified⟩
    rintro ⟨node, same, verified⟩
    cases Option.some.inj (held.symm.trans same)
    exact verified
  next blank =>
    constructor
    · exact nofun
    rintro ⟨node, held, -⟩
    exact absurd held (blank node)

theorem leavesOf_eq_ok {leaves : List (Nat × Leaf)} : leavesOf keys tree = .ok leaves ↔
      List.Forall₂ (fun member leaf => leaf.1 = member.1 ∧ verifyLeaf keys member.2 none = .ok leaf.2)
        (occupied tree.nodes) leaves := by
  unfold leavesOf
  rw [mapM_eq_ok]
  have each : ∀ member ∈ occupied tree.nodes, ∀ leaf,
      ((leafIn keys tree member.2).map fun leaf => (member.1, leaf)) = .ok leaf ↔
        leaf.1 = member.1 ∧ verifyLeaf keys member.2 none = .ok leaf.2 := by
    rintro ⟨_, node⟩ listed ⟨_, leaf⟩
    simp only
    rw [leafIn_eq (mem_occupied.mp listed)]
    cases verifyLeaf keys node none with
    | error error => simp [Except.map]
    | ok => simp [Except.map, eq_comm]
  revert each
  generalize occupied tree.nodes = members
  intro each
  induction members generalizing leaves with
  | nil => cases leaves <;> simp
  | cons member members ih =>
    cases leaves with
    | nil => simp
    | cons leaf leaves =>
      rw [List.forall₂_cons, List.forall₂_cons]
      apply and_congr (each member (.head _) leaf)
      apply ih
      intro other listed
      exact each other (.tail _ listed)

theorem mem_leavesOf {leaves : List (Nat × Leaf)} (read : leavesOf keys tree = .ok leaves) :
    (index, leaf) ∈ leaves ↔ leafAt keys tree index = .ok leaf := by
  have pairs := leavesOf_eq_ok.mp read
  rw [leafAt_eq_ok]
  constructor
  · intro listed
    obtain ⟨⟨number, node⟩, held, same, verified⟩ := exists_of_mem_right pairs listed
    obtain rfl : index = number := same
    exact ⟨node, mem_occupied.mp held, verified⟩
  rintro ⟨node, held, verified⟩
  obtain ⟨⟨number, _⟩, listed, same, read⟩ := exists_of_mem_left pairs (mem_occupied.mpr held)
  obtain rfl : number = index := same
  obtain rfl := Except.ok.inj (read.symm.trans verified)
  exact listed

end Tree

end Silver.Client.Groups
