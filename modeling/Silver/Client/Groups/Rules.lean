import Silver.Client.Groups.Checking

/-!
# The membership rules

What a commit may do to a group, stated on the tree it leads to.  A commit that
`checkCommit` accepts keeps the rules exactly when every Update proposal it
carries keeps the account of the leaf it replaces: the check looks for that
account among all leaves, not at the leaf being replaced.
-/

namespace Silver.Client.Groups

open Foundation Protocol CommitReading List Slots StagedCommit

/-- What MLS makes sure of before a commit is handed out. -/
structure StagedCommit.Valid (staged : StagedCommit) (tree : Tree) (context : GroupContext) :
    Prop where
  committerStays : staged.sender ∉ staged.removedIndices
  updatesByMembers : ∀ update ∈ staged.updateProposals, ∃ index,
    update.1 = .member index ∧ index ≠ staged.sender ∧ index ∉ staged.removedIndices
  updatedOnce : staged.updateProposals.Pairwise fun first second => first.1 ≠ second.1
  applies : staged.context = staged.appliedContext context
  distinct : (Slots.items (staged.appliedNodes tree)).Pairwise fun first second =>
    first.signatureKey ≠ second.signatureKey

def StagedCommit.Valid.tree {staged : StagedCommit} {before : Tree} {context : GroupContext}
    (valid : staged.Valid before context) : Tree :=
  { nodes := staged.appliedNodes before, distinct := valid.distinct }

def StagedCommit.newLeaves (staged : StagedCommit) : List LeafNode :=
  staged.addProposals ++ staged.path.toList ++ staged.updateProposals.map Prod.snd

/-- The rules, for a commit by `committer` that leads from one tree to another. -/
structure RulesKept (keys : Keys) (tree after : Tree) (context : GroupContext)
    (staged : StagedCommit) (committer : UserId) (before : SilverGroup) : Prop where
  settings : before.isAdmin committer = false → staged.context = context
  adds : before.isAdmin committer = false → ∀ node ∈ staged.addProposals, ∃ leaf,
    verifyLeaf keys node none = .ok leaf ∧ leaf.account = committer
  removes : before.isAdmin committer = false → ∀ proposal ∈ staged.removeProposals, ∃ leaf,
    leafAt keys tree proposal.2 = .ok leaf ∧
      (leaf.account = committer ∨ proposal.1 = .member proposal.2)
  size : ∃ leaves, leavesOf keys after = .ok leaves ∧
    (leaves.map fun leaf => leaf.2.account).eraseDups.length ≤ MAX_MEMBERS ∧
    ∀ who, (leaves.map fun leaf => leaf.2.account).count who ≤ MAX_DEVICES
  bound : ∀ node ∈ staged.newLeaves, ∃ account, Bound keys node account
  stays : ∀ index old, leafAt keys tree index = .ok old → index ∉ staged.removedIndices →
    ∃ fresh, leafAt keys after index = .ok fresh ∧ fresh.account = old.account

def UpdatesKeepAccounts (keys : Keys) (tree : Tree) (staged : StagedCommit) : Prop :=
  ∀ update ∈ staged.updateProposals, ∀ index, update.1 = .member index →
    ∀ old fresh, leafAt keys tree index = .ok old → verifyLeaf keys update.2 none = .ok fresh →
      fresh.account = old.account

/-- The leaves a commit brings are read, and so are those there are. -/
structure Brings (keys : Keys) (tree : Tree) (staged : StagedCommit) (committer : UserId)
    (reading : CommitReading) : Prop where
  reads : Reads keys tree staged reading
  updates : ∀ update ∈ staged.updated committer, ∃ fresh,
    verifyLeaf keys update.1 update.2 = .ok fresh

theorem Accepted.brings {keys : Keys} {tree : Tree} {staged : StagedCommit} {committer : UserId}
    {before after : SilverGroup}
    (accepted : Accepted keys tree staged committer before reading after) :
    Brings keys tree staged committer reading where
  reads := accepted.reads
  updates := by
    intro update listed
    obtain ⟨fresh, read, -⟩ := accepted.updates update listed
    exact ⟨fresh, read⟩

def accountOf (keys : Keys) (node : LeafNode) : Option UserId :=
  match verifyLeaf keys node none with
  | .ok leaf => some leaf.account
  | .error _ => none

theorem accountOf_eq {keys : Keys} {leaf : Leaf} (verified : verifyLeaf keys node none = .ok leaf) :
    accountOf keys node = some leaf.account := by
  rw [accountOf, verified]

section Applied

variable {keys : Keys} {context : GroupContext} {staged : StagedCommit}
  {own : Leaf}

theorem map_accountOf_items {leaves : List (Nat × Leaf)} (read : leavesOf keys tree = .ok leaves) :
    (items tree.nodes).map (accountOf keys) = (leaves.map fun leaf => leaf.2.account).map some := by
  rw [← map_snd_occupied]
  replace read := leavesOf_eq_ok.mp read
  revert read
  generalize occupied tree.nodes = members
  intro pairs
  induction pairs with
  | nil => rfl
  | cons pair _ ih =>
    simp only [map_cons, cons.injEq]
    exact ⟨accountOf_eq pair.2, ih⟩

theorem getElem?_appliedNodes {fresh : LeafNode} (held : tree.nodes[index]? = some (some node))
    (refreshes : staged.refreshed index node = some fresh) :
    (staged.appliedNodes tree)[index]? = some (some fresh) := by
  apply getElem?_fillAll
  simp [getElem?_mapIdx, held, refreshes]

theorem refreshed_of_removed (removed : index ∈ staged.removedIndices) :
    staged.refreshed index node = none :=
  if_pos removed

section

variable (brings : Brings keys tree staged own.account reading)
  (committer : leafAt keys tree staged.sender = .ok own)
  (keeps : UpdatesKeepAccounts keys tree staged)
include brings committer keeps

theorem refreshed_keeps (held : tree.nodes[index]? = some (some node))
    (verified : verifyLeaf keys node none = .ok old) (kept : index ∉ staged.removedIndices) :
    ∃ replaced fresh, staged.refreshed index node = some replaced ∧
      verifyLeaf keys replaced none = .ok fresh ∧ fresh.account = old.account := by
  unfold refreshed
  rw [if_neg kept]
  have standing : leafAt keys tree index = .ok old := leafAt_eq_ok.mpr ⟨node, held, verified⟩
  split
  next isCommitter =>
    -- The committer's own leaf: the fresh one has to name the committer.
    subst isCommitter
    obtain rfl : own = old := Except.ok.inj (committer.symm.trans standing)
    cases path : staged.path with
    | none => exact ⟨node, own, rfl, verified, rfl⟩
    | some leaf =>
      have listed : (leaf, some own.account) ∈ staged.updated own.account := by
        simp [updated, path]
      obtain ⟨fresh, read⟩ := brings.updates _ listed
      obtain ⟨-, asExpected, again⟩ := verifyLeaf_eq_ok read
      exact ⟨leaf, fresh, rfl, again, asExpected own.account rfl⟩
  next =>
    split
    next update found =>
      have listed := mem_of_find?_eq_some found
      have byIndex : update.1 = .member index := by simpa using find?_some found
      have checked : (update.2, none) ∈ staged.updated own.account := by
        refine mem_append_right _ (mem_map.mpr ⟨update, listed, rfl⟩)
      obtain ⟨fresh, read⟩ := brings.updates _ checked
      exact ⟨update.2, fresh, rfl, read, keeps update listed index byIndex old fresh standing read⟩
    next => exact ⟨node, old, rfl, verified, rfl⟩

theorem map_accountOf_refreshed :
    (items (tree.nodes.mapIdx fun index node => node.bind (staged.refreshed index))).map
        (accountOf keys) =
      (reading.staying.map fun leaf => leaf.2.account).map some := by
  have pairs := leavesOf_eq_ok.mp brings.reads.leaves
  have members : ∀ mem ∈ occupied tree.nodes, tree.nodes[mem.1]? = some (some mem.2) :=
    fun mem listed => mem_occupied.mp listed
  rw [items_mapIdx]
  unfold staying
  rw [brings.reads.map_index]
  revert pairs members
  generalize occupied tree.nodes = occupied
  generalize reading.leaves = leaves
  intro pairs members
  induction pairs with
  | nil => rfl
  | @cons mem leaf occupied leaves pair _ ih =>
    have rest := ih fun other listed => members other (.tail _ listed)
    obtain ⟨sameIndex, verified⟩ := pair
    by_cases kept : mem.1 ∈ staged.removedIndices
    · rw [filter_cons_of_neg (by simpa [sameIndex] using kept)]
      simpa only [filterMap_cons, refreshed_of_removed kept] using rest
    obtain ⟨_, _, refreshes, read, same⟩ :=
      refreshed_keeps brings committer keeps (members mem (.head _)) verified kept
    rw [filter_cons_of_pos (by simpa [sameIndex] using kept)]
    simp only [filterMap_cons, refreshes, map_cons, cons.injEq]
    exact ⟨by rw [accountOf_eq read, same], rest⟩

end

section

variable (valid : staged.Valid tree context) (brings : Brings keys tree staged own.account reading)
  (committer : leafAt keys tree staged.sender = .ok own)
  (keeps : UpdatesKeepAccounts keys tree staged)
include valid brings committer keeps

theorem leavesOf_applied : ∃ leaves, leavesOf keys valid.tree = .ok leaves ∧
      (leaves.map fun leaf => leaf.2.account).Perm reading.accountsAfter := by
  have readable : ∀ mem ∈ occupied valid.tree.nodes, ∃ leaf : Nat × Leaf,
      leaf.1 = mem.1 ∧ verifyLeaf keys mem.2 none = .ok leaf.2 := by
    rintro ⟨index, _⟩ listed
    rcases of_getElem?_fillAll (mem_occupied.mp listed) with stayed | ⟨added, -⟩
    · rw [getElem?_mapIdx] at stayed
      obtain ⟨_, held, changed⟩ := Option.map_eq_some_iff.mp stayed
      obtain ⟨_, rfl, refreshes⟩ := Option.bind_eq_some_iff.mp changed
      have kept : index ∉ staged.removedIndices := by
        intro removed
        rw [refreshed_of_removed removed] at refreshes
        cases refreshes
      obtain ⟨⟨_, leaf⟩, -, -, verified⟩ :=
        exists_of_mem_left (leavesOf_eq_ok.mp brings.reads.leaves) (mem_occupied.mpr held)
      obtain ⟨_, fresh, same, read, -⟩ := refreshed_keeps brings committer keeps held verified kept
      cases same.symm.trans refreshes
      exact ⟨(index, fresh), rfl, read⟩
    obtain ⟨leaf, -, verified⟩ := exists_of_mem_left brings.reads.adds added
    exact ⟨(index, leaf), rfl, verified⟩
  obtain ⟨leaves, pairs⟩ := exists_forall₂ readable
  have read := leavesOf_eq_ok.mpr pairs
  refine ⟨leaves, read, ?_⟩
  apply (map_perm_map_iff (Option.some_injective UserId)).mp
  rw [← map_accountOf_items read, accountsAfter, map_append]
  have added : staged.addProposals.map (accountOf keys) =
      (reading.adds.map Leaf.account).map some := by
    have pairs := brings.reads.adds
    revert pairs
    generalize staged.addProposals = nodes
    generalize reading.adds = leaves
    intro pairs
    induction pairs with
    | nil => rfl
    | cons pair _ ih => simp [accountOf_eq pair, ih]
  rw [← added, ← map_accountOf_refreshed brings committer keeps, ← map_append]
  exact (perm_items_fillAll _ _).map _

theorem leafAt_applied (standing : leafAt keys tree index = .ok old)
    (kept : index ∉ staged.removedIndices) :
    ∃ fresh, leafAt keys valid.tree index = .ok fresh ∧ fresh.account = old.account := by
  obtain ⟨_, held, verified⟩ := leafAt_eq_ok.mp standing
  obtain ⟨replaced, fresh, refreshes, read, same⟩ :=
    refreshed_keeps brings committer keeps held verified kept
  exact ⟨fresh, leafAt_eq_ok.mpr ⟨replaced, getElem?_appliedNodes held refreshes, read⟩, same⟩

end

theorem newLeaves_bound (brings : Brings keys tree staged own.account reading)
    (brought : node ∈ staged.newLeaves) :
    ∃ account, Bound keys node account := by
  have checked : ∀ expected, (node, expected) ∈ staged.updated own.account →
      ∃ account, Bound keys node account := by
    intro expected listed
    obtain ⟨fresh, read⟩ := brings.updates _ listed
    exact ⟨fresh.account, verifyLeaf_bound read⟩
  rcases mem_append.mp brought with early | updated
  · rcases mem_append.mp early with added | path
    · obtain ⟨leaf, -, verified⟩ := exists_of_mem_left brings.reads.adds added
      exact ⟨leaf.account, verifyLeaf_bound verified⟩
    apply checked (some own.account)
    rw [Option.mem_toList] at path
    simp [updated, path]
  obtain ⟨update, listed, rfl⟩ := mem_map.mp updated
  exact checked none (mem_append_right _ (mem_map.mpr ⟨update, listed, rfl⟩))

theorem changesContext_false (none : staged.changesContext = false) :
    staged.appliedContext context = context := by
  unfold changesContext at none
  unfold appliedContext
  cases proposed : staged.contextProposals with
  | nil => rfl
  | cons => simp [proposed] at none

theorem leafAt_updated (valid : staged.Valid tree context)
    {update : Sender × LeafNode} (listed : update ∈ staged.updateProposals)
    (byIndex : update.1 = .member index)
    (held : tree.nodes[index]? = some (some node)) :
    valid.tree.nodes[index]? = some (some update.2) := by
  obtain ⟨number, byNumber, notCommitter, kept⟩ := valid.updatesByMembers update listed
  obtain rfl : number = index := Sender.member.inj (byNumber.symm.trans byIndex)
  apply getElem?_appliedNodes held
  unfold refreshed
  rw [if_neg kept, if_neg notCommitter]
  have found : staged.updateProposals.find? (fun other => other.1 = .member number) =
      some update := by
    have once := valid.updatedOnce
    revert once listed
    generalize staged.updateProposals = updates
    intro listed once
    induction updates with
    | nil => cases listed
    | cons first _ ih =>
      rw [pairwise_cons] at once
      rcases mem_cons.mp listed with rfl | later
      · simp [byIndex]
      have other : first.1 ≠ .member number := byIndex ▸ once.1 update later
      rw [find?_cons_of_neg (by simpa using other)]
      exact ih later once.2
  rw [found]

end Applied

/-- A commit that is accepted keeps the membership rules exactly when every
Update proposal in it keeps the account of the leaf it replaces. -/
theorem checkCommit_enforces_rules
    {keys : Keys} {tree : Tree} {context : GroupContext} {staged : StagedCommit} {own : Leaf}
    {before : SilverGroup} {change : Change} (valid : staged.Valid tree context)
    (committer : leafAt keys tree staged.sender = .ok own)
    (passed : checkCommit keys tree staged own.account before = .ok change) :
    RulesKept keys tree valid.tree context staged own.account before ↔
      UpdatesKeepAccounts keys tree staged := by
  obtain ⟨_, _, accepted, -⟩ := checkCommit_eq_ok.mp passed
  constructor
  · intro rules update listed index byIndex old _ standing read
    obtain ⟨node, held, -⟩ := leafAt_eq_ok.mp standing
    obtain ⟨number, byNumber, -, kept⟩ := valid.updatesByMembers update listed
    obtain rfl : number = index := Sender.member.inj (byNumber.symm.trans byIndex)
    obtain ⟨_, laterStands, same⟩ := rules.stays number old standing kept
    obtain ⟨_, replacedHeld, verified⟩ := leafAt_eq_ok.mp laterStands
    have updated := leafAt_updated valid listed byIndex held
    cases Option.some.inj (replacedHeld.symm.trans updated)
    rw [← same, Except.ok.inj (verified.symm.trans read)]
  intro keeps
  have brings := accepted.brings
  obtain ⟨leaves, read, sameAccounts⟩ := leavesOf_applied valid brings committer keeps
  refine
    { settings := ?_
      adds := ?_
      removes := ?_
      size := ⟨leaves, read, ?_, ?_⟩
      bound := fun node brought => newLeaves_bound brings brought
      stays := fun index old standing kept =>
        leafAt_applied valid brings committer keeps standing kept }
  · intro notAdmin
    rw [valid.applies, changesContext_false (accepted.settings notAdmin)]
  · intro notAdmin node added
    obtain ⟨leaf, listed, verified⟩ := exists_of_mem_left accepted.reads.adds added
    exact ⟨leaf, verified, accepted.ownAdds notAdmin leaf listed⟩
  · intro notAdmin _ listed
    obtain ⟨_, removed, given⟩ := exists_of_mem_left accepted.reads.removed listed
    obtain ⟨leaf, standing, rfl⟩ := (removalOf_eq_ok accepted.reads.leaves).mp given
    refine ⟨leaf, standing, ?_⟩
    simpa using accepted.ownRemoves notAdmin _ removed
  · have fewer := accepted.fewIdentities
    refine (length_eraseDups_le ?_).trans fewer
    intro account listed
    exact sameAccounts.mem_iff.mp listed
  intro who
  rw [sameAccounts.count_eq]
  exact accepted.fewDevices who

namespace Handover

def keys : Keys :=
  { verify := fun _ _ _ _ => true, isKey := fun _ => true }

def primary (byte : UInt8) : LeafNode :=
  { credential := (Bytes.fill 32 byte).data
    signatureKey := (Bytes.fill 32 byte).data
    device := none
    sealKey := some (.ok (Bytes.fill 32 byte))
    everyday := true }

def primaryLeaf (byte : UInt8) : Leaf :=
  { account := Bytes.fill 32 byte
    device := Bytes.fill 32 byte
    sealKey := Bytes.fill 32 byte
    everyday := true }

def tree : Tree :=
  { nodes := [some (primary 1), some (primary 2), some (primary 3)], distinct := by decide }

def settings : SilverGroup :=
  { name := "three", admins := [Bytes.fill 32 1], inviteKey := Bytes.fill 32 9, createdAtMs := 0 }

def context : GroupContext :=
  { ciphersuite := CIPHERSUITE
    extensions := { group := some (.ok settings), required := some [.group, .seal] } }

def commit (updates : List QueuedProposal) : StagedCommit :=
  { sender := 0
    proposals := { proposal := .remove 2, sender := .member 2 } :: updates
    path := some (primary 1)
    context := context }

def handedOver : List QueuedProposal :=
  [{ proposal := .update (primary 3), sender := .member 1 }]

theorem commit_valid : (commit []).Valid tree context where
  committerStays := by decide
  updatesByMembers := by simp [commit, updateProposals]
  updatedOnce := by simp [commit, updateProposals]
  applies := rfl
  distinct := by decide

theorem handover_valid : (commit handedOver).Valid tree context where
  committerStays := by decide
  updatesByMembers := by
    intro update listed
    obtain rfl : update = (.member 1, primary 3) := by
      simpa [commit, handedOver, updateProposals] using listed
    exact ⟨1, rfl, by decide, by decide⟩
  updatedOnce := by simp [commit, handedOver, updateProposals]
  applies := rfl
  distinct := by decide

end Handover

/-- A commit that takes along a leave keeps the rules. -/
theorem rulesKept_of_leave : checkCommit Handover.keys Handover.tree (Handover.commit [])
        (Handover.primaryLeaf 1).account Handover.settings = .ok (.left [Bytes.fill 32 3]) ∧
      RulesKept Handover.keys Handover.tree Handover.commit_valid.tree Handover.context
        (Handover.commit []) (Handover.primaryLeaf 1).account Handover.settings := by
  have passed : checkCommit Handover.keys Handover.tree (Handover.commit [])
      (Handover.primaryLeaf 1).account Handover.settings = .ok (.left [Bytes.fill 32 3]) := rfl
  refine ⟨passed, (checkCommit_enforces_rules Handover.commit_valid rfl passed).mpr ?_⟩
  intro _ listed
  simp [Handover.commit, updateProposals] at listed

/-- A commit that hands the second member's leaf to the third member's account,
whose own leaf it removes, is accepted. -/
theorem checkCommit_accepts_handover :
    leafAt Handover.keys Handover.tree (Handover.commit Handover.handedOver).sender =
        .ok (Handover.primaryLeaf 1) ∧
      checkCommit Handover.keys Handover.tree (Handover.commit Handover.handedOver)
        (Handover.primaryLeaf 1).account Handover.settings = .ok (.left [Bytes.fill 32 3]) ∧
      ¬ RulesKept Handover.keys Handover.tree Handover.handover_valid.tree Handover.context
        (Handover.commit Handover.handedOver) (Handover.primaryLeaf 1).account
        Handover.settings := by
  refine ⟨rfl, rfl, ?_⟩
  intro rules
  obtain ⟨fresh, standing, same⟩ := rules.stays 1 (Handover.primaryLeaf 2) rfl (by decide)
  obtain rfl : Handover.primaryLeaf 3 = fresh := Except.ok.inj standing
  exact absurd same (by decide)

end Silver.Client.Groups
