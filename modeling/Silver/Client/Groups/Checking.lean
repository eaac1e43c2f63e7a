import Silver.Client.Groups.Commit

/-!
# What the check of a commit establishes

`checkCommit` passes exactly on the commits that meet the rules listed by
`Accepted`, and the tree such a commit leads to is put together from the leaves
that stay and those that are added.
-/

namespace Silver.Client.Groups

open Foundation Protocol CommitReading List

variable {keys : Keys}

section Reading

/-- The parts a commit is read into. -/
structure Reads (keys : Keys) (tree : Tree) (staged : StagedCommit) (reading : CommitReading) :
    Prop where
  adds : List.Forall₂ (fun node leaf => verifyLeaf keys node none = .ok leaf)
    staged.addProposals reading.adds
  leaves : leavesOf keys tree = .ok reading.leaves
  removed : List.Forall₂ (fun proposal removal => removalOf reading.leaves proposal = .ok removal)
    staged.removeProposals reading.removed

theorem readCommit_eq_ok :
    readCommit keys tree staged = .ok reading ↔ Reads keys tree staged reading := by
  unfold readCommit
  constructor
  · intro read
    obtain ⟨adds, addsRead, rest⟩ := bind_eq_ok.mp read
    obtain ⟨leaves, leavesRead, rest⟩ := bind_eq_ok.mp rest
    obtain ⟨removed, removedRead, same⟩ := bind_eq_ok.mp rest
    cases same
    exact ⟨mapM_eq_ok.mp (mapError_eq_ok.mp addsRead), mapError_eq_ok.mp leavesRead,
      mapM_eq_ok.mp removedRead⟩
  rintro ⟨adds, leaves, removed⟩
  refine bind_eq_ok.mpr ⟨reading.adds, mapError_eq_ok.mpr (mapM_eq_ok.mpr adds), ?_⟩
  refine bind_eq_ok.mpr ⟨reading.leaves, mapError_eq_ok.mpr leaves, ?_⟩
  exact bind_eq_ok.mpr ⟨reading.removed, mapM_eq_ok.mpr removed, rfl⟩

theorem removalOf_eq_ok {leaves : List (Nat × Leaf)} (read : leavesOf keys tree = .ok leaves)
    {proposal : Sender × Nat} :
    removalOf leaves proposal = .ok removal ↔ ∃ leaf, leafAt keys tree proposal.2 = .ok leaf ∧
        removal =
          { index := proposal.2, who := leaf.account,
            bySelf := proposal.1 = .member proposal.2 } := by
  unfold removalOf
  constructor
  · intro given
    split at given
    · cases given
    next found search =>
      cases given
      have listed := mem_of_find?_eq_some search
      have sameIndex : found.1 = proposal.2 := by simpa using find?_some search
      exact ⟨found.2, (mem_leavesOf read).mp (by rw [← sameIndex]; exact listed), rfl⟩
  rintro ⟨leaf, standing, rfl⟩
  have listed := (mem_leavesOf read).mpr standing
  split
  next search =>
    have absent := find?_eq_none.mp search _ listed
    simp at absent
  next found search =>
    have found_mem := mem_of_find?_eq_some search
    have sameIndex : found.1 = proposal.2 := by simpa using find?_some search
    have again := (mem_leavesOf read).mp
      (show (proposal.2, found.2) ∈ leaves by rw [← sameIndex]; exact found_mem)
    rw [Except.ok.inj (again.symm.trans standing)]

namespace Reads

variable (reads : Reads keys tree staged reading)
include reads

theorem map_index : reading.removed.map Removal.index = staged.removedIndices := by
  have pairs := reads.removed
  unfold StagedCommit.removedIndices
  revert pairs
  generalize reading.removed = removed
  generalize staged.removeProposals = proposals
  intro pairs
  induction pairs with
  | nil => rfl
  | cons pair _ ih =>
    obtain ⟨_, -, rfl⟩ := (removalOf_eq_ok reads.leaves).mp pair
    simp [ih]

theorem mem_staying {leaf : Leaf} :
    (index, leaf) ∈ reading.staying ↔
      leafAt keys tree index = .ok leaf ∧ index ∉ staged.removedIndices := by
  unfold staying
  rw [mem_filter, mem_leavesOf reads.leaves, reads.map_index]
  simp

theorem mem_accountsAfter {account : UserId} :
    account ∈ reading.accountsAfter ↔
      (∃ index leaf, leafAt keys tree index = .ok leaf ∧ index ∉ staged.removedIndices ∧
        leaf.account = account) ∨
      ∃ node ∈ staged.addProposals, ∃ leaf, verifyLeaf keys node none = .ok leaf ∧
        leaf.account = account := by
  unfold accountsAfter
  rw [mem_append, mem_map, mem_map]
  constructor
  · rintro (⟨⟨index, leaf⟩, listed, rfl⟩ | ⟨leaf, listed, rfl⟩)
    · obtain ⟨standing, kept⟩ := reads.mem_staying.mp listed
      exact .inl ⟨index, leaf, standing, kept, rfl⟩
    obtain ⟨node, proposed, verified⟩ := exists_of_mem_right reads.adds listed
    exact .inr ⟨node, proposed, leaf, verified, rfl⟩
  rintro (⟨index, leaf, standing, kept, rfl⟩ | ⟨node, proposed, leaf, verified, rfl⟩)
  · exact .inl ⟨(index, leaf), reads.mem_staying.mpr ⟨standing, kept⟩, rfl⟩
  obtain ⟨found, listed, read⟩ := exists_of_mem_left reads.adds proposed
  obtain rfl := Except.ok.inj (read.symm.trans verified)
  exact .inr ⟨found, listed, rfl⟩

end Reads

end Reading

/-- The rules a commit has to meet. -/
structure Accepted (keys : Keys) (tree : Tree) (staged : StagedCommit) (committer : UserId)
    (before : SilverGroup) (reading : CommitReading) (after : SilverGroup) : Prop where
  reads : Reads keys tree staged reading
  ownAdds : before.isAdmin committer = false → ∀ leaf ∈ reading.adds, leaf.account = committer
  ownRemoves : before.isAdmin committer = false →
    ∀ removal ∈ reading.removed, removal.who = committer ∨ removal.bySelf = true
  settings : before.isAdmin committer = false → staged.changesContext = false
  ciphersuite : staged.context.ciphersuite = CIPHERSUITE
  extension : extensionOf staged.context.extensions = .ok after
  required : .group ∈ staged.context.extensions.required.getD [] ∧
    .seal ∈ staged.context.extensions.required.getD []
  hasAdmin : after.admins ≠ []
  adminsStay : ∀ admin ∈ after.admins, admin ∈ reading.accountsAfter ∨ admin ∈ reading.leftBySelf
  fewIdentities : reading.identitiesAfter.length ≤ MAX_MEMBERS
  fewDevices : ∀ who, reading.accountsAfter.count who ≤ MAX_DEVICES
  updates : ∀ update ∈ staged.updated committer, ∃ fresh,
    verifyLeaf keys update.1 update.2 = .ok fresh ∧
      ∃ old ∈ reading.leaves, old.2.account = fresh.account ∧ old.2.device = fresh.device

section Parts

variable {reading : CommitReading}

theorem checkRights_eq_ok : checkRights reading staged committer admin = .ok result ↔
      (admin = false → ∀ leaf ∈ reading.adds, leaf.account = committer) ∧
      (admin = false → ∀ removal ∈ reading.removed,
        removal.who = committer ∨ removal.bySelf = true) ∧
      (admin = false → staged.changesContext = false) := by
  unfold checkRights
  rw [refuseIf_bind_eq_ok, refuseIf_bind_eq_ok, refuseIf_eq_ok]
  cases admin with
  | true => simp
  | false => simp [or_iff_not_imp_left]

theorem checkContext_eq_ok {context : GroupContext} {after : SilverGroup} :
    checkContext context = .ok after ↔
      context.ciphersuite = CIPHERSUITE ∧ extensionOf context.extensions = .ok after ∧
        (.group ∈ context.extensions.required.getD [] ∧
          .seal ∈ context.extensions.required.getD []) ∧ after.admins ≠ [] := by
  unfold checkContext
  rw [refuseIf_bind_eq_ok, bind_eq_ok]
  constructor
  · rintro ⟨suite, _, read, rest⟩
    obtain ⟨required, rest⟩ := refuseIf_bind_eq_ok.mp rest
    obtain ⟨hasAdmin, same⟩ := refuseIf_bind_eq_ok.mp rest
    cases same
    exact ⟨by simpa using suite, mapError_eq_ok.mp read, by simpa using required,
      by simpa using hasAdmin⟩
  rintro ⟨suite, read, required, hasAdmin⟩
  refine ⟨by simpa using suite, after, mapError_eq_ok.mpr read, ?_⟩
  apply refuseIf_bind_eq_ok.mpr
  refine ⟨by simpa using required, ?_⟩
  exact refuseIf_bind_eq_ok.mpr ⟨by simpa using hasAdmin, rfl⟩

theorem overfull_eq_none :
    reading.overfull = none ↔ ∀ who, reading.accountsAfter.count who ≤ MAX_DEVICES := by
  unfold overfull
  rw [find?_eq_none]
  constructor
  · intro none who
    by_cases listed : who ∈ reading.accountsAfter
    · simpa using none who listed
    rw [count_eq_zero_of_not_mem listed]
    omega
  intro few who _
  simpa using few who

theorem checkMembership_eq_ok {after : SilverGroup} : checkMembership reading after = .ok result ↔
      (∀ admin ∈ after.admins, admin ∈ reading.accountsAfter ∨ admin ∈ reading.leftBySelf) ∧
      reading.identitiesAfter.length ≤ MAX_MEMBERS ∧
      ∀ who, reading.accountsAfter.count who ≤ MAX_DEVICES := by
  unfold checkMembership
  rw [refuseIf_bind_eq_ok, refuseIf_bind_eq_ok, ← overfull_eq_none]
  have admins : (after.admins.any fun admin =>
        admin ∉ reading.identitiesAfter && admin ∉ reading.leftBySelf) = false ↔
      ∀ admin ∈ after.admins, admin ∈ reading.accountsAfter ∨ admin ∈ reading.leftBySelf := by
    simp [identitiesAfter, or_iff_not_imp_left]
  rw [admins]
  apply and_congr_right
  intro _
  rw [decide_eq_false_iff_not, Nat.not_lt]
  apply and_congr_right
  intro fewIdentities
  cases search : reading.overfull with
  | some who => simp
  | none =>
    have few := (length_le_of_count_le (overfull_eq_none.mp search)).trans
      (Nat.mul_le_mul_right MAX_DEVICES fewIdentities)
    simpa using few

theorem checkUpdated_eq_ok {leaves : List (Nat × Leaf)} {update : LeafNode × Option UserId} :
    checkUpdated keys leaves update = .ok result ↔
      ∃ fresh, verifyLeaf keys update.1 update.2 = .ok fresh ∧
        ∃ old ∈ leaves, old.2.account = fresh.account ∧ old.2.device = fresh.device := by
  unfold checkUpdated
  rw [bind_eq_ok]
  simp

end Parts

theorem checkCommit_eq_ok {keys : Keys} {tree : Tree} {staged : StagedCommit} {committer : UserId}
    {before : SilverGroup} {change : Change} :
    checkCommit keys tree staged committer before = .ok change ↔
      ∃ reading after, Accepted keys tree staged committer before reading after ∧
        change = reading.change := by
  unfold checkCommit
  constructor
  · intro passed
    obtain ⟨reading, read, rest⟩ := bind_eq_ok.mp passed
    obtain ⟨_, rights, rest⟩ := bind_eq_ok.mp rest
    obtain ⟨after, context, rest⟩ := bind_eq_ok.mp rest
    obtain ⟨_, membership, rest⟩ := bind_eq_ok.mp rest
    obtain ⟨_, updates, same⟩ := bind_eq_ok.mp rest
    obtain ⟨ownAdds, ownRemoves, settings⟩ := checkRights_eq_ok.mp rights
    obtain ⟨suite, extension, required, hasAdmin⟩ := checkContext_eq_ok.mp context
    obtain ⟨adminsStay, fewIdentities, fewDevices⟩ := checkMembership_eq_ok.mp membership
    refine ⟨reading, after, ?_, (Except.ok.inj same).symm⟩
    exact
      { reads := readCommit_eq_ok.mp read
        ownAdds := ownAdds
        ownRemoves := ownRemoves
        settings := settings
        ciphersuite := suite
        extension := extension
        required := required
        hasAdmin := hasAdmin
        adminsStay := adminsStay
        fewIdentities := fewIdentities
        fewDevices := fewDevices
        updates := fun update listed =>
          checkUpdated_eq_ok.mp (forM_eq_ok.mp updates update listed) }
  rintro ⟨reading, after, accepted, rfl⟩
  refine bind_eq_ok.mpr ⟨reading, readCommit_eq_ok.mpr accepted.reads, ?_⟩
  refine bind_eq_ok.mpr ⟨(), checkRights_eq_ok.mpr
    ⟨accepted.ownAdds, accepted.ownRemoves, accepted.settings⟩, ?_⟩
  refine bind_eq_ok.mpr ⟨after, checkContext_eq_ok.mpr
    ⟨accepted.ciphersuite, accepted.extension, accepted.required, accepted.hasAdmin⟩, ?_⟩
  refine bind_eq_ok.mpr ⟨(), checkMembership_eq_ok.mpr
    ⟨accepted.adminsStay, accepted.fewIdentities, accepted.fewDevices⟩, ?_⟩
  refine bind_eq_ok.mpr ⟨(), forM_eq_ok.mpr ?_, rfl⟩
  intro update listed
  exact checkUpdated_eq_ok.mpr (accepted.updates update listed)

end Silver.Client.Groups
