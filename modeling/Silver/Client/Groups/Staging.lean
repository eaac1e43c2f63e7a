import Silver.Client.Groups.Rules
import Silver.Client.Groups.Running

/-!
# What a staged commit carries

A commit the engine makes carries the proposals of its request and the removals
taken from the queue, whatever MLS drops as said twice.  The request's proposals
keep to a plan: they add leaves that verify, remove leaves that stand, and change
the settings only for an admin.
-/

namespace Silver.Client.Groups

open Foundation Protocol DeviceCertificate List Proposal Sender

variable {keys : Keys}

namespace Engine

theorem verify_without_countersignature {certificate : DeviceCertificate}
    (verified : certificate.verify keys = .ok ()) :
    ({ certificate with deviceSignature := none } : DeviceCertificate).verify keys = .ok () := by
  unfold verify at verified ⊢
  obtain ⟨_, named, rest⟩ := bind_eq_ok.mp verified
  refine bind_eq_ok.mpr ⟨(), named, ?_⟩
  split at rest
  · cases rest
  next other =>
    rw [if_neg other]
    cases holds : keys.verify certificate.account DEVICE_DOMAIN
        (signedBytes certificate.account certificate.device
          certificate.createdAtMs certificate.name) certificate.signature with
    | false => simp [holds] at rest
    | true => simp [holds]

theorem verifyLeaf_leafNode (engine : Engine keys) :
    verifyLeaf keys engine.leafNode none = .ok engine.leaf := by
  have identity : identityOf keys engine.leafNode = .ok (engine.account, engine.identity) := by
    cases linked : engine.certificate with
    | none =>
      have own : engine.account = engine.identity := by rw [account, linked]
      rw [own]
      simp [identityOf, leafNode, own, engine.identity.length_data, engine.identityIsKey]
    | some certificate =>
      obtain ⟨verified, device, accountIsKey⟩ := engine.certified certificate linked
      have named : engine.account = certificate.account := by rw [account, linked]
      have carried : engine.leafNode.device =
          some (.ok { certificate with deviceSignature := none }) := by
        simp [leafNode, linked]
      have read := identityOf_certified (named ▸ accountIsKey) rfl carried named.symm
        (by rw [leafNode, device]) (verify_without_countersignature verified)
      rw [read, device]
  unfold verifyLeaf
  refine bind_eq_ok.mpr ⟨_, identity, ?_⟩
  exact refuseIf_bind_eq_ok.mpr ⟨rfl, rfl⟩

theorem verifyLeaf_leafNode_expected (engine : Engine keys) :
    verifyLeaf keys engine.leafNode (some engine.account) = .ok engine.leaf := by
  have verified := engine.verifyLeaf_leafNode
  unfold verifyLeaf at verified ⊢
  obtain ⟨⟨account, device⟩, read, rest⟩ := bind_eq_ok.mp verified
  obtain ⟨-, sealed⟩ := refuseIf_bind_eq_ok.mp rest
  have same : account = engine.account := by
    have := congrArg Leaf.account (Except.ok.inj sealed)
    exact this
  exact bind_eq_ok.mpr ⟨(account, device), read, refuseIf_bind_eq_ok.mpr ⟨by simp [same], sealed⟩⟩

end Engine

section Duplicates

theorem mem_of_mem_keepLastRemoves {proposal : QueuedProposal}
    (kept : proposal ∈ keepLastRemoves queued) : proposal ∈ queued := by
  fun_induction keepLastRemoves queued with
  | case1 => exact kept
  | case2 first rest index said _ ih => exact .tail _ (ih kept)
  | case3 first rest index said _ ih | case4 first rest _ ih =>
    rcases mem_cons.mp kept with rfl | later
    · exact .head _
    · exact .tail _ (ih later)

theorem filterMap_keepLastRemoves
    (others : ∀ proposal index, proposal.proposal = .remove index → select proposal = none) :
    (keepLastRemoves queued).filterMap select = queued.filterMap select := by
  fun_induction keepLastRemoves queued with
  | case1 => rfl
  | case2 first rest index said _ ih => rw [filterMap_cons_none (others first index said), ih]
  | case3 first rest index said _ ih | case4 first rest _ ih =>
    rw [filterMap_cons, filterMap_cons, ih]

theorem exists_keepLastRemoves (removed : ∃ proposal ∈ queued, proposal.proposal = .remove index) :
    ∃ proposal ∈ keepLastRemoves queued, proposal.proposal = .remove index := by
  fun_induction keepLastRemoves queued with
  | case1 => exact removed
  | case2 first rest number said again ih =>
    apply ih
    obtain ⟨proposal, listed, same⟩ := removed
    rcases mem_cons.mp listed with rfl | later
    · obtain rfl : number = index := remove.inj (said.symm.trans same)
      obtain ⟨other, otherListed, otherSame⟩ := any_eq_true.mp again
      exact ⟨other, otherListed, by simpa using otherSame⟩
    · exact ⟨proposal, later, same⟩
  | case3 first rest _ _ _ ih | case4 first rest _ ih =>
    obtain ⟨proposal, listed, same⟩ := removed
    rcases mem_cons.mp listed with rfl | later
    · exact ⟨proposal, .head _, same⟩
    obtain ⟨kept, keptListed, keptSame⟩ := ih ⟨proposal, later, same⟩
    exact ⟨kept, .tail _ keptListed, keptSame⟩

end Duplicates

def settingsOf (made : List Proposal) : List ContextExtensions :=
  made.filterMap fun proposal =>
    match proposal with
    | .groupContextExtensions extensions => some extensions
    | _ => none

def addedBy (made : List Proposal) : List LeafNode :=
  made.filterMap fun proposal =>
    match proposal with
    | .add leaf => some leaf
    | _ => none

theorem mem_addedBy {made : List Proposal} : node ∈ addedBy made ↔ .add node ∈ made := by
  unfold addedBy
  rw [mem_filterMap]
  constructor
  · rintro ⟨proposal, listed, same⟩
    cases proposal with
    | add leaf =>
      cases same
      exact listed
    | update leaf | remove | groupContextExtensions => cases same
  intro listed
  exact ⟨_, listed, rfl⟩

section Stage

theorem filterMap_stage
    (others : ∀ proposal index, proposal.proposal = .remove index → select proposal = none)
    (picks : ∀ proposal, select { proposal := proposal, sender := .member sender } = pick proposal) :
    (stage engine context sender queue made).proposals.filterMap select = made.filterMap pick := by
  have unfolded : (stage engine context sender queue made).proposals = keepLastRemoves
        ((queue.map fun index => { proposal := remove index, sender := member index }) ++
          made.map fun proposal => { proposal := proposal, sender := member sender }) := rfl
  rw [unfolded, filterMap_keepLastRemoves others, filterMap_append, filterMap_map, filterMap_map]
  have nothing : queue.filterMap (select ∘ fun index =>
      { proposal := remove index, sender := member index }) = [] := by
    rw [filterMap_eq_nil_iff]
    intro index _
    exact others _ index rfl
  rw [nothing, nil_append]
  apply filterMap_congr
  intro proposal _
  exact picks proposal

theorem addProposals_stage :
    (stage engine context sender queue made).addProposals = addedBy made := by
  apply filterMap_stage
  · rintro ⟨proposal, _⟩ _ rfl
    rfl
  intro proposal
  cases proposal <;> rfl

theorem contextProposals_stage :
    (stage engine context sender queue made).contextProposals = settingsOf made := by
  apply filterMap_stage
  · rintro ⟨proposal, _⟩ _ rfl
    rfl
  intro proposal
  cases proposal <;> rfl

theorem updateProposals_stage (noUpdates : ∀ node, .update node ∉ made) :
    (stage engine context sender queue made).updateProposals = [] := by
  rw [eq_nil_iff_forall_not_mem]
  intro _ listed
  obtain ⟨_, kept, same⟩ := mem_filterMap.mp listed
  rcases mem_append.mp (mem_of_mem_keepLastRemoves kept) with early | late
  · obtain ⟨_, -, rfl⟩ := mem_map.mp early
    cases same
  obtain ⟨inline, asked, rfl⟩ := mem_map.mp late
  cases inline with
  | update leaf => exact noUpdates leaf asked
  | add | remove | groupContextExtensions => cases same

theorem mem_removeProposals_stage {proposal : Sender × Nat}
    (listed : proposal ∈ (stage engine context sender queue made).removeProposals) :
    (proposal.1 = .member proposal.2 ∧ proposal.2 ∈ queue) ∨
      (proposal.1 = .member sender ∧ .remove proposal.2 ∈ made) := by
  obtain ⟨_, kept, same⟩ := mem_filterMap.mp listed
  have carried := mem_of_mem_keepLastRemoves kept
  rcases mem_append.mp carried with early | late
  · obtain ⟨index, waiting, rfl⟩ := mem_map.mp early
    cases same
    exact .inl ⟨rfl, waiting⟩
  obtain ⟨inline, asked, rfl⟩ := mem_map.mp late
  cases inline with
  | remove index =>
    cases same
    exact .inr ⟨rfl, asked⟩
  | add leaf | update leaf | groupContextExtensions => cases same

theorem mem_removedIndices_stage : index ∈ (stage engine context sender queue made).removedIndices ↔
      index ∈ queue ∨ .remove index ∈ made := by
  unfold StagedCommit.removedIndices
  rw [mem_map]
  constructor
  · rintro ⟨proposal, listed, rfl⟩
    rcases mem_removeProposals_stage listed with ⟨-, waiting⟩ | ⟨-, asked⟩
    · exact .inl waiting
    · exact .inr asked
  intro removed
  have carried : ∃ queued ∈ (queue.map fun index =>
        { proposal := remove index, sender := member index : QueuedProposal }) ++
      made.map fun proposal => { proposal := proposal, sender := member sender },
      queued.proposal = .remove index := by
    rcases removed with waiting | asked
    · exact ⟨_, mem_append_left _ (mem_map.mpr ⟨index, waiting, rfl⟩), rfl⟩
    · exact ⟨_, mem_append_right _ (mem_map.mpr ⟨_, asked, rfl⟩), rfl⟩
  obtain ⟨⟨proposal, sentBy⟩, kept, rfl⟩ := exists_keepLastRemoves carried
  exact ⟨(sentBy, index), mem_filterMap.mpr ⟨_, kept, rfl⟩, rfl⟩

@[simp] theorem sender_stage : (stage engine context sender queue made).sender = sender := rfl

@[simp] theorem path_stage :
    (stage engine context sender queue made).path = some engine.leafNode := rfl

theorem context_stage : (stage engine context sender queue made).context =
      (stage engine context sender queue made).appliedContext context := rfl

end Stage

end Silver.Client.Groups
