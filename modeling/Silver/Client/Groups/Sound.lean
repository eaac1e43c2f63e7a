import Silver.Client.Groups.Plans

/-!
# Groups whose members follow the engine

In every epoch of a group that only this engine's commits have moved, the tree
reads, the settings decode and name an admin, and whoever has proposed to leave
still stands in the tree.
-/

namespace Silver.Client.Groups

open Foundation Protocol Option

variable {engine : Engine keys}

/-- What holds of a group in every epoch. -/
structure Sound (keys : Keys) (group : Group) (view : View) : Prop where
  sees : Sees keys group view
  ciphersuite : group.context.ciphersuite = CIPHERSUITE
  required : .group ∈ group.context.extensions.required.getD [] ∧
    .seal ∈ group.context.extensions.required.getD []
  hasAdmin : view.extension.admins ≠ []
  leavingStand : ∀ index ∈ group.leaving, ∃ leaf, leafAt keys group.tree index = .ok leaf

/-- A commit made by the engine, on its way from one epoch to the next. -/
structure Committing {keys : Keys} (engine : Engine keys) (group : Group) (view : View)
    (index : Nat) (own : Leaf) (queue : List Nat) (made : List Proposal) (after : SilverGroup)
    (next : Tree) : Prop where
  sound : Sound keys group view
  owns : Owns engine group.tree index own
  stays : index ∉ group.leaving
  waiting : queue ⊆ group.leaving
  plan : Plan engine group.tree view index made after
  committerStays : index ∉ (stage engine group.context index queue made).removedIndices
  applied : next.nodes = (stage engine group.context index queue made).appliedNodes group.tree

namespace Committing

variable {group : Group}

section

variable (committing : Committing engine group view index own queue made after next)
include committing

theorem valid : (stage engine group.context index queue made).Valid group.tree group.context where
  committerStays := committing.committerStays
  updatesByMembers := by
    rw [updateProposals_stage committing.plan.noUpdates]
    simp
  updatedOnce := by
    rw [updateProposals_stage committing.plan.noUpdates]
    exact .nil
  applies := context_stage
  distinct := committing.applied ▸ next.distinct

theorem tree_eq : committing.valid.tree = next := by
  obtain ⟨nodes, _⟩ := next
  have same : nodes = _ := committing.applied
  subst same
  rfl

theorem updatesKeepAccounts :
    UpdatesKeepAccounts keys group.tree (stage engine group.context index queue made) := by
  intro _ listed
  rw [updateProposals_stage committing.plan.noUpdates] at listed
  cases listed

theorem committer :
    leafAt keys group.tree (stage engine group.context index queue made).sender = .ok own :=
  committing.owns.stands

theorem brings :
    ∃ reading, Brings keys group.tree (stage engine group.context index queue made) own.account
      reading ∧ reading.leaves = view.leaves := by
  have addsRead : ∀ node ∈ (stage engine group.context index queue made).addProposals, ∃ leaf,
      verifyLeaf keys node none = .ok leaf := by
    intro node listed
    rw [addProposals_stage, mem_addedBy] at listed
    obtain ⟨leaf, verified, -⟩ := committing.plan.adds node listed
    exact ⟨leaf, verified⟩
  have removedRead : ∀ proposal ∈
      (stage engine group.context index queue made).removeProposals, ∃ removal,
        removalOf view.leaves proposal = .ok removal := by
    intro proposal listed
    have stands : ∃ leaf, leafAt keys group.tree proposal.2 = .ok leaf := by
      rcases mem_removeProposals_stage listed with ⟨-, waiting⟩ | ⟨-, asked⟩
      · exact committing.sound.leavingStand _ (committing.waiting waiting)
      obtain ⟨-, leaf, standing, -⟩ := committing.plan.removes _ asked
      exact ⟨leaf, standing⟩
    obtain ⟨leaf, standing⟩ := stands
    exact ⟨_, (removalOf_eq_ok committing.sound.sees.leaves).mpr ⟨leaf, standing, rfl⟩⟩
  obtain ⟨adds, addPairs⟩ := exists_forall₂ addsRead
  obtain ⟨removed, removedPairs⟩ := exists_forall₂ removedRead
  refine ⟨{ adds := adds, leaves := view.leaves, removed := removed }, ⟨?_, ?_⟩, rfl⟩
  · exact ⟨addPairs, committing.sound.sees.leaves, removedPairs⟩
  intro update listed
  unfold StagedCommit.updated at listed
  rw [updateProposals_stage committing.plan.noUpdates] at listed
  obtain rfl : update = (engine.leafNode, some own.account) := by simpa using listed
  rw [committing.owns.account]
  exact ⟨engine.leaf, engine.verifyLeaf_leafNode_expected⟩

end

theorem notRemoved (notWaiting : other ∉ queue) (notAsked : .remove other ∉ made) :
    other ∉ (stage engine group.context index queue made).removedIndices := by
  rw [mem_removedIndices_stage]
  rintro (waiting | asked)
  · exact notWaiting waiting
  · exact notAsked asked

section

variable (committing : Committing engine group view index own queue made after next)
include committing

theorem leafAt_next {leaf : Leaf} (standing : leafAt keys group.tree other = .ok leaf)
    (kept : other ∉ (stage engine group.context index queue made).removedIndices) :
    ∃ fresh, leafAt keys next other = .ok fresh ∧ fresh.account = leaf.account := by
  obtain ⟨_, brings, -⟩ := committing.brings
  rw [← committing.tree_eq]
  exact leafAt_applied committing.valid brings committing.committer
    committing.updatesKeepAccounts standing kept

theorem settings : (stage engine group.context index queue made).context.ciphersuite = CIPHERSUITE ∧
      extensionOf (stage engine group.context index queue made).context.extensions = .ok after ∧
      (.group ∈ (stage engine group.context index queue made).context.extensions.required.getD [] ∧
        .seal ∈ (stage engine group.context index queue made).context.extensions.required.getD []) ∧
      after.admins ≠ [] := by
  rw [context_stage]
  unfold StagedCommit.appliedContext
  rw [contextProposals_stage]
  rcases committing.plan.settings with ⟨none, rfl⟩ | ⟨-, extensions, encoded, asked⟩
  · rw [none]
    exact ⟨committing.sound.ciphersuite, committing.sound.sees.extension,
      committing.sound.required, committing.sound.hasAdmin⟩
  rw [asked]
  obtain ⟨rfl, hasAdmin⟩ := contextExtensions_eq_ok encoded
  exact ⟨committing.sound.ciphersuite, rfl, by simp, hasAdmin⟩

theorem next_sound :
    ∃ reading later, Brings keys group.tree (stage engine group.context index queue made)
        own.account reading ∧ reading.leaves = view.leaves ∧
      Sound keys (Group.moved (stage engine group.context index queue made) next) later ∧
      later.extension = after ∧
      (later.leaves.map fun leaf => leaf.2.account).Perm reading.accountsAfter := by
  obtain ⟨reading, brings, sameLeaves⟩ := committing.brings
  obtain ⟨leaves, read, sameAccounts⟩ := leavesOf_applied committing.valid brings
    committing.committer committing.updatesKeepAccounts
  rw [committing.tree_eq] at read
  obtain ⟨suite, extension, required, hasAdmin⟩ := committing.settings
  refine ⟨reading, { record := Group.recordOf leaves after, leaves := leaves, extension := after },
    brings, sameLeaves, ?_, rfl, sameAccounts⟩
  exact
    { sees := ⟨read, extension, rfl⟩
      ciphersuite := suite
      required := required
      hasAdmin := hasAdmin
      leavingStand := by simp [Group.moved] }

theorem isAdmin_iff : view.extension.isAdmin own.account = view.record.isAdmin engine.account := by
  rw [committing.owns.account, Bool.eq_iff_iff, SilverGroup.isAdmin_iff,
    committing.sound.sees.isAdmin_iff]
  constructor
  · intro named
    exact ⟨named, (index, own), committing.sound.sees.mem_leaves.mpr committing.owns.stands,
      committing.owns.account⟩
  · exact And.left

end

end Committing

theorem Tree.ofNodes_eq_some {nodes : List (Option LeafNode)} {tree : Tree}
    (made : Tree.ofNodes nodes = some tree) : tree.nodes = nodes := by
  unfold Tree.ofNodes at made
  split at made
  · rw [← some.inj made]
  · cases made

theorem commit_cases {after : Group} {request : Request}
    (done : group.commit engine request queue = some after) :
    ∃ view index made next, Sees keys group view ∧ group.indexOf engine = some index ∧
      index ∉ group.leaving ∧ queue ⊆ group.leaving ∧
      proposals engine view request = .ok made ∧
      ∃ taken ⊆ queue, index ∉ (stage engine group.context index taken made).removedIndices ∧
        next.nodes = (stage engine group.context index taken made).appliedNodes group.tree ∧
        (after = Group.moved (stage engine group.context index taken made) next ∨
          ∃ reason, group.verdict keys (stage engine group.context index taken made)
              engine.account view.extension next = .error reason ∧
            after = { group with breach := some (engine.account, reason) }) := by
  unfold Group.commit at done
  obtain ⟨view, seen, done⟩ := bind_eq_some_iff.mp done
  obtain ⟨index, found, done⟩ := bind_eq_some_iff.mp done
  obtain ⟨_, present, done⟩ := bind_eq_some_iff.mp done
  obtain ⟨_, waiting, done⟩ := bind_eq_some_iff.mp done
  obtain ⟨made, asked, done⟩ := bind_eq_some_iff.mp done
  obtain ⟨_, stays, done⟩ := bind_eq_some_iff.mp done
  obtain ⟨next, built, done⟩ := bind_eq_some_iff.mp done
  have asked : proposals engine view request = .ok made := by
    cases proposed : proposals engine view request with
    | error error => simp [proposed, Except.toOption] at asked
    | ok =>
      simp only [proposed, Except.toOption, some.injEq] at asked
      rw [asked]
  refine ⟨view, index, made, next, view_eq_some.mp seen, found, by simpa using present,
    by simpa using waiting, asked, if consumesQueue engine view request then queue else [], ?_,
    by simpa using stays, Tree.ofNodes_eq_some built, ?_⟩
  · split
    · exact List.Subset.refl _
    · exact List.nil_subset _
  split at done
  · exact .inl (some.inj done).symm
  split at done
  · exact .inl (some.inj done).symm
  next reason refused => exact .inr ⟨reason, refused, (some.inj done).symm⟩

theorem leave_cases {after : Group} (done : group.leave engine = some after) :
    ∃ view index, Sees keys group view ∧ group.indexOf engine = some index ∧
      after = { group with leaving := index :: group.leaving } := by
  unfold Group.leave at done
  obtain ⟨view, seen, done⟩ := bind_eq_some_iff.mp done
  obtain ⟨index, found, done⟩ := bind_eq_some_iff.mp done
  obtain ⟨_, -, done⟩ := bind_eq_some_iff.mp done
  obtain ⟨_, -, done⟩ := bind_eq_some_iff.mp done
  exact ⟨view, index, view_eq_some.mp seen, found, (some.inj done).symm⟩

theorem Sound.leave {view : View}
    (sound : Sound keys group view) (found : group.indexOf engine = some index) :
    Sound keys { group with leaving := index :: group.leaving } view := by
  obtain ⟨own, owns⟩ := owns_of_indexOf sound.sees found
  refine
    { sound with
      sees := ⟨sound.sees.leaves, sound.sees.extension, sound.sees.record⟩
      leavingStand := ?_ }
  intro other going
  rcases List.mem_cons.mp going with rfl | earlier
  · exact ⟨own, owns.stands⟩
  · exact sound.leavingStand other earlier

theorem create_sound {name : String}
    (created : Group.create engine name inviteKey nowMs = .ok group) :
    ∃ view, Sound keys group view ∧ view.leaves = [(0, engine.leaf)] ∧
      view.extension.admins = [engine.account] ∧ group.leaving = [] ∧ group.breach = none := by
  unfold Group.create at created
  obtain ⟨_, -, created⟩ := bind_eq_ok.mp created
  obtain ⟨extension, made, created⟩ := bind_eq_ok.mp created
  obtain ⟨_, encoded, same⟩ := bind_eq_ok.mp created
  cases same
  have admins : extension.admins = [engine.account] := by
    have made := mapError_eq_ok.mp made
    unfold SilverGroup.new at made
    obtain ⟨_, -, same⟩ := bind_eq_ok.mp made
    rw [← Except.ok.inj same]
  obtain ⟨rfl, hasAdmin⟩ := contextExtensions_eq_ok encoded
  refine ⟨{ record := Group.recordOf [(0, engine.leaf)] extension
            leaves := [(0, engine.leaf)]
            extension := extension }, ?_, rfl, admins, rfl, rfl⟩
  exact
    { sees :=
        { leaves := leavesOf_eq_ok.mpr (.cons ⟨rfl, engine.verifyLeaf_leafNode⟩ .nil)
          extension := rfl
          record := rfl }
      ciphersuite := rfl
      required := by simp
      hasAdmin := hasAdmin
      leavingStand := by simp }

end Silver.Client.Groups
