import Silver.Client.Groups.Admins

/-!
# Commits of the engine and the rules of the other members

The rules a commit is checked by hold of every commit the engine makes, as long
as every admin the settings name keeps a leaf that is not on its way out and no
account puts more leaves into the group than the rules count.
-/

namespace Silver.Client.Groups

open Foundation Protocol CommitReading List Trio

variable {keys : Keys}

def Remains (view : View) (leaving : List Nat) (user : UserId) : Prop :=
  ∃ leaf ∈ view.leaves, leaf.2.account = user ∧ leaf.1 ∉ leaving
deriving Decidable

def FewLeaves (accounts : List UserId) : Prop :=
  ∀ who ∈ accounts, accounts.count who <= MAX_DEVICES
deriving Decidable

def RemovesCarefully (view : View) (leaving : List Nat) (device : UserId) : Prop :=
  ∀ leaf ∈ view.leaves, leaf.2.device = device -> leaf.2.account ∈ view.extension.admins ->
    (view.record.devicesOf leaf.2.account).length = 1 ∨
      ∃ other ∈ view.leaves, other.2.account = leaf.2.account ∧ other.2.device ≠ device ∧
        other.1 ∉ leaving
deriving Decidable

def CarefulRequest (keys : Keys) (view : View) (leaving : List Nat) : Request -> Prop
  | .add packages =>
    FewLeaves ((view.leaves.map fun leaf => leaf.2.account) ++ packages.filterMap (accountOf keys))
  | .removeDevice device => RemovesCarefully view leaving device
  | .admin user true => Remains view leaving user
  | .rejoin _ package => FromSameAccount keys view package
  | _ => True

def CarefulLeave (view : View) (leaving : List Nat) (user : UserId) : Prop :=
  user ∈ view.extension.admins -> Remains view leaving user ∨ ∀ leaf ∈ view.leaves, leaf.1 ∈ leaving

def Careful (keys : Keys) (group : Group) : Move keys -> Prop
  | .commit _ request _ => ∀ view ∈ group.view keys, CarefulRequest keys view group.leaving request
  | .leave engine =>
    ∀ view ∈ group.view keys, ∀ index ∈ group.indexOf engine,
      CarefulLeave view (index :: group.leaving) engine.account

instance (keys : Keys) (view : View) (leaving : List Nat) :
    (request : Request) -> Decidable (CarefulRequest keys view leaving request)
  | .add _ => inferInstanceAs (Decidable (FewLeaves _))
  | .removeDevice device => inferInstanceAs (Decidable (RemovesCarefully view leaving device))
  | .admin user true => inferInstanceAs (Decidable (Remains view leaving user))
  | .rejoin _ package => inferInstanceAs (Decidable (FromSameAccount keys view package))
  | .admin _ false | .remove _ | .rename _ | .linkReset _ | .selfUpdate =>
    inferInstanceAs (Decidable True)

instance (view : View) (leaving : List Nat) (user : UserId) :
    Decidable (CarefulLeave view leaving user) :=
  inferInstanceAs (Decidable (_ -> (_ ∨ ∀ leaf ∈ _, _)))

instance (keys : Keys) (group : Group) : (move : Move keys) -> Decidable (Careful keys group move)
  | .commit _ request _ =>
    inferInstanceAs (Decidable (∀ view ∈ group.view keys,
      CarefulRequest keys view group.leaving request))
  | .leave engine =>
    inferInstanceAs (Decidable (∀ view ∈ group.view keys, ∀ index ∈ group.indexOf engine,
      CarefulLeave view (index :: group.leaving) engine.account))

/-- What holds of a group nobody has broken, and will not break. -/
structure Peaceful (keys : Keys) (group : Group) (view : View) : Prop where
  sound : Sound keys group view
  unbroken : group.breach = none
  fewIdentities : (view.leaves.map fun leaf => leaf.2.account).eraseDups.length <= MAX_MEMBERS
  fewDevices : ∀ who, (view.leaves.map fun leaf => leaf.2.account).count who <= MAX_DEVICES
  adminsRemain : (∃ leaf ∈ view.leaves, leaf.1 ∉ group.leaving) ->
    ∀ admin ∈ view.extension.admins, Remains view group.leaving admin

/-- The membership a commit leads to is one the rules allow. -/
structure Fits (reading : CommitReading) (after : SilverGroup) : Prop where
  admins : ∀ admin ∈ after.admins, admin ∈ reading.accountsAfter
  identities : reading.identitiesAfter.length <= MAX_MEMBERS
  devices : ∀ who, reading.accountsAfter.count who <= MAX_DEVICES

section Committing

variable {engine : Engine keys} {group : Group} {view : View} {next : Tree}
  {own : Leaf} {after : SilverGroup}
  {reading : CommitReading}

theorem staying_sublist (sameLeaves : reading.leaves = view.leaves) :
    (reading.staying.map fun leaf => leaf.2.account).Sublist
      (view.leaves.map fun leaf => leaf.2.account) := by
  unfold staying
  rw [sameLeaves]
  exact filter_sublist.map _

section Brought

variable (brings : Brings keys group.tree (stage engine group.context index queue made) own.account
      reading)
include brings

theorem map_account_adds
    {leaves : List Leaf}
    (pairs : List.Forall₂ (fun node leaf => verifyLeaf keys node none = .ok leaf)
      (addedBy made) leaves) :
    reading.adds = leaves := by
  have others := brings.reads.adds
  rw [addProposals_stage] at others
  revert others pairs
  generalize addedBy made = nodes
  generalize reading.adds = adds
  intro pairs others
  induction pairs generalizing adds with
  | nil =>
    cases others
    rfl
  | cons pair _ ih =>
    cases others with
    | cons other rest => rw [Except.ok.inj (other.symm.trans pair), ih _ rest]

theorem Committing.mem_accountsAfter
    (commits : Committing engine group view index own queue made after next)
    {leaf : Nat × Leaf} (listed : leaf ∈ view.leaves)
    (remains : leaf.1 ∉ group.leaving) (kept : .remove leaf.1 ∉ made) :
    leaf.2.account ∈ reading.accountsAfter := by
  apply brings.reads.mem_accountsAfter.mpr
  refine .inl ⟨leaf.1, leaf.2, commits.sound.sees.mem_leaves.mp listed, ?_, rfl⟩
  exact Committing.notRemoved (fun waiting => remains (commits.waiting waiting)) kept

variable (sameLeaves : reading.leaves = view.leaves)
include sameLeaves

theorem Committing.accepted (commits : Committing engine group view index own queue made after next)
    (fits : Fits reading after) :
    Accepted keys group.tree (stage engine group.context index queue made) own.account
      view.extension reading after := by
  obtain ⟨suite, extension, required, hasAdmin⟩ := commits.settings
  have sameAdmin := commits.isAdmin_iff
  refine
    { reads := brings.reads
      ownAdds := ?_
      ownRemoves := ?_
      settings := ?_
      ciphersuite := suite
      extension := extension
      required := required
      hasAdmin := hasAdmin
      adminsStay := fun admin named => .inl (fits.admins admin named)
      fewIdentities := fits.identities
      fewDevices := fits.devices
      updates := ?_ }
  · intro notAdmin leaf listed
    rw [sameAdmin] at notAdmin
    obtain ⟨node, proposed, verified⟩ := exists_of_mem_right brings.reads.adds listed
    rw [addProposals_stage, mem_addedBy] at proposed
    obtain ⟨found, again, permitted⟩ := commits.plan.adds node proposed
    obtain rfl := Except.ok.inj (again.symm.trans verified)
    rw [commits.owns.account]
    exact permitted notAdmin
  · intro notAdmin _ listed
    rw [sameAdmin] at notAdmin
    obtain ⟨_, proposed, read⟩ := exists_of_mem_right brings.reads.removed listed
    obtain ⟨leaf, standing, rfl⟩ := (removalOf_eq_ok brings.reads.leaves).mp read
    rcases mem_removeProposals_stage proposed with ⟨bySelf, -⟩ | ⟨-, asked⟩
    · exact .inr (by simpa using bySelf)
    obtain ⟨-, found, again, permitted⟩ := commits.plan.removes _ asked
    obtain rfl := Except.ok.inj (again.symm.trans standing)
    rw [commits.owns.account]
    exact .inl (permitted notAdmin)
  · intro notAdmin
    rw [sameAdmin] at notAdmin
    unfold StagedCommit.changesContext
    rw [contextProposals_stage]
    rcases commits.plan.settings with ⟨none, -⟩ | ⟨isAdmin, -⟩
    · simp [none]
    rw [notAdmin] at isAdmin
    cases isAdmin
  intro update listed
  unfold StagedCommit.updated at listed
  rw [updateProposals_stage commits.plan.noUpdates] at listed
  obtain rfl : update = (engine.leafNode, some own.account) := by simpa using listed
  rw [commits.owns.account]
  refine ⟨engine.leaf, engine.verifyLeaf_leafNode_expected, (index, own), ?_,
    commits.owns.account, commits.owns.device⟩
  rw [sameLeaves]
  exact commits.sound.sees.mem_leaves.mpr commits.owns.stands

variable (admins : ∀ admin ∈ after.admins, admin ∈ reading.accountsAfter)
include admins

theorem Peaceful.fits_without_adds (peaceful : Peaceful keys group view)
    (none : addedBy made = []) :
    Fits reading after := by
  have noAdds : reading.adds = [] := map_account_adds brings (none ▸ .nil)
  have fewer : reading.accountsAfter.Sublist (view.leaves.map fun leaf => leaf.2.account) := by
    unfold accountsAfter
    rw [noAdds, map_nil, append_nil]
    exact staying_sublist sameLeaves
  refine ⟨admins, ?_, ?_⟩
  · exact (length_eraseDups_le fewer.subset).trans peaceful.fewIdentities
  intro who
  exact (fewer.count_le who).trans (peaceful.fewDevices who)

theorem fits_added {leaves : List Leaf}
    (pairs : List.Forall₂ (fun node leaf => verifyLeaf keys node none = .ok leaf)
      (addedBy made) leaves)
    (room : ((view.leaves.map fun leaf => leaf.2.account).eraseDups ++
      leaves.map Leaf.account).eraseDups.length <= MAX_MEMBERS)
    (few : FewLeaves ((view.leaves.map fun leaf => leaf.2.account) ++
      (addedBy made).filterMap (accountOf keys))) :
    Fits reading after := by
  have adds : reading.adds = leaves := map_account_adds brings pairs
  have accounts : (addedBy made).filterMap (accountOf keys) = leaves.map Leaf.account := by
    clear few brings
    revert pairs
    generalize addedBy made = nodes
    intro pairs
    clear adds room
    induction pairs with
    | nil => rfl
    | cons pair _ ih => rw [filterMap_cons_some (accountOf_eq pair), ih, map_cons]
  rw [accounts] at few
  have fewer : reading.accountsAfter.Sublist
      ((view.leaves.map fun leaf => leaf.2.account) ++ leaves.map Leaf.account) := by
    unfold accountsAfter
    rw [adds]
    exact (staying_sublist sameLeaves).append (List.Sublist.refl _)
  refine ⟨admins, ?_, ?_⟩
  · refine (length_eraseDups_le ?_).trans room
    intro account listed
    have within := fewer.subset listed
    rw [mem_append] at within ⊢
    rwa [mem_eraseDups]
  intro who
  refine (fewer.count_le who).trans ?_
  by_cases listed : who ∈ (view.leaves.map fun leaf => leaf.2.account) ++ leaves.map Leaf.account
  · exact few who listed
  rw [count_eq_zero_of_not_mem listed]
  omega

theorem Peaceful.fits_replaced (peaceful : Peaceful keys group view)
    (commits : Committing engine group view index own queue made after next)
    {leaf fresh : Leaf}
    (standing : leafAt keys group.tree other = .ok leaf) (removed : .remove other ∈ made)
    (added : addedBy made = [package]) (verified : verifyLeaf keys package none = .ok fresh)
    (sameAccount : leaf.account = fresh.account) :
    Fits reading after := by
  have adds : reading.adds = [fresh] := map_account_adds brings (added ▸ .cons verified .nil)
  have listed : (other, leaf) ∈ view.leaves := commits.sound.sees.mem_leaves.mpr standing
  have gone : (other, leaf) ∉ reading.staying := by
    intro stays
    exact (brings.reads.mem_staying.mp stays).2 (mem_removedIndices_stage.mpr (.inr removed))
  have counts : ∀ who, reading.accountsAfter.count who <=
      (view.leaves.map fun leaf => leaf.2.account).count who := by
    intro who
    unfold accountsAfter staying at *
    rw [adds, sameLeaves] at *
    set keep : Nat × Leaf -> Bool := fun leaf => leaf.1 ∉ reading.removed.map Removal.index
    have parts := (filter_append_perm keep view.leaves).map fun leaf => leaf.2.account
    rw [← parts.count_eq, map_append, count_append, count_append]
    apply Nat.add_le_add_left
    have dropped : (other, leaf) ∈ view.leaves.filter fun leaf => !keep leaf := by
      rw [mem_filter] at gone ⊢
      refine ⟨listed, ?_⟩
      cases kept : keep (other, leaf) with
      | true => exact absurd ⟨listed, kept⟩ gone
      | false => rfl
    by_cases same : who = fresh.account
    · rw [same]
      have present : fresh.account ∈
          (view.leaves.filter fun leaf => !keep leaf).map fun leaf => leaf.2.account :=
        mem_map.mpr ⟨(other, leaf), dropped, sameAccount⟩
      have := count_pos_iff.mpr present
      simpa using this
    rw [count_eq_zero_of_not_mem (by simpa using same)]
    omega
  refine ⟨admins, ?_, fun who => (counts who).trans (peaceful.fewDevices who)⟩
  refine (length_eraseDups_le ?_).trans peaceful.fewIdentities
  intro account within
  have := count_pos_iff.mpr within
  exact count_pos_iff.mp (Nat.lt_of_lt_of_le this (counts account))

end Brought

def Settles (engine : Engine keys) (group : Group) (view : View) (index : Nat) (own : Leaf)
    (made : List Proposal) (after : SilverGroup) : Prop :=
  Plan engine group.tree view index made after ∧
    ∀ queue next reading, Committing engine group view index own queue made after next ->
      Brings keys group.tree (stage engine group.context index queue made) own.account reading ->
      reading.leaves = view.leaves -> Fits reading after

theorem Peaceful.settles
    (peaceful : Peaceful keys group view) (plan : Plan engine group.tree view index made after)
    (none : addedBy made = [])
    (remain : ∀ admin ∈ after.admins, ∃ leaf ∈ view.leaves, leaf.2.account = admin ∧
      leaf.1 ∉ group.leaving ∧ .remove leaf.1 ∉ made) :
    Settles engine group view index own made after := by
  refine ⟨plan, ?_⟩
  intro _ _ _ commits brings sameLeaves
  refine peaceful.fits_without_adds brings sameLeaves ?_ none
  intro admin named
  obtain ⟨leaf, listed, rfl, remains, kept⟩ := remain admin named
  exact commits.mem_accountsAfter brings listed remains kept

/-- Every careful request settles. -/
theorem Peaceful.request {request : Request}
    (peaceful : Peaceful keys group view) (owns : Owns engine group.tree index own)
    (present : index ∉ group.leaving) (careful : CarefulRequest keys view group.leaving request)
    (asked : proposals engine view request = .ok made) (notOwn : .remove index ∉ made) :
    ∃ after, Settles engine group view index own made after := by
  have sees := peaceful.sound.sees
  have remain := peaceful.adminsRemain ⟨(index, own), sees.mem_leaves.mpr owns.stands, present⟩
  have unmoved : (∀ number, .remove number ∉ made) -> ∀ admin ∈ view.extension.admins,
      ∃ leaf ∈ view.leaves, leaf.2.account = admin ∧ leaf.1 ∉ group.leaving ∧
        .remove leaf.1 ∉ made := by
    intro keepsAll admin named
    obtain ⟨leaf, listed, same, remains⟩ := remain admin named
    exact ⟨leaf, listed, same, remains, keepsAll leaf.1⟩
  cases request with
  | add packages =>
    obtain ⟨plan, rfl, leaves, pairs, room⟩ :
        Plan engine group.tree view index made view.extension ∧ _ := stageAdd_plan asked
    have added : addedBy (packages.map .add) = packages := by
      simp [addedBy, filterMap_map]
    refine ⟨_, plan, ?_⟩
    intro queue next reading commits brings sameLeaves
    rw [sees.identities_eq] at room
    refine fits_added brings sameLeaves ?_ (added.symm ▸ pairs) room (added.symm ▸ careful)
    intro admin named
    obtain ⟨leaf, listed, rfl, remains, kept⟩ := unmoved (by simp) admin named
    exact commits.mem_accountsAfter brings listed remains kept
  | remove =>
    obtain ⟨plan, -, -, none, removed⟩ := stageRemove_plan sees owns asked
    refine ⟨_, peaceful.settles plan none ?_⟩
    intro admin named
    obtain ⟨isNamed, notGone⟩ := SilverGroup.mem_admins_foldl_withoutAdmin.mp named
    obtain ⟨leaf, listed, rfl, remains⟩ := remain admin isNamed
    exact ⟨leaf, listed, rfl, remains,
      fun asked => notGone (removed _ _ (sees.mem_leaves.mp listed) asked)⟩
  | removeDevice =>
    obtain ⟨other, leaf, after, standing, sameDevice, plan, none, removed, settings⟩ :=
      stageRemoveDevice_plan sees owns asked
    refine ⟨after, peaceful.settles plan none ?_⟩
    have elsewhere : ∀ admin ∈ view.extension.admins, admin ≠ leaf.account ->
        ∃ found ∈ view.leaves, found.2.account = admin ∧ found.1 ∉ group.leaving ∧
          .remove found.1 ∉ made := by
      intro admin named apart
      obtain ⟨found, listed, rfl, remains⟩ := remain admin named
      refine ⟨found, listed, rfl, remains, ?_⟩
      rw [removed]
      rintro rfl
      exact apart (congrArg Leaf.account
        (Except.ok.inj ((sees.mem_leaves.mp listed).symm.trans standing)))
    intro admin named
    rcases settings with ⟨rfl, notLast⟩ | ⟨rfl, -, -⟩
    · by_cases same : admin = leaf.account
      · subst same
        rcases careful (other, leaf) (sees.mem_leaves.mpr standing) sameDevice named with
          last | ⟨found, listed, sameUser, apart, remains⟩
        · exact absurd last notLast
        refine ⟨found, listed, sameUser, remains, ?_⟩
        rw [removed]
        rintro rfl
        apply apart
        rw [Except.ok.inj ((sees.mem_leaves.mp listed).symm.trans standing)]
        exact sameDevice
      · exact elsewhere admin named same
    obtain ⟨isNamed, apart⟩ := SilverGroup.mem_admins_withoutAdmin.mp named
    exact elsewhere admin isNamed apart
  | rename =>
    obtain ⟨_, -, asked⟩ := bind_eq_ok.mp asked
    obtain ⟨after, changed, -, plan, none, keepsAll⟩ := stageExtensionChange_plan asked
    cases changed
    exact ⟨_, peaceful.settles plan none (unmoved keepsAll)⟩
  | admin _ appoint =>
    obtain ⟨after, rfl, -, plan, none, keepsAll⟩ := stageAdmin_plan asked
    refine ⟨_, peaceful.settles plan none ?_⟩
    intro admin named
    cases appoint with
    | true =>
      rcases SilverGroup.mem_admins_withAdmin.mp named with rfl | isNamed
      · obtain ⟨leaf, listed, same, remains⟩ := careful
        exact ⟨leaf, listed, same, remains, keepsAll leaf.1⟩
      · exact unmoved keepsAll admin isNamed
    | false => exact unmoved keepsAll admin (SilverGroup.mem_admins_withoutAdmin.mp named).1
  | linkReset inviteKey =>
    have staged : stageLinkReset engine view inviteKey = .ok made := asked
    obtain ⟨after, changed, -, plan, none, keepsAll⟩ := stageExtensionChange_plan staged
    cases changed
    exact ⟨_, peaceful.settles plan none (unmoved keepsAll)⟩
  | selfUpdate =>
    obtain ⟨rfl, plan⟩ : _ ∧ Plan engine group.tree view index made view.extension :=
      stageSelfUpdate_plan asked
    exact ⟨_, peaceful.settles plan rfl (unmoved (by simp))⟩
  | rejoin mem package =>
    have keeps : KeepsAnAdmin engine view group.leaving (.rejoin mem package) := careful
    obtain ⟨after, plan, -⟩ := proposals_plan sees owns keeps asked notOwn
    obtain ⟨other, leaf, fresh, standing, verified, sameDevice, rfl, -⟩ :=
      stageRejoin_plan sees asked
    have sameAccount : leaf.account = fresh.account :=
      careful fresh (by simp [verified, Except.toOption]) (other, leaf)
        (sees.mem_leaves.mpr standing) sameDevice
    have sameSettings : after = view.extension := by
      rcases plan.settings with ⟨-, same⟩ | ⟨-, _, -, impossible⟩
      · exact same
      · cases impossible
    refine ⟨after, plan, ?_⟩
    intro queue next reading commits brings sameLeaves
    refine peaceful.fits_replaced brings sameLeaves ?_ commits standing (.head _) rfl
      verified sameAccount
    intro admin named
    obtain ⟨found, listed, rfl, remains⟩ := remain admin (sameSettings ▸ named)
    by_cases same : found.1 = other
    · -- The leaf that is replaced: its account is added back.
      apply brings.reads.mem_accountsAfter.mpr
      refine .inr ⟨package, ?_, fresh, verified, ?_⟩
      · rw [addProposals_stage, mem_addedBy]
        simp
      have again := sees.mem_leaves.mp listed
      rw [same] at again
      rw [← sameAccount, Except.ok.inj (again.symm.trans standing)]
    · exact commits.mem_accountsAfter brings listed remains (by simpa using same)

end Committing

theorem Peaceful.committed {keys : Keys} {engine : Engine keys} {group : Group} {view : View}
    {made : List Proposal} {after : SilverGroup} {next : Tree}
    (settles : Settles engine group view index own made after)
    (commits : Committing engine group view index own queue made after next) :
    group.verdict keys (stage engine group.context index queue made) engine.account
        view.extension next = .ok () ∧
      ∃ later, Peaceful keys
        (Group.moved (stage engine group.context index queue made) next) later := by
  obtain ⟨reading, later, brings, sameLeaves, sound, sameExtension, sameAccounts⟩ :=
    commits.next_sound
  have fits := settles.2 queue next reading commits brings sameLeaves
  have accepted := commits.accepted brings sameLeaves fits
  constructor
  · have passed := checkCommit_eq_ok.mpr ⟨reading, after, accepted, rfl⟩
    rw [commits.owns.account] at passed
    unfold Group.verdict
    refine bind_eq_ok.mpr ⟨_, mapError_eq_ok.mpr passed, ?_⟩
    exact bind_eq_ok.mpr ⟨later.leaves, mapError_eq_ok.mpr sound.sees.leaves, rfl⟩
  refine ⟨later, sound, rfl, ?_, ?_, ?_⟩
  · refine (length_eraseDups_le ?_).trans fits.identities
    intro account listed
    exact sameAccounts.mem_iff.mp listed
  · intro who
    rw [sameAccounts.count_eq]
    exact fits.devices who
  intro _ admin named
  rw [sameExtension] at named
  obtain ⟨leaf, listed, same⟩ := mem_map.mp (sameAccounts.mem_iff.mpr (fits.admins admin named))
  exact ⟨leaf, listed, same, by simp [Group.moved]⟩

/-- Every careful move keeps the peace. -/
theorem Peaceful.step {keys : Keys} {group next : Group} {move : Move keys}
    (peaceful : ∃ view, Peaceful keys group view) (careful : Careful keys group move)
    (ran : Group.step keys group move = some next) :
    ∃ view, Peaceful keys next view := by
  obtain ⟨view, peaceful⟩ := peaceful
  have seen := view_eq_some.mpr peaceful.sound.sees
  unfold Group.step at ran
  rw [peaceful.unbroken] at ran
  cases move with
  | commit engine request queue =>
    cases ran
    cases done : group.commit engine request queue with
    | none => exact ⟨view, peaceful⟩
    | some after =>
      obtain ⟨found, index, made, tree, sees, isOwn, stays, waiting, asked, taken, within,
        committerStays, applied, outcome⟩ := commit_cases done
      cases seen.symm.trans (view_eq_some.mpr sees)
      obtain ⟨own, owns⟩ := owns_of_indexOf peaceful.sound.sees isOwn
      have notOwn : .remove index ∉ made := fun removed =>
        committerStays (mem_removedIndices_stage.mpr (.inr removed))
      obtain ⟨settings, settles⟩ := peaceful.request owns stays (careful view seen) asked notOwn
      have commits : Committing engine group view index own taken made settings tree :=
        { sound := peaceful.sound
          owns := owns
          stays := stays
          waiting := List.Subset.trans within waiting
          plan := settles.1
          committerStays := committerStays
          applied := applied }
      obtain ⟨passed, later⟩ := Peaceful.committed settles commits
      rcases outcome with rfl | ⟨_, refused, -⟩
      · exact later
      rw [passed] at refused
      cases refused
  | leave engine =>
    cases ran
    cases done : group.leave engine with
    | none => exact ⟨view, peaceful⟩
    | some after =>
      obtain ⟨found, index, sees, isOwn, rfl⟩ := leave_cases done
      obtain ⟨own, owns⟩ := owns_of_indexOf peaceful.sound.sees isOwn
      refine ⟨view, peaceful.sound.leave isOwn, peaceful.unbroken, peaceful.fewIdentities,
        peaceful.fewDevices, ?_⟩
      rintro ⟨staying, listed, stays⟩ admin named
      have stayed : staying.1 ∉ group.leaving := fun going => stays (.tail _ going)
      by_cases same : admin = engine.account
      · subst same
        rcases careful view seen index isOwn named with remains | nobody
        · exact remains
        · exact absurd (nobody staying listed) stays
      obtain ⟨leaf, leafListed, rfl, remains⟩ :=
        peaceful.adminsRemain ⟨staying, listed, stayed⟩ admin named
      refine ⟨leaf, leafListed, rfl, ?_⟩
      intro going
      rcases mem_cons.mp going with isIndex | earlier
      · apply same
        have standing := peaceful.sound.sees.mem_leaves.mp leafListed
        rw [isIndex] at standing
        rw [Except.ok.inj (standing.symm.trans owns.stands), owns.account]
      · exact remains earlier

theorem create_peaceful {keys : Keys} {engine : Engine keys} {name : String}
    {group : Group} (created : Group.create engine name inviteKey nowMs = .ok group) :
    ∃ view, Peaceful keys group view := by
  obtain ⟨view, sound, leaves, admins, leaving, unbroken⟩ := create_sound created
  refine ⟨view, sound, unbroken, ?_, ?_, ?_⟩
  · rw [leaves]
    simp [MAX_MEMBERS, List.eraseDups_cons]
  · intro _
    rw [leaves]
    exact count_le_length.trans (by simp [MAX_DEVICES])
  intro _ _ named
  rw [admins] at named
  obtain rfl := mem_singleton.mp named
  refine ⟨(0, engine.leaf), ?_, rfl, by simp [leaving]⟩
  rw [leaves]
  exact mem_singleton_self _

/-- In every run of careful moves, whoever makes them and whichever leaves reach a
committer, the other members accept every commit and no group is broken. -/
theorem honest_commits_never_break
    {keys : Keys} {engine : Engine keys} {name : String} {inviteKey : Bytes 32} {nowMs : Nat}
    {start final : Group} {moves : List (Move keys)}
    (created : Group.create engine name inviteKey nowMs = .ok start)
    (careful : EachState (Group.step keys) (Careful keys) start moves)
    (reached : run (Group.step keys) start moves = some final) :
    final.breach = none := by
  have preserve : ∀ move group next, (∃ view, Peaceful keys group view) ->
      Careful keys group move -> Group.step keys group move = some next ->
      ∃ view, Peaceful keys next view :=
    fun _ _ _ peaceful met stepped => Peaceful.step peaceful met stepped
  obtain ⟨view, peaceful⟩ := EachState.run_keeps careful (create_peaceful created) preserve reached
  exact peaceful.unbroken

def Trio.assembled : List (Move Handover.keys) :=
  [.commit (Trio.device 1) (.add [(Trio.device 2).leafNode, (Trio.device 3).leafNode]) [],
    .commit (Trio.device 1) (.admin (Bytes.fill 32 2) true) []]

/-- A member who is no admin leaves, an admin takes the leave along and refreshes
its leaf once more. -/
theorem unbroken_after_member_leaves : ∃ final, run (Group.step Handover.keys) Trio.founded
        (Trio.assembled ++ [.leave (Trio.device 3), .commit (Trio.device 1) .selfUpdate [2],
          .commit (Trio.device 1) .selfUpdate []]) = some final ∧
      leavesOf Handover.keys final.tree =
        .ok [(0, (Trio.device 1).leaf), (1, (Trio.device 2).leaf)] ∧
      final.breach = none := by
  refine ⟨_, rfl, rfl, ?_⟩
  exact honest_commits_never_break create_founded
    (show EachState (Group.step Handover.keys) (Careful Handover.keys) founded
      (assembled ++ [.leave (device 3), .commit (device 1) .selfUpdate [2],
        .commit (device 1) .selfUpdate []]) by decide +kernel) rfl

/-- An admin leaves, the other admin takes the leave along, which is accepted, and
refreshes its leaf once more, which is not: the settings still name who has left. -/
theorem broken_after_admin_leaves : ∃ final, run (Group.step Handover.keys) Trio.founded
        (Trio.assembled ++ [.leave (Trio.device 2), .commit (Trio.device 1) .selfUpdate [1],
          .commit (Trio.device 1) .selfUpdate []]) = some final ∧
      final.breach = some (Bytes.fill 32 1, .refused .adminNotMember) :=
  ⟨_, rfl, rfl⟩

end Silver.Client.Groups
