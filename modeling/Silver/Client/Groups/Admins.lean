import Silver.Client.Groups.Sound

/-!
# A group keeps an admin

Each client checks that an admin stays only against its own record of the group.
Where nobody leaves, or steps down, unless an admin stays who has not proposed to
leave either, some admin has a leaf in the tree in every epoch.
-/

namespace Silver.Client.Groups

open Foundation Protocol

def FromSameAccount (keys : Keys) (view : View) (package : LeafNode) : Prop :=
  ∀ fresh ∈ (verifyLeaf keys package none).toOption, ∀ leaf ∈ view.leaves,
    leaf.2.device = fresh.device → leaf.2.account = fresh.account
deriving Decidable

def OtherAdminStays (view : View) (leaving : List Nat) (user : UserId) : Prop :=
  ∃ leaf ∈ view.leaves, leaf.2.account ∈ view.extension.admins ∧ leaf.2.account ≠ user ∧
    leaf.1 ∉ leaving
deriving Decidable

def KeepsAnAdmin {keys : Keys} (engine : Engine keys) (view : View) (leaving : List Nat) :
    Request → Prop
  | .admin user false => user = engine.account → OtherAdminStays view leaving user
  | .rejoin _ package => FromSameAccount keys view package
  | _ => True

def LeavesAnAdmin (view : View) (leaving : List Nat) : Prop :=
  (∃ leaf ∈ view.leaves, leaf.1 ∉ leaving) →
    ∃ leaf ∈ view.leaves, leaf.2.account ∈ view.extension.admins ∧ leaf.1 ∉ leaving
deriving Decidable

def Attended (keys : Keys) (group : Group) : Move keys → Prop
  | .commit engine request _ =>
    ∀ view ∈ group.view keys, KeepsAnAdmin engine view group.leaving request
  | .leave engine =>
    ∀ view ∈ group.view keys, ∀ index ∈ group.indexOf engine,
      LeavesAnAdmin view (index :: group.leaving)

instance {keys : Keys} (engine : Engine keys) (view : View) (leaving : List Nat) :
    (request : Request) → Decidable (KeepsAnAdmin engine view leaving request)
  | .admin user false =>
    inferInstanceAs (Decidable (user = engine.account → OtherAdminStays view leaving user))
  | .rejoin _ package => inferInstanceAs (Decidable (FromSameAccount keys view package))
  | .admin _ true | .add _ | .remove _ | .removeDevice _ | .rename _ | .linkReset _
  | .selfUpdate => inferInstanceAs (Decidable True)

instance (keys : Keys) (group : Group) : (move : Move keys) → Decidable (Attended keys group move)
  | .commit engine request _ =>
    inferInstanceAs (Decidable (∀ view ∈ group.view keys,
      KeepsAnAdmin engine view group.leaving request))
  | .leave engine =>
    inferInstanceAs (Decidable (∀ view ∈ group.view keys, ∀ index ∈ group.indexOf engine,
      LeavesAnAdmin view (index :: group.leaving)))

def HasAdmin (keys : Keys) (group : Group) : Prop :=
  ∃ extension, extensionOf group.context.extensions = .ok extension ∧
    ∃ index leaf, leafAt keys group.tree index = .ok leaf ∧ leaf.account ∈ extension.admins

/-- What holds of a group over its epochs: it has an admin, and one that stays
where anybody does. -/
structure Governed (keys : Keys) (group : Group) (view : View) : Prop where
  sound : Sound keys group view
  present : ∃ leaf ∈ view.leaves, leaf.2.account ∈ view.extension.admins
  attended : LeavesAnAdmin view group.leaving

theorem Governed.hasAdmin {keys : Keys} {group : Group} {view : View}
    (governed : Governed keys group view) : HasAdmin keys group := by
  obtain ⟨⟨index, leaf⟩, listed, named⟩ := governed.present
  exact ⟨view.extension, governed.sound.sees.extension, index, leaf,
    governed.sound.sees.mem_leaves.mp listed, named⟩

section Requests

variable {engine : Engine keys}

def StaysNamed (engine : Engine keys) (group : Group) (made : List Proposal)
    (after : SilverGroup) : Prop :=
  engine.account ∈ after.admins ∨
    ∃ other leaf, leafAt keys group.tree other = .ok leaf ∧ other ∉ group.leaving ∧
      .remove other ∉ made ∧ leaf.account ∈ after.admins

/-- Every request has a plan, and where an admin makes it an admin stays. -/
theorem proposals_plan {request : Request}
    (sees : Sees keys group view) (owns : Owns engine group.tree index own)
    (keeps : KeepsAnAdmin engine view group.leaving request)
    (asked : proposals engine view request = .ok made) (notOwn : .remove index ∉ made) :
    ∃ after, Plan engine group.tree view index made after ∧
      (view.record.isAdmin engine.account = true → StaysNamed engine group made after) := by
  have named : view.record.isAdmin engine.account = true →
      engine.account ∈ view.extension.admins := fun isAdmin => (sees.isAdmin_iff.mp isAdmin).1
  cases request with
  | add =>
    obtain ⟨plan, -, -⟩ := stageAdd_plan asked
    exact ⟨_, plan, fun isAdmin => .inl (named isAdmin)⟩
  | remove =>
    obtain ⟨plan, -, notMine, -⟩ := stageRemove_plan sees owns asked
    refine ⟨_, plan, fun isAdmin => .inl ?_⟩
    exact SilverGroup.mem_admins_foldl_withoutAdmin.mpr ⟨named isAdmin, notMine⟩
  | removeDevice =>
    obtain ⟨other, leaf, after, -, -, plan, -, -, settings⟩ :=
      stageRemoveDevice_plan sees owns asked
    refine ⟨after, plan, fun isAdmin => .inl ?_⟩
    rcases settings with ⟨rfl, -⟩ | ⟨rfl, stranger, -⟩
    · exact named isAdmin
    · exact SilverGroup.mem_admins_withoutAdmin.mpr ⟨named isAdmin, stranger.symm⟩
  | rename =>
    obtain ⟨_, -, asked⟩ := bind_eq_ok.mp asked
    obtain ⟨after, changed, -, plan, -⟩ := stageExtensionChange_plan asked
    cases changed
    exact ⟨_, plan, fun isAdmin => .inl (named isAdmin)⟩
  | admin user appoint =>
    obtain ⟨after, rfl, -, plan, -, keepsAll⟩ := stageAdmin_plan asked
    refine ⟨_, plan, fun isAdmin => ?_⟩
    cases appoint with
    | true => exact .inl (SilverGroup.mem_admins_withAdmin.mpr (.inr (named isAdmin)))
    | false =>
      by_cases ownUser : user = engine.account
      · obtain ⟨⟨other, leaf⟩, listed, isNamed, apart, stays⟩ := keeps ownUser
        refine .inr ⟨other, leaf, sees.mem_leaves.mp listed, stays, keepsAll other, ?_⟩
        exact SilverGroup.mem_admins_withoutAdmin.mpr ⟨isNamed, apart⟩
      exact .inl (SilverGroup.mem_admins_withoutAdmin.mpr
        ⟨named isAdmin, fun same => ownUser same.symm⟩)
  | linkReset inviteKey =>
    have staged : stageLinkReset engine view inviteKey = .ok made := asked
    obtain ⟨after, changed, -, plan, -⟩ := stageExtensionChange_plan staged
    cases changed
    exact ⟨_, plan, fun isAdmin => .inl (named isAdmin)⟩
  | selfUpdate =>
    obtain ⟨-, plan⟩ := stageSelfUpdate_plan asked
    exact ⟨_, plan, fun isAdmin => .inl (named isAdmin)⟩
  | rejoin _ package =>
    obtain ⟨other, leaf, fresh, standing, verified, sameDevice, rfl, permitted⟩ :=
      stageRejoin_plan sees asked
    have sameAccount : leaf.account = fresh.account :=
      keeps fresh (by simp [verified, Except.toOption]) (other, leaf)
        (sees.mem_leaves.mpr standing) sameDevice
    refine ⟨view.extension, ?_, fun isAdmin => .inl (named isAdmin)⟩
    exact
      { adds := by
          intro node added
          obtain rfl : node = package := by simpa using added
          exact ⟨fresh, verified, permitted⟩
        noUpdates := by simp
        removes := by
          intro number removed
          obtain rfl : number = other := by simpa using removed
          refine ⟨?_, leaf, standing, fun notAdmin => sameAccount.trans (permitted notAdmin)⟩
          rintro rfl
          exact notOwn removed
        settings := .inl ⟨rfl, rfl⟩ }

end Requests

theorem Governed.committed {keys : Keys} {engine : Engine keys} {group : Group} {view : View}
    {made : List Proposal} {after : SilverGroup} {next : Tree}
    (governed : Governed keys group view)
    (commits : Committing engine group view index own queue made after next)
    (stays : view.record.isAdmin engine.account = true → StaysNamed engine group made after) :
    ∃ later, Governed keys
      (Group.moved (stage engine group.context index queue made) next) later := by
  obtain ⟨_, later, -, -, sound, sameExtension, -⟩ := commits.next_sound
  have survives : ∀ other leaf, leafAt keys group.tree other = .ok leaf →
      other ∉ (stage engine group.context index queue made).removedIndices →
      leaf.account ∈ after.admins →
      ∃ fresh ∈ later.leaves, fresh.2.account ∈ later.extension.admins := by
    intro other leaf standing kept isNamed
    obtain ⟨fresh, found, sameAccount⟩ := commits.leafAt_next standing kept
    refine ⟨(other, fresh), sound.sees.mem_leaves.mpr found, ?_⟩
    rw [sameExtension]
    exact sameAccount ▸ isNamed
  have present : ∃ fresh ∈ later.leaves, fresh.2.account ∈ later.extension.admins := by
    cases admin : view.record.isAdmin engine.account with
    | true =>
      rcases stays admin with ownNamed | ⟨other, leaf, standing, waits, kept, isNamed⟩
      · exact survives index own commits.owns.stands commits.committerStays
          (commits.owns.account ▸ ownNamed)
      apply survives other leaf standing _ isNamed
      exact Committing.notRemoved (fun waiting => waits (commits.waiting waiting)) kept
    | false =>
      -- Somebody else is an admin and stays: the committer removes only its own leaves.
      obtain ⟨⟨other, leaf⟩, listed, isNamed, waits⟩ := governed.attended
        ⟨(index, own), governed.sound.sees.mem_leaves.mpr commits.owns.stands, commits.stays⟩
      have standing := governed.sound.sees.mem_leaves.mp listed
      have sameSettings : after = view.extension := by
        rcases commits.plan.settings with ⟨-, same⟩ | ⟨isAdmin, -⟩
        · exact same
        rw [admin] at isAdmin
        cases isAdmin
      have kept : .remove other ∉ made := by
        intro removed
        obtain ⟨-, found, again, permitted⟩ := commits.plan.removes other removed
        obtain rfl := Except.ok.inj (again.symm.trans standing)
        have isAdmin := governed.sound.sees.isAdmin_iff.mpr ⟨isNamed, (other, found), listed, rfl⟩
        simp only at isAdmin
        rw [permitted admin, admin] at isAdmin
        cases isAdmin
      apply survives other leaf standing _ (sameSettings ▸ isNamed)
      exact Committing.notRemoved (fun waiting => waits (commits.waiting waiting)) kept
  refine ⟨later, sound, present, ?_⟩
  intro _
  obtain ⟨fresh, listed, isNamed⟩ := present
  exact ⟨fresh, listed, isNamed, by simp [Group.moved]⟩

theorem Governed.step {keys : Keys} {group next : Group} {move : Move keys}
    (governed : ∃ view, Governed keys group view) (attended : Attended keys group move)
    (ran : Group.step keys group move = some next) :
    ∃ view, Governed keys next view := by
  obtain ⟨view, governed⟩ := governed
  have seen := view_eq_some.mpr governed.sound.sees
  unfold Group.step at ran
  split at ran
  · cases ran
    exact ⟨view, governed⟩
  cases move with
  | commit engine request queue =>
    cases ran
    cases done : group.commit engine request queue with
    | none => exact ⟨view, governed⟩
    | some after =>
      obtain ⟨found, index, made, tree, sees, isOwn, stays, waiting, asked, taken, within,
        committerStays, applied, outcome⟩ := commit_cases done
      cases seen.symm.trans (view_eq_some.mpr sees)
      obtain ⟨own, owns⟩ := owns_of_indexOf governed.sound.sees isOwn
      have notOwn : .remove index ∉ made := fun removed =>
        committerStays (mem_removedIndices_stage.mpr (.inr removed))
      obtain ⟨settings, plan, named⟩ := proposals_plan sees owns (attended view seen) asked notOwn
      have commits : Committing engine group view index own taken made settings tree :=
        { sound := governed.sound
          owns := owns
          stays := stays
          waiting := List.Subset.trans within waiting
          plan := plan
          committerStays := committerStays
          applied := applied }
      rcases outcome with rfl | ⟨_, -, rfl⟩
      · exact governed.committed commits named
      exact ⟨view, ⟨{ sees with }, governed.sound.ciphersuite,
        governed.sound.required, governed.sound.hasAdmin, governed.sound.leavingStand⟩,
        governed.present, governed.attended⟩
  | leave engine =>
    cases ran
    cases done : group.leave engine with
    | none => exact ⟨view, governed⟩
    | some after =>
      obtain ⟨found, index, sees, isOwn, rfl⟩ := leave_cases done
      exact ⟨view, governed.sound.leave isOwn, governed.present, attended view seen index isOwn⟩

theorem create_governed {keys : Keys} {engine : Engine keys} {name : String}
    {group : Group} (created : Group.create engine name inviteKey nowMs = .ok group) :
    ∃ view, Governed keys group view := by
  obtain ⟨view, sound, leaves, admins, leaving, -⟩ := create_sound created
  have present : ∃ leaf ∈ view.leaves, leaf.2.account ∈ view.extension.admins := by
    rw [leaves, admins]
    exact ⟨(0, engine.leaf), List.mem_singleton_self _, List.mem_singleton_self _⟩
  refine ⟨view, sound, present, ?_⟩
  intro _
  obtain ⟨leaf, listed, named⟩ := present
  exact ⟨leaf, listed, named, by simp [leaving]⟩

/-- In every run in which an admin stays behind whoever leaves or steps down, some
admin named in the settings has a leaf in the tree, after every commit. -/
theorem group_always_has_admin
    {keys : Keys} {engine : Engine keys} {name : String} {inviteKey : Bytes 32} {nowMs : Nat}
    {start final : Group} {moves : List (Move keys)}
    (created : Group.create engine name inviteKey nowMs = .ok start)
    (attended : EachState (Group.step keys) (Attended keys) start moves)
    (reached : run (Group.step keys) start moves = some final) :
    HasAdmin keys final := by
  have preserve : ∀ move group next, (∃ view, Governed keys group view) →
      Attended keys group move → Group.step keys group move = some next →
      ∃ view, Governed keys next view :=
    fun _ _ _ governed met stepped => Governed.step governed met stepped
  obtain ⟨view, governed⟩ := EachState.run_keeps attended (create_governed created) preserve reached
  exact governed.hasAdmin

namespace Trio

open Handover (keys)

def device (byte : UInt8) : Engine keys :=
  { identity := Bytes.fill 32 byte
    certificate := none
    sealKey := Bytes.fill 32 byte
    everyday := true
    identityIsKey := rfl
    certified := by simp }

def settings (admins : List UInt8) : SilverGroup :=
  { name := "trio"
    admins := admins.map (Bytes.fill 32)
    inviteKey := Bytes.fill 32 9
    createdAtMs := 0 }

def founded : Group :=
  { tree := { nodes := [some (device 1).leafNode], distinct := List.pairwise_singleton _ _ }
    context :=
      { ciphersuite := CIPHERSUITE
        extensions := { group := some (.ok (settings [1])), required := some [.group, .seal] } }
    leaving := []
    breach := none }

theorem create_founded : Group.create (device 1) "trio" (Bytes.fill 32 9) 0 = .ok founded := rfl

def handsOver : List (Move keys) :=
  [.commit (device 1) (.add [(device 2).leafNode, (device 3).leafNode]) [],
    .commit (device 1) (.admin (Bytes.fill 32 2) true) [],
    .leave (device 1)]

end Trio

/-- The other admin takes the leave along in a refresh, and is still there. -/
theorem hasAdmin_after_refresh : ∃ final, run (Group.step Handover.keys) Trio.founded
        (Trio.handsOver ++ [.commit (Trio.device 2) .selfUpdate [0]]) = some final ∧
      final.breach = none ∧ HasAdmin Handover.keys final := by
  refine ⟨_, rfl, rfl, ?_⟩
  exact group_always_has_admin Trio.create_founded
    (show EachState (Group.step Handover.keys) (Attended Handover.keys) Trio.founded
      (Trio.handsOver ++ [.commit (Trio.device 2) .selfUpdate [0]]) by decide +kernel) rfl

/-- The other admin takes the leave along in the commit with which it steps down
itself: it is accepted, and nobody in the tree is an admin. -/
theorem no_admin_after_stepping_down : ∃ final, run (Group.step Handover.keys) Trio.founded
        (Trio.handsOver ++
          [.commit (Trio.device 2) (.admin (Bytes.fill 32 2) false) [0]]) = some final ∧
      final.breach = none ∧
      leavesOf Handover.keys final.tree =
        .ok [(1, (Trio.device 2).leaf), (2, (Trio.device 3).leaf)] ∧
      ¬ HasAdmin Handover.keys final := by
  refine ⟨_, rfl, rfl, rfl, ?_⟩
  rintro ⟨extension, read, index, leaf, standing, named⟩
  obtain rfl : Trio.settings [1] = extension := Except.ok.inj read
  have listed := (mem_leavesOf rfl).mpr standing
  rcases List.mem_cons.mp listed with same | listed
  · obtain ⟨-, rfl⟩ := Prod.mk.inj same
    exact absurd named (by decide)
  obtain ⟨-, rfl⟩ := Prod.mk.inj (List.mem_singleton.mp listed)
  exact absurd named (by decide)

end Silver.Client.Groups
