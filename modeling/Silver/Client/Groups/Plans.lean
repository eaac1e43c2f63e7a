import Silver.Foundation.Program
import Silver.Client.Groups.Staging

/-!
# What a request may ask for

The engine checks a request against the client's record of the group, the other
members check the commit against the tree and the settings.  The record is what
the tree and the settings say, so that the first check speaks for the second.
-/

namespace Silver.Client.Groups

open Foundation Protocol List MemberInfo Proposal
open Except (toOption)

variable {keys : Keys}

/-- A client has followed a group. -/
structure Sees (keys : Keys) (group : Group) (view : View) : Prop where
  leaves : leavesOf keys group.tree = .ok view.leaves
  extension : extensionOf group.context.extensions = .ok view.extension
  record : view.record = Group.recordOf view.leaves view.extension

theorem view_eq_some {keys : Keys} {group : Group} {view : View} :
    group.view keys = some view ↔ Sees keys group view := by
  unfold Group.view
  constructor
  · intro seen
    obtain ⟨leaves, read, rest⟩ := Option.bind_eq_some_iff.mp seen
    obtain ⟨extension, decoded, same⟩ := Option.bind_eq_some_iff.mp rest
    cases same
    cases leavesRead : leavesOf keys group.tree with
    | error error => simp [leavesRead, toOption] at read
    | ok =>
      cases extensionRead : extensionOf group.context.extensions with
      | error error => simp [extensionRead, toOption] at decoded
      | ok =>
        simp only [leavesRead, toOption, Option.some.injEq] at read
        simp only [extensionRead, toOption, Option.some.injEq] at decoded
        obtain rfl := read
        obtain rfl := decoded
        exact ⟨leavesRead, extensionRead, rfl⟩
  rintro ⟨leaves, extension, record⟩
  obtain ⟨_, _, _⟩ := view
  simp only at leaves extension record
  simp [leaves, extension, record, toOption]

namespace Sees

variable (sees : Sees keys group view)
include sees

theorem isAdmin_iff {user : UserId} :
    view.record.isAdmin user = true ↔
      user ∈ view.extension.admins ∧ ∃ leaf ∈ view.leaves, leaf.2.account = user := by
  rw [sees.record]
  unfold GroupRecord.isAdmin Group.recordOf membersOf
  rw [any_eq_true]
  constructor
  · rintro ⟨_, listed, holds⟩
    obtain ⟨leaf, found, rfl⟩ := mem_map.mp listed
    simp only [Bool.and_eq_true, decide_eq_true_eq] at holds
    obtain ⟨rfl, named⟩ := holds
    exact ⟨SilverGroup.isAdmin_iff.mp named, leaf, found, rfl⟩
  rintro ⟨named, leaf, found, rfl⟩
  refine ⟨_, mem_map.mpr ⟨leaf, found, rfl⟩, ?_⟩
  simp [SilverGroup.isAdmin_iff.mpr named]

theorem identities_eq :
    view.record.identities = (view.leaves.map fun leaf => leaf.2.account).eraseDups := by
  rw [sees.record]
  simp [GroupRecord.identities, identities, Group.recordOf, membersOf, Function.comp_def]

theorem mem_leaves {leaf : Leaf} :
    (index, leaf) ∈ view.leaves ↔ leafAt keys group.tree index = .ok leaf :=
  mem_leavesOf sees.leaves

theorem find_device {device : UserId} {member : MemberInfo}
    (found : view.record.members.find? (fun member => member.device = device) = some member) :
    ∃ leaf, view.leaves.find? (fun leaf => leaf.2.device = device) = some leaf ∧
      leaf.2.account = member.user := by
  rw [sees.record] at found
  unfold Group.recordOf membersOf at found
  rw [find?_map] at found
  obtain ⟨leaf, search, rfl⟩ := Option.map_eq_some_iff.mp found
  exact ⟨leaf, search, rfl⟩

end Sees

/-- A device's own leaf. -/
structure Owns {keys : Keys} (engine : Engine keys) (tree : Tree) (index : Nat) (own : Leaf) :
    Prop where
  stands : leafAt keys tree index = .ok own
  account : own.account = engine.account
  device : own.device = engine.identity

theorem owns_of_indexOf {keys : Keys} {group : Group} {view : View} {engine : Engine keys}
    (sees : Sees keys group view) (found : group.indexOf engine = some index) :
    ∃ own, Owns engine group.tree index own := by
  unfold Group.indexOf at found
  obtain ⟨⟨number, _⟩, search, rfl⟩ := Option.map_eq_some_iff.mp found
  have listed := mem_of_find?_eq_some search
  have holds := find?_some search
  simp only [Bool.and_eq_true, decide_eq_true_eq] at holds
  obtain ⟨⟨place, own⟩, standing, same, verified⟩ :=
    exists_of_mem_left (leavesOf_eq_ok.mp sees.leaves) listed
  obtain rfl : place = number := same
  refine ⟨own, sees.mem_leaves.mp standing, ?_, ?_⟩
  · apply Bytes.ext
    rw [← (verifyLeaf_bound verified).1]
    exact holds.2
  apply Bytes.ext
  rw [verifyLeaf_device verified]
  exact holds.1

/-- A plan: the proposals of a request, and the settings they lead to. -/
structure Plan {keys : Keys} (engine : Engine keys) (tree : Tree) (view : View) (index : Nat)
    (made : List Proposal) (after : SilverGroup) : Prop where
  adds : ∀ node, .add node ∈ made → ∃ leaf, verifyLeaf keys node none = .ok leaf ∧
    (view.record.isAdmin engine.account = false → leaf.account = engine.account)
  noUpdates : ∀ node, .update node ∉ made
  removes : ∀ other, .remove other ∈ made → other ≠ index ∧
    ∃ leaf, leafAt keys tree other = .ok leaf ∧
      (view.record.isAdmin engine.account = false → leaf.account = engine.account)
  settings : (settingsOf made = [] ∧ after = view.extension) ∨
    (view.record.isAdmin engine.account = true ∧
      ∃ extensions, contextExtensions after = .ok extensions ∧ settingsOf made = [extensions])

theorem contextExtensions_eq_ok (made : contextExtensions extension = .ok extensions) :
    extensions = { group := some (.ok extension), required := some [.group, .seal] } ∧
      extension.admins ≠ [] := by
  unfold contextExtensions at made
  obtain ⟨_, checked, same⟩ := bind_eq_ok.mp made
  refine ⟨(Except.ok.inj same).symm, ?_⟩
  intro none
  have failed := mapError_eq_ok.mp checked
  unfold SilverGroup.check at failed
  split at failed
  · cases failed
  split at failed
  · cases failed
  rw [if_pos (by simp [none])] at failed
  cases failed

section Requests

variable {engine : Engine keys} {group : Group}

theorem foldlM_addPackage {packages : List LeafNode} {start : List MemberInfo}
    (read : packages.foldlM (addPackage keys view) start = .ok added) :
    ∃ leaves, List.Forall₂ (fun node leaf => verifyLeaf keys node none = .ok leaf) packages leaves ∧
      added.map user = start.map user ++ leaves.map Leaf.account := by
  induction packages generalizing start with
  | nil =>
    cases read
    exact ⟨[], .nil, by simp⟩
  | cons _ packages ih =>
    obtain ⟨_, first, rest⟩ := foldlM_cons_eq_ok.mp read
    unfold addPackage at first
    obtain ⟨leaf, verified, first⟩ := bind_eq_ok.mp first
    obtain ⟨-, same⟩ := refuseIf_bind_eq_ok.mp first
    cases same
    obtain ⟨leaves, pairs, users⟩ := ih rest
    exact ⟨leaf :: leaves, .cons verified pairs, by simp [users]⟩

theorem stageAdd_plan (staged : stageAdd engine view packages = .ok made) :
    Plan engine group.tree view index made view.extension ∧ made = packages.map .add ∧
      ∃ leaves, List.Forall₂ (fun node leaf => verifyLeaf keys node none = .ok leaf)
        packages leaves ∧
        (view.record.identities ++ leaves.map Leaf.account).eraseDups.length ≤ MAX_MEMBERS := by
  unfold stageAdd at staged
  obtain ⟨_, -, staged⟩ := bind_eq_ok.mp staged
  obtain ⟨added, read, staged⟩ := bind_eq_ok.mp staged
  obtain ⟨ownOnly, staged⟩ := refuseIf_bind_eq_ok.mp staged
  obtain ⟨room, same⟩ := refuseIf_bind_eq_ok.mp staged
  cases same
  obtain ⟨leaves, pairs, users⟩ := foldlM_addPackage read
  rw [map_nil, nil_append] at users
  refine ⟨?_, rfl, leaves, pairs, by simpa [users] using room⟩
  refine
    { adds := ?_
      noUpdates := by simp
      removes := by simp
      settings := .inl ⟨by simp [settingsOf, filterMap_map], rfl⟩ }
  intro node asked
  obtain ⟨_, listed, same⟩ := mem_map.mp asked
  obtain rfl := add.inj same
  obtain ⟨leaf, found, verified⟩ := exists_of_mem_left pairs listed
  refine ⟨leaf, verified, ?_⟩
  intro notAdmin
  have listedUser : leaf.account ∈ added.map user := users ▸ mem_map.mpr ⟨leaf, found, rfl⟩
  obtain ⟨member, addedMember, sameUser⟩ := mem_map.mp listedUser
  simp only [notAdmin, Bool.not_false, Bool.true_and, any_eq_false] at ownOnly
  rw [← sameUser]
  simpa using ownOnly member addedMember

section

variable (sees : Sees keys group view) (owns : Owns engine group.tree index own)
include sees owns

theorem stageRemove_plan (staged : stageRemove engine view users = .ok made) :
    Plan engine group.tree view index made (users.foldl SilverGroup.withoutAdmin view.extension) ∧
      view.record.isAdmin engine.account = true ∧ engine.account ∉ users ∧ addedBy made = [] ∧
      ∀ other leaf, leafAt keys group.tree other = .ok leaf → .remove other ∈ made →
        leaf.account ∈ users := by
  unfold stageRemove at staged
  obtain ⟨_, -, staged⟩ := bind_eq_ok.mp staged
  obtain ⟨isAdmin, staged⟩ := refuseIf_bind_eq_ok.mp staged
  obtain ⟨notOwn, staged⟩ := refuseIf_bind_eq_ok.mp staged
  obtain ⟨-, staged⟩ := refuseIf_bind_eq_ok.mp staged
  obtain ⟨indices, found, staged⟩ := bind_eq_ok.mp staged
  obtain ⟨context, encoded, same⟩ := bind_eq_ok.mp staged
  cases same
  have notMine : engine.account ∉ users := by simpa using notOwn
  have isAdmin : view.record.isAdmin engine.account = true := by simpa using isAdmin
  have removed : ∀ other, .remove other ∈ indices.flatten.map remove ++
      [.groupContextExtensions context] → ∃ leaf, leafAt keys group.tree other = .ok leaf ∧
        leaf.account ∈ users := by
    intro other asked
    rw [mem_append] at asked
    rcases asked with asked | asked
    · obtain ⟨_, listed, same⟩ := mem_map.mp asked
      obtain rfl := remove.inj same
      obtain ⟨_, chunk, inside⟩ := mem_flatten.mp listed
      obtain ⟨user, asUser, read⟩ := exists_of_mem_right (mapM_eq_ok.mp found) chunk
      unfold leavesOfUser at read
      simp only at read
      split at read
      · cases read
      cases read
      obtain ⟨⟨_, leaf⟩, kept, rfl⟩ := mem_map.mp inside
      obtain ⟨standing, account⟩ := mem_filter.mp kept
      refine ⟨leaf, sees.mem_leaves.mp standing, ?_⟩
      have account : leaf.account = user := by simpa using account
      exact account ▸ asUser
    · simp at asked
  refine ⟨?_, isAdmin, notMine, ?_, ?_⟩
  · refine
      { adds := by simp
        noUpdates := by simp
        removes := ?_
        settings := .inr ⟨isAdmin, context, encoded, ?_⟩ }
    · intro other asked
      obtain ⟨leaf, standing, listed⟩ := removed other asked
      refine ⟨?_, leaf, standing, by simp [isAdmin]⟩
      rintro rfl
      obtain rfl := Except.ok.inj (standing.symm.trans owns.stands)
      exact notMine (owns.account ▸ listed)
    · simp [settingsOf, filterMap_append, filterMap_map, Function.comp_def]
  · simp [addedBy, filterMap_append, filterMap_map, Function.comp_def]
  intro other leaf standing asked
  obtain ⟨found, again, listed⟩ := removed other asked
  obtain rfl := Except.ok.inj (again.symm.trans standing)
  exact listed

/-- What removing a device asks for: its leaf, and the account's place among the
admins where it is the account's last. -/
theorem stageRemoveDevice_plan {device : UserId}
    (staged : stageRemoveDevice engine view device = .ok made) :
    ∃ other leaf after, leafAt keys group.tree other = .ok leaf ∧ leaf.device = device ∧
      Plan engine group.tree view index made after ∧ addedBy made = [] ∧
      (∀ number, .remove number ∈ made ↔ number = other) ∧
      ((after = view.extension ∧ (view.record.devicesOf leaf.account).length ≠ 1) ∨
        (after = view.extension.withoutAdmin leaf.account ∧ leaf.account ≠ engine.account ∧
          (view.record.devicesOf leaf.account).length = 1)) := by
  unfold stageRemoveDevice at staged
  obtain ⟨_, -, staged⟩ := bind_eq_ok.mp staged
  obtain ⟨notOwn, staged⟩ := refuseIf_bind_eq_ok.mp staged
  have notOwn : device ≠ engine.identity := by simpa using notOwn
  split at staged
  · cases staged
  next member search =>
    obtain ⟨allowed, staged⟩ := refuseIf_bind_eq_ok.mp staged
    obtain ⟨notLastOwn, staged⟩ := refuseIf_bind_eq_ok.mp staged
    obtain ⟨-, staged⟩ := refuseIf_bind_eq_ok.mp staged
    obtain ⟨⟨other, leaf⟩, found, sameUser⟩ := sees.find_device search
    rw [found] at staged
    simp only at staged sameUser
    have standing := sees.mem_leaves.mp (mem_of_find?_eq_some found)
    have sameDevice : leaf.device = device := by simpa using find?_some found
    have apart : other ≠ index := by
      rintro rfl
      obtain rfl := Except.ok.inj (standing.symm.trans owns.stands)
      exact notOwn (sameDevice ▸ owns.device)
    have permitted : view.record.isAdmin engine.account = false →
        leaf.account = engine.account := by
      intro notAdmin
      rw [sameUser]
      simpa [notAdmin] using allowed
    split at staged
    next last =>
      obtain ⟨context, encoded, same⟩ := bind_eq_ok.mp staged
      cases same
      have stranger : leaf.account ≠ engine.account := by
        rw [sameUser]
        simpa [last] using notLastOwn
      have isAdmin : view.record.isAdmin engine.account = true := by
        cases admin : view.record.isAdmin engine.account with
        | true => rfl
        | false => exact absurd (permitted admin) stranger
      refine ⟨other, leaf, view.extension.withoutAdmin member.user, standing, sameDevice, ?_,
        rfl, by simp, .inr ⟨by rw [sameUser], stranger, by rw [sameUser]; exact last⟩⟩
      exact
        { adds := by simp
          noUpdates := by simp
          removes := by
            intro number asked
            obtain rfl : number = other := by simpa using asked
            exact ⟨apart, leaf, standing, permitted⟩
          settings := .inr ⟨isAdmin, context, encoded, rfl⟩ }
    next notLast =>
      cases staged
      refine ⟨other, leaf, view.extension, standing, sameDevice, ?_, rfl, by simp,
        .inl ⟨rfl, by rw [sameUser]; exact notLast⟩⟩
      exact
        { adds := by simp
          noUpdates := by simp
          removes := by
            intro number asked
            obtain rfl : number = other := by simpa using asked
            exact ⟨apart, leaf, standing, permitted⟩
          settings := .inl ⟨rfl, rfl⟩ }

end

theorem stageExtensionChange_plan {change : SilverGroup → Except GroupError SilverGroup}
    (staged : stageExtensionChange engine view change = .ok made) :
    ∃ after, change view.extension = .ok after ∧ view.record.isAdmin engine.account = true ∧
      Plan engine group.tree view index made after ∧ addedBy made = [] ∧
      ∀ number, .remove number ∉ made := by
  unfold stageExtensionChange at staged
  obtain ⟨_, -, staged⟩ := bind_eq_ok.mp staged
  obtain ⟨isAdmin, staged⟩ := refuseIf_bind_eq_ok.mp staged
  obtain ⟨after, changed, staged⟩ := bind_eq_ok.mp staged
  obtain ⟨context, encoded, same⟩ := bind_eq_ok.mp staged
  cases same
  have isAdmin : view.record.isAdmin engine.account = true := by simpa using isAdmin
  refine ⟨after, changed, isAdmin, ?_, rfl, by simp⟩
  exact
    { adds := by simp
      noUpdates := by simp
      removes := by simp
      settings := .inr ⟨isAdmin, context, encoded, rfl⟩ }

theorem stageAdmin_plan {user : UserId} (staged : stageAdmin engine view user appoint = .ok made) :
    ∃ after, after =
        (if appoint then view.extension.withAdmin user else view.extension.withoutAdmin user) ∧
      view.record.isAdmin engine.account = true ∧
      Plan engine group.tree view index made after ∧ addedBy made = [] ∧
      ∀ number, .remove number ∉ made := by
  unfold stageAdmin at staged
  obtain ⟨_, -, staged⟩ := bind_eq_ok.mp staged
  obtain ⟨-, staged⟩ := refuseIf_bind_eq_ok.mp staged
  obtain ⟨after, changed, rest⟩ := stageExtensionChange_plan staged
  refine ⟨after, ?_, rest⟩
  simp only at changed
  generalize (if appoint then view.extension.withAdmin user
    else view.extension.withoutAdmin user) = next at changed ⊢
  split at changed
  · cases changed
  · exact (Except.ok.inj changed).symm

theorem stageSelfUpdate_plan (staged : stageSelfUpdate view = .ok made) :
    made = [] ∧ Plan engine group.tree view index made view.extension := by
  unfold stageSelfUpdate at staged
  obtain ⟨_, -, same⟩ := bind_eq_ok.mp staged
  cases same
  refine ⟨rfl, ?_⟩
  exact
    { adds := by simp
      noUpdates := by simp
      removes := by simp
      settings := .inl ⟨rfl, rfl⟩ }

theorem stageRejoin_plan {member : UserId}
    (sees : Sees keys group view) (staged : stageRejoin engine view member package = .ok made) :
    ∃ other leaf fresh, leafAt keys group.tree other = .ok leaf ∧
      verifyLeaf keys package none = .ok fresh ∧ leaf.device = fresh.device ∧
      made = [.remove other, .add package] ∧
      (view.record.isAdmin engine.account = false → fresh.account = engine.account) := by
  unfold stageRejoin at staged
  obtain ⟨_, -, staged⟩ := bind_eq_ok.mp staged
  obtain ⟨allowed, staged⟩ := refuseIf_bind_eq_ok.mp staged
  obtain ⟨fresh, verified, staged⟩ := bind_eq_ok.mp staged
  split at staged
  · cases staged
  next other leaf search =>
    cases staged
    obtain ⟨-, asExpected, again⟩ := verifyLeaf_eq_ok verified
    have standing := sees.mem_leaves.mp (mem_of_find?_eq_some search)
    refine ⟨other, leaf, fresh, standing, again, by simpa using find?_some search, rfl, ?_⟩
    intro notAdmin
    rw [asExpected member rfl]
    simpa [notAdmin] using allowed

end Requests

end Silver.Client.Groups
