import Silver.Foundation.Rows
import Silver.Foundation.Run
import Silver.Protocol.Group
import Silver.Relay.Sequencer

/-!
# The groups a relay sequences

Each call on the sequencer is one transaction on the table of groups: a creation, a commit, or
the sweep that retires idle groups and drops old headstones.  For as long as a group's record
stays, its epoch only grows and each epoch is left once, by whoever shows its token.
-/

namespace Silver.Relay

open Foundation Protocol Rows
open Nat

abbrev Groups : Type :=
  Rows GroupId GroupEntry

/-- What a sweep did. -/
structure GroupSweep where
  retired : Nat
  dropped : Nat
deriving DecidableEq

namespace Groups

def settle (groups : Groups) (group : GroupId) (outcome : Sequenced × Option GroupEntry) :
    Sequenced × Groups :=
  match outcome.2 with
  | none => (outcome.1, groups)
  | some entry => (outcome.1, groups.insert group entry)

def groupCreate (groups : Groups) (group : GroupId) (epoch : UInt64) (next : Bytes 32)
    (nowMs : Nat) : Sequenced × Groups :=
  groups.settle group (Relay.groupCreate (groups.lookup group) epoch.toNat next nowMs)

def groupCommit (tokenHash : Bytes 32 -> Bytes 32) (groups : Groups) (group : GroupId)
    (epoch : UInt64) (token next : Bytes 32) (nowMs : Nat) : Sequenced × Groups :=
  groups.settle group
    (Relay.groupCommit tokenHash (groups.lookup group) epoch.toNat token next nowMs)

def groupCount (groups : Groups) : Nat :=
  (groups.collect fun entry => entry.retiredAtMs.isNone).length

def retiredGroups (groups : Groups) : Nat :=
  (groups.collect fun entry => entry.retiredAtMs.isSome).length

def expireGroups (groups : Groups) (nowMs idleCutoffMs graceCutoffMs : Nat) : GroupSweep × Groups :=
  let retiring := groups.collect fun entry =>
    entry.retiredAtMs.isNone && entry.updatedAtMs < idleCutoffMs
  let dropping := groups.collect fun entry => entry.retiredAtMs.any (· < graceCutoffMs)
  (⟨retiring.length, dropping.length⟩,
    (groups.putEach (fun entry => { entry with retiredAtMs := some nowMs }) retiring).eraseEach
      dropping)

end Groups

/-- A transaction on the table of groups. -/
inductive GroupMove where
  | create (group : GroupId) (epoch : UInt64) (next : Bytes 32) (nowMs : Nat)
  | commit (group : GroupId) (epoch : UInt64) (token next : Bytes 32) (nowMs : Nat)
  | expire (nowMs idleCutoffMs graceCutoffMs : Nat)

namespace Groups

section Sequencing

variable (tokenHash : Bytes 32 -> Bytes 32)

def next (groups : Groups) : GroupMove -> Groups
  | .create group epoch next nowMs => (groups.groupCreate group epoch next nowMs).2
  | .commit group epoch token next nowMs =>
    (groupCommit tokenHash groups group epoch token next nowMs).2
  | .expire nowMs idleCutoffMs graceCutoffMs =>
    (groups.expireGroups nowMs idleCutoffMs graceCutoffMs).2

def step (groups : Groups) (move : GroupMove) : Option Groups :=
  some (groups.next tokenHash move)

def movesOn (groups : Groups) (group : GroupId) (epoch : UInt64) : GroupMove -> Bool
  | .commit asked named token next nowMs =>
    asked = group && named = epoch &&
      (groupCommit tokenHash groups asked named token next nowMs).1.accepted
  | .create _ _ _ _ | .expire _ _ _ => false

def commitsFrom (group : GroupId) (epoch : UInt64) : Groups -> List GroupMove -> Nat
  | _, [] => 0
  | groups, move :: moves =>
    (groups.movesOn tokenHash group epoch move).toNat +
      commitsFrom group epoch (groups.next tokenHash move) moves

end Sequencing

section Lookup

variable (groups : Groups)

@[simp] theorem settle_fst (group : GroupId) (outcome : Sequenced × Option GroupEntry) :
    (groups.settle group outcome).1 = outcome.1 := by
  unfold settle
  split
  · rfl
  · rfl

theorem lookup_settle {group : GroupId}
    (absent : outcome.2 = none -> groups.lookup group = none) (other : GroupId) :
    (groups.settle group outcome).2.lookup other =
      if other = group then outcome.2 else groups.lookup other := by
  unfold settle
  split
  next left =>
    split
    next same => rw [same, absent left, left]
    next => rfl
  next left =>
    split
    next same => rw [same, AList.lookup_insert, left]
    next apart => exact AList.lookup_insert_ne apart

def swept (nowMs idleCutoffMs graceCutoffMs : Nat) (entry : GroupEntry) : Option GroupEntry :=
  match entry.retiredAtMs with
  | none =>
    if entry.updatedAtMs < idleCutoffMs then some { entry with retiredAtMs := some nowMs }
    else some entry
  | some retiredAtMs => if retiredAtMs < graceCutoffMs then none else some entry

theorem lookup_expireGroups (nowMs idleCutoffMs graceCutoffMs : Nat) (group : GroupId) :
    (groups.expireGroups nowMs idleCutoffMs graceCutoffMs).2.lookup group =
      (groups.lookup group).bind (swept nowMs idleCutoffMs graceCutoffMs) := by
  simp only [expireGroups, lookup_eraseEach, mem_keys_collect, lookup_putEach_collect]
  cases groups.lookup group with
  | none => rfl
  | some entry =>
    rw [Option.any_some, Option.map_some, Option.bind_some, swept]
    cases entry.retiredAtMs with
    | none =>
      by_cases idle : entry.updatedAtMs < idleCutoffMs
      · simp [idle]
      · simp [idle]
    | some retiredAtMs => simp

end Lookup

/-- What a transaction can make of the record of a group. -/
inductive Change (tokenHash : Bytes 32 -> Bytes 32) (group : GroupId) :
    GroupMove -> Option GroupEntry -> Option GroupEntry -> Prop where
  | same (move : GroupMove) (record : Option GroupEntry) : Change tokenHash group move record record
  | created (epoch : UInt64) (next : Bytes 32) (nowMs : Nat) :
      Change tokenHash group (.create group epoch next nowMs) none
        (some ⟨epoch.toNat, next, nowMs, nowMs, none⟩)
  | raised (epoch : UInt64) (nowMs : Nat) (entry : GroupEntry)
      (headstone : entry.retiredAtMs.isSome = true)
      (sameEpoch : entry.epoch = epoch.toNat) :
      Change tokenHash group (.create group epoch entry.next nowMs) (some entry)
        (some { entry with retiredAtMs := none, updatedAtMs := nowMs })
  | moved (epoch : UInt64) (token next : Bytes 32) (nowMs : Nat) (entry : GroupEntry)
      (sameEpoch : entry.epoch = epoch.toNat)
      (shown : tokenHash token = entry.next)
      (notLast : epoch.toNat ≠ LAST_EPOCH) :
      Change tokenHash group (.commit group epoch token next nowMs) (some entry)
        (some
          { entry with
            epoch := epoch.toNat + 1
            next := next
            updatedAtMs := nowMs
            retiredAtMs := none })
  | retired (nowMs idleCutoffMs graceCutoffMs : Nat) (entry : GroupEntry)
      (live : entry.retiredAtMs = none)
      (idle : entry.updatedAtMs < idleCutoffMs) :
      Change tokenHash group (.expire nowMs idleCutoffMs graceCutoffMs) (some entry)
        (some { entry with retiredAtMs := some nowMs })
  | dropped (nowMs idleCutoffMs graceCutoffMs retiredAtMs : Nat) (entry : GroupEntry)
      (headstone : entry.retiredAtMs = some retiredAtMs)
      (old : retiredAtMs < graceCutoffMs) :
      Change tokenHash group (.expire nowMs idleCutoffMs graceCutoffMs) (some entry) none

section Changes

variable (tokenHash : Bytes 32 -> Bytes 32) (groups : Groups)

theorem change_swept
    (group : GroupId) (nowMs idleCutoffMs graceCutoffMs : Nat) (entry : GroupEntry) :
    Change tokenHash group (.expire nowMs idleCutoffMs graceCutoffMs) (some entry)
      (swept nowMs idleCutoffMs graceCutoffMs entry) := by
  unfold swept
  split
  next live =>
    split
    next idle => exact .retired _ _ _ entry live idle
    next => exact .same _ _
  next retiredAtMs headstone =>
    split
    next old => exact .dropped _ _ _ retiredAtMs entry headstone old
    next => exact .same _ _

theorem lookup_groupCreate
    (asked group : GroupId) (epoch : UInt64) (next : Bytes 32) (nowMs : Nat) :
    (groups.groupCreate asked epoch next nowMs).2.lookup group = if group = asked then
        (Relay.groupCreate (groups.lookup asked) epoch.toNat next nowMs).2
      else groups.lookup group := by
  refine groups.lookup_settle (fun left => ?_) group
  rcases groupCreate_cases (groups.lookup asked) epoch.toNat next nowMs with
    same | ⟨absent, _⟩ | ⟨_, _, _, _, _, held⟩
  · rw [← same, left]
  · exact absent
  rw [held] at left
  cases left

theorem lookup_groupCommit
    (asked group : GroupId) (epoch : UInt64) (token next : Bytes 32) (nowMs : Nat) :
    (groupCommit tokenHash groups asked epoch token next nowMs).2.lookup group =
      if group = asked then
        (Relay.groupCommit tokenHash (groups.lookup asked) epoch.toNat token next nowMs).2
      else groups.lookup group := by
  refine groups.lookup_settle (fun left => ?_) group
  rcases groupCommit_cases tokenHash (groups.lookup asked) epoch.toNat token next nowMs with
    ⟨_, same⟩ | ⟨_, _, _, _, _, held⟩
  · rw [← same, left]
  rw [held] at left
  cases left

theorem change_next (move : GroupMove) (group : GroupId) :
    Change tokenHash group move (groups.lookup group)
      ((groups.next tokenHash move).lookup group) := by
  cases move with
  | create asked epoch next nowMs =>
    rw [Groups.next, lookup_groupCreate]
    split
    next same =>
      subst same
      rcases groupCreate_cases (groups.lookup group) epoch.toNat next nowMs with
        same | ⟨absent, held⟩ | ⟨existing, found, sameEpoch, sameNext, headstone, held⟩
      · rw [same]
        exact .same _ _
      · rw [held, absent]
        exact .created epoch next nowMs
      rw [held, found, ← sameNext]
      exact .raised epoch nowMs existing headstone sameEpoch
    next => exact .same _ _
  | commit asked epoch token next nowMs =>
    rw [Groups.next, lookup_groupCommit]
    split
    next same =>
      subst same
      rcases groupCommit_cases tokenHash (groups.lookup group) epoch.toNat token next nowMs with
        ⟨_, same⟩ | ⟨existing, found, sameEpoch, shown, notLast, held⟩
      · rw [same]
        exact .same _ _
      rw [held, found]
      exact .moved epoch token next nowMs existing sameEpoch shown notLast
    next => exact .same _ _
  | expire nowMs =>
    rw [Groups.next, lookup_expireGroups]
    cases groups.lookup group with
    | none => exact .same _ _
    | some entry => exact change_swept tokenHash group _ _ _ entry

/-- The sequencer of one group alone. -/
def alone (group : GroupId) (entry : Option GroupEntry) : GroupMove -> Option GroupEntry
  | .create asked epoch next nowMs =>
    if group = asked then (Relay.groupCreate entry epoch.toNat next nowMs).2 else entry
  | .commit asked epoch token next nowMs =>
    if group = asked then (Relay.groupCommit tokenHash entry epoch.toNat token next nowMs).2
    else entry
  | .expire nowMs idleCutoffMs graceCutoffMs => entry.bind (swept nowMs idleCutoffMs graceCutoffMs)

theorem lookup_next (group : GroupId) (move : GroupMove) :
    (groups.next tokenHash move).lookup group =
      alone tokenHash group (groups.lookup group) move := by
  cases move with
  | create | commit =>
    simp only [next, alone, lookup_groupCreate, lookup_groupCommit]
    split
    next same => rw [same]
    next => rfl
  | expire => exact lookup_expireGroups groups _ _ _ group

/-- Groups do not disturb one another: what requests and sweeps leave of a group is what
they make of its own entry. -/
theorem groups_apart (group : GroupId) (moves : List GroupMove) :
    (moves.foldl (next tokenHash) groups).lookup group =
      moves.foldl (alone tokenHash group) (groups.lookup group) := by
  induction moves generalizing groups with
  | nil => rfl
  | cons move moves ih => rw [List.foldl_cons, List.foldl_cons, ih, lookup_next]

end Changes

section Change

theorem Change.epoch_le (change : Change tokenHash group move (some entry) (some later)) :
    entry.epoch <= later.epoch := by
  cases change with
  | same | raised | retired => exact le_refl _
  | moved epoch _ _ _ _ sameEpoch =>
    rw [sameEpoch]
    exact le_succ _

theorem Change.epoch_le_last
    {record : Option GroupEntry} (bounded : ∀ entry, record = some entry -> entry.epoch <= LAST_EPOCH)
    (change : Change tokenHash group move record (some later)) :
    later.epoch <= LAST_EPOCH := by
  have small : ∀ epoch : UInt64, epoch.toNat <= LAST_EPOCH := fun epoch =>
    le_pred_of_lt epoch.toNat_lt
  cases change with
  | same => exact bounded later rfl
  | created epoch => exact small epoch
  | raised _ _ entry | retired _ _ _ entry => exact bounded entry rfl
  | moved epoch _ _ _ _ _ _ notLast => exact lt_of_le_of_ne (small epoch) notLast

theorem Change.raises (change : Change tokenHash group move (some entry) (some later))
    (headstone : entry.retiredAtMs.isSome = true) (live : later.retiredAtMs = none) :
    (∃ epoch nowMs, move = .create group epoch entry.next nowMs ∧ entry.epoch = epoch.toNat) ∨
      ∃ epoch token next nowMs, move = .commit group epoch token next nowMs ∧
        entry.epoch = epoch.toNat ∧ tokenHash token = entry.next := by
  cases change with
  | same =>
    rw [live] at headstone
    cases headstone
  | raised epoch nowMs _ _ sameEpoch => exact .inl ⟨epoch, nowMs, rfl, sameEpoch⟩
  | moved epoch token next nowMs _ sameEpoch shown =>
    exact .inr ⟨epoch, token, next, nowMs, rfl, sameEpoch, shown⟩
  | retired => cases live

end Change

section Runs

variable {tokenHash : Bytes 32 -> Bytes 32} {groups final : Groups} {moves : List GroupMove}
  {group : GroupId} {entry later : GroupEntry}

def Stays (tokenHash : Bytes 32 -> Bytes 32) (group : GroupId) (groups : Groups)
    (moves : List GroupMove) : Prop :=
  ∀ state, Reached (Groups.step tokenHash) groups moves state -> group ∈ state

theorem stays_nil : Stays tokenHash group groups [] ↔ group ∈ groups := by
  simp only [Stays, reached_nil, forall_eq]

theorem stays_cons : Stays tokenHash group groups (move :: moves) ↔
      group ∈ groups ∧ Stays tokenHash group (groups.next tokenHash move) moves := by
  constructor
  · intro stays
    exact ⟨stays groups (reached_start _ _ _), fun state reached => stays state (reached.cons rfl)⟩
  rintro ⟨first, later⟩ state ⟨inputs, shorter, reached⟩
  cases inputs with
  | nil =>
    cases reached
    exact first
  | cons _ inputs =>
    obtain ⟨rfl, within⟩ := List.cons_prefix_cons.mp shorter
    exact later state ⟨inputs, within, reached⟩

instance Stays.decidable (groups : Groups) (moves : List GroupMove) :
    Decidable (Stays tokenHash group groups moves) :=
  match moves with
  | [] => decidable_of_iff _ stays_nil.symm
  | move :: moves =>
    have := Stays.decidable (groups.next tokenHash move) moves
    decidable_of_iff _ stays_cons.symm

theorem Stays.held (stays : Stays tokenHash group groups moves) :
    ∃ entry, groups.lookup group = some entry :=
  Option.isSome_iff_exists.mp (AList.lookup_isSome.mpr (stays groups (reached_start _ _ _)))

theorem groupCommit_accepted {epoch : UInt64} {token next : Bytes 32}
    (accepted : (groupCommit tokenHash groups group epoch token next nowMs).1.accepted = true) :
    ∃ entry, groups.lookup group = some entry ∧ entry.epoch = epoch.toNat ∧
      tokenHash token = entry.next ∧ epoch.toNat + 1 <= LAST_EPOCH ∧
      ∃ later, (groupCommit tokenHash groups group epoch token next nowMs).2.lookup group =
        some later ∧ later.epoch = epoch.toNat + 1 := by
  rw [groupCommit, settle_fst] at accepted
  rcases groupCommit_cases tokenHash (groups.lookup group) epoch.toNat token next nowMs with
    ⟨refused, _⟩ | ⟨existing, found, sameEpoch, shown, notLast, moved⟩
  · rw [refused] at accepted
    cases accepted
  have small : epoch.toNat + 1 <= LAST_EPOCH := lt_of_le_of_ne (le_pred_of_lt epoch.toNat_lt) notLast
  refine ⟨existing, found, sameEpoch, shown, small, ?_⟩
  rw [lookup_groupCommit, if_pos rfl, moved]
  exact ⟨_, rfl, rfl⟩

theorem epoch_of_movesOn {epoch : UInt64}
    (accepted : groups.movesOn tokenHash group epoch move = true)
    (held : groups.lookup group = some entry)
    (after : (groups.next tokenHash move).lookup group = some later) :
    entry.epoch = epoch.toNat ∧ later.epoch = epoch.toNat + 1 := by
  cases move with
  | create | expire => cases accepted
  | commit _ _ _ next =>
    simp only [movesOn, Bool.and_eq_true, decide_eq_true_eq] at accepted
    obtain ⟨⟨rfl, rfl⟩, stands⟩ := accepted
    obtain ⟨_, found, sameEpoch, _, _, _, there, movedEpoch⟩ := groupCommit_accepted stands
    cases found.symm.trans held
    cases there.symm.trans after
    exact ⟨sameEpoch, movedEpoch⟩

theorem commitsFrom_le (epoch : UInt64) (stays : Stays tokenHash group groups moves)
    (held : groups.lookup group = some entry) :
    commitsFrom tokenHash group epoch groups moves <=
      if entry.epoch <= epoch.toNat then 1 else 0 := by
  induction moves generalizing groups entry with
  | nil => exact zero_le _
  | cons move moves ih =>
    obtain ⟨_, after⟩ := (stays_cons.mp stays).2.held
    have rest := ih (stays_cons.mp stays).2 after
    rw [commitsFrom]
    cases accepted : groups.movesOn tokenHash group epoch move with
    | true =>
      obtain ⟨_, _⟩ := epoch_of_movesOn accepted held after
      rw [if_neg (by omega)] at rest
      rw [if_pos (by omega), le_zero.mp rest]
      exact le_refl 1
    | false =>
      have change := change_next tokenHash groups move group
      rw [held, after] at change
      have grows := change.epoch_le
      rw [Bool.toNat_false, zero_add]
      refine rest.trans ?_
      split
      · rw [if_pos (by omega)]
      · exact zero_le _

theorem epoch_le_of_stays (stays : Stays tokenHash group groups moves)
    (ended : run (Groups.step tokenHash) groups moves = some final)
    (held : groups.lookup group = some entry) (after : final.lookup group = some later) :
    entry.epoch <= later.epoch := by
  induction moves generalizing groups entry with
  | nil =>
    cases ended
    cases held.symm.trans after
    exact le_refl _
  | cons move moves ih =>
    obtain ⟨_, found⟩ := (stays_cons.mp stays).2.held
    have change := change_next tokenHash groups move group
    rw [held, found] at change
    exact change.epoch_le.trans (ih (stays_cons.mp stays).2 ended found)

theorem epoch_le_last_of_run (ended : run (Groups.step tokenHash) (∅ : Groups) moves = some final)
    (held : final.lookup group = some entry) :
    entry.epoch <= LAST_EPOCH := by
  let kept : Groups -> Prop := fun groups =>
    ∀ group entry, groups.lookup group = some entry -> entry.epoch <= LAST_EPOCH
  have preserve : ∀ move groups next, kept groups ->
      Groups.step tokenHash groups move = some next -> kept next := by
    intro move groups next bounded ran group entry after
    cases ran
    have change := change_next tokenHash groups move group
    rw [after] at change
    exact change.epoch_le_last (bounded group)
  have start : kept ∅ := by
    intro group entry held
    rw [AList.lookup_empty] at held
    cases held
  have ends : kept final := run_keeps start preserve ended
  exact ends group entry held

end Runs

section Counts

variable (groups : Groups)

def live : Set GroupId :=
  {group | ∃ entry, groups.lookup group = some entry ∧ entry.retiredAtMs = none}

def headstones : Set GroupId :=
  {group | ∃ entry, groups.lookup group = some entry ∧ entry.retiredAtMs.isSome = true}

theorem groupCount_eq : groups.groupCount = groups.live.ncard := by
  rw [groupCount, length_collect]
  apply congrArg Set.ncard
  ext group
  simp [live, Option.any_eq_true]

theorem retiredGroups_eq : groups.retiredGroups = groups.headstones.ncard := by
  rw [retiredGroups, length_collect]
  apply congrArg Set.ncard
  ext group
  simp [headstones, Option.any_eq_true]

theorem retired_expireGroups (nowMs idleCutoffMs graceCutoffMs : Nat) :
    (groups.expireGroups nowMs idleCutoffMs graceCutoffMs).1.retired = (groups.live ∩
        (groups.expireGroups nowMs idleCutoffMs graceCutoffMs).2.headstones).ncard := by
  rw [show (groups.expireGroups nowMs idleCutoffMs graceCutoffMs).1.retired =
    (groups.collect fun entry =>
      entry.retiredAtMs.isNone && entry.updatedAtMs < idleCutoffMs).length from rfl,
    length_collect]
  apply congrArg Set.ncard
  ext group
  simp only [live, headstones, Set.mem_inter_iff, Set.mem_ofPred_eq, lookup_expireGroups]
  cases groups.lookup group with
  | none => simp
  | some entry =>
    cases retired : entry.retiredAtMs with
    | some retiredAtMs => simp [retired]
    | none =>
      by_cases idle : entry.updatedAtMs < idleCutoffMs
      · simp [swept, retired, idle]
      · simp [swept, retired, idle]

theorem dropped_expireGroups (nowMs idleCutoffMs graceCutoffMs : Nat) :
    (groups.expireGroups nowMs idleCutoffMs graceCutoffMs).1.dropped =
      {group | group ∈ groups ∧
        group ∉ (groups.expireGroups nowMs idleCutoffMs graceCutoffMs).2}.ncard := by
  rw [show (groups.expireGroups nowMs idleCutoffMs graceCutoffMs).1.dropped =
    (groups.collect fun entry => entry.retiredAtMs.any (· < graceCutoffMs)).length from rfl,
    length_collect]
  apply congrArg Set.ncard
  ext group
  simp only [Set.mem_ofPred_eq, ← AList.lookup_isSome, lookup_expireGroups]
  cases groups.lookup group with
  | none => simp
  | some entry =>
    cases retired : entry.retiredAtMs with
    | none =>
      by_cases idle : entry.updatedAtMs < idleCutoffMs
      · simp [swept, retired, idle]
      · simp [swept, retired, idle]
    | some retiredAtMs => simp [swept, retired]

end Counts

/-- In every run of creations, commits and sweeps on the table of groups: while a group's
record stays, its epoch never decreases and at most one commit is accepted from each epoch; a
commit is accepted only where it names the record's epoch and shows a token of the record's
hash, and the next epoch fits in 64 bits; a headstone is raised only by its own epoch with its
hash or a token of it; and the counts are those of the table. -/
theorem sequencer_safe
    (tokenHash : Bytes 32 → Bytes 32) {before during : List GroupMove} {start final : Groups}
    (reached : run (Groups.step tokenHash) (∅ : Groups) before = some start)
    (ended : run (Groups.step tokenHash) start during = some final) :
    (∀ group, Stays tokenHash group start during →
      (∀ entry later, start.lookup group = some entry → final.lookup group = some later →
        entry.epoch ≤ later.epoch) ∧
      ∀ epoch, commitsFrom tokenHash group epoch start during ≤ 1) ∧
    (∀ group epoch token next nowMs,
      (groupCommit tokenHash final group epoch token next nowMs).1.accepted = true →
      ∃ entry, final.lookup group = some entry ∧ entry.epoch = epoch.toNat ∧
        tokenHash token = entry.next ∧ epoch.toNat + 1 ≤ LAST_EPOCH) ∧
    (∀ group move entry later, final.lookup group = some entry → entry.retiredAtMs.isSome = true →
      (final.next tokenHash move).lookup group = some later → later.retiredAtMs = none →
      (∃ epoch nowMs, move = .create group epoch entry.next nowMs ∧ entry.epoch = epoch.toNat) ∨
      ∃ epoch token next nowMs, move = .commit group epoch token next nowMs ∧
        entry.epoch = epoch.toNat ∧ tokenHash token = entry.next) ∧
    (final.groupCount = final.live.ncard ∧ final.retiredGroups = final.headstones.ncard ∧
      ∀ nowMs idleCutoffMs graceCutoffMs,
        (final.expireGroups nowMs idleCutoffMs graceCutoffMs).1.retired = (final.live ∩
            (final.expireGroups nowMs idleCutoffMs graceCutoffMs).2.headstones).ncard ∧
        (final.expireGroups nowMs idleCutoffMs graceCutoffMs).1.dropped =
          {group | group ∈ final ∧
            group ∉ (final.expireGroups nowMs idleCutoffMs graceCutoffMs).2}.ncard) ∧
    ∀ group entry, final.lookup group = some entry → entry.epoch ≤ LAST_EPOCH := by
  have whole : run (Groups.step tokenHash) (∅ : Groups) (before ++ during) = some final := by
    rw [run_append, reached, Option.bind_some, ended]
  refine ⟨fun group stays => ⟨fun entry later held after =>
    epoch_le_of_stays stays ended held after, fun epoch => ?_⟩, ?_, ?_, ?_, ?_⟩
  · obtain ⟨entry, held⟩ := stays.held
    refine (commitsFrom_le epoch stays held).trans ?_
    split
    · exact le_refl 1
    · exact zero_le 1
  · intro group epoch token next nowMs accepted
    obtain ⟨entry, held, sameEpoch, shown, small, _⟩ := groupCommit_accepted accepted
    exact ⟨entry, held, sameEpoch, shown, small⟩
  · intro group move entry later held headstone after live
    have change := change_next tokenHash final move group
    rw [held, after] at change
    exact change.raises headstone live
  · exact ⟨final.groupCount_eq, final.retiredGroups_eq, fun nowMs idleCutoffMs graceCutoffMs =>
      ⟨final.retired_expireGroups _ _ _, final.dropped_expireGroups _ _ _⟩⟩
  intro group entry held
  exact epoch_le_last_of_run whole held

namespace Example

def group : GroupId := Bytes.fill 32 1

def token (epoch : UInt8) : Bytes 32 := Bytes.fill 32 epoch

def early : List GroupMove :=
  [.create group 0 (token 0) 10, .commit group 0 (token 0) (token 1) 20]

def late : List GroupMove :=
  [.commit group 0 (token 0) (token 9) 21, .expire 100 50 0,
    .commit group 1 (token 1) (token 2) 110, .commit group 1 (token 1) (token 3) 111]

def started : Groups :=
  early.foldl (Groups.next id) ∅

def ending : Groups :=
  late.foldl (Groups.next id) started

theorem reached : run (Groups.step id) (∅ : Groups) early = some started := rfl

theorem ended : run (Groups.step id) started late = some ending := rfl

end Example

/-- Two members commit from one epoch, and one is accepted. -/
theorem one_commit_accepted : ∃ start final,
      run (Groups.step id) (∅ : Groups) Example.early = some start ∧
      run (Groups.step id) start Example.late = some final ∧
      Stays id Example.group start Example.late ∧
      commitsFrom id Example.group 1 start Example.late = 1 ∧
      commitsFrom id Example.group 1 start Example.late ≤ 1 ∧
      final.groupCount = final.live.ncard := by
  have stays : Stays id Example.group Example.started Example.late := by
    decide +kernel
  have safe := sequencer_safe id Example.reached Example.ended
  exact ⟨Example.started, Example.ending, Example.reached, Example.ended, stays, by decide +kernel,
    (safe.1 Example.group stays).2 1, safe.2.2.2.1.1⟩

end Groups

end Silver.Relay
