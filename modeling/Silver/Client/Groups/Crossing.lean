import Silver.Client.Groups.Holding

/-!
# Commits that cross on the wire

A member that gets consecutive commits in some other order holds back those of later
epochs and catches up when the next one arrives.  Whatever the order, it ends where
receiving them one epoch after the other would have taken it.
-/

namespace Silver.Client.Groups

open Foundation Protocol List Member Refreshing Handover

/-- A commit of the epoch a member stands at: it travels inline, carries only
proposals of its committer, is accepted and does not remove the member. -/
structure Lands (mls : Mls) (group : GroupId) (handle : Handle mls.Secrets) (bytes : List UInt8)
    (staged : StagedCommit) (token : Bytes 32) (secrets : mls.Secrets) : Prop where
  header : mls.header bytes =
    .ok { group := group.data, epoch := handle.epoch, isHandshake := true }
  inline : bytes.length <= MAX_INLINE_MLS_BYTES
  opened : (mls.process handle bytes).1 =
    .ok { sender := .member staged.sender, content := .stagedCommit staged token secrets }
  valid : staged.Valid handle.tree handle.context
  byValue : ∀ queued ∈ staged.proposals, queued.sender = .member staged.sender
  accepted : ∃ own before change, leafAt mls.keys handle.tree staged.sender = .ok own ∧
    extensionOf handle.context.extensions = .ok before ∧
    checkCommit mls.keys handle.tree staged own.account before = .ok change
  stays : handle.ownIndex ∉ staged.removedIndices

/-- Consecutive commits, each of the epoch the one before leads to. -/
inductive Consecutive (mls : Mls) (group : GroupId) :
    Handle mls.Secrets -> List (List UInt8) -> Handle mls.Secrets -> Prop
  | done (handle : Handle mls.Secrets) : Consecutive mls group handle [] handle
  | commit {handle next final : Handle mls.Secrets} {bytes : List UInt8}
      {rest : List (List UInt8)} {staged : StagedCommit} {token : Bytes 32}
      {secrets : mls.Secrets}
      (lands : Lands mls group handle bytes staged token secrets)
      (merged : handle.merge staged token secrets = .ok next)
      (later : Consecutive mls group next rest final) :
      Consecutive mls group handle (bytes :: rest) final

def Member.receiveAll {mls : Mls} (group : GroupId) (short : UserId -> String) :
    Member mls -> List Held -> Option (Member mls)
  | member, [] => some member
  | member, arrival :: rest =>
    match member.receive group short arrival.sender arrival.mls arrival.receivedAtMs with
    | none => none
    | some (next, _) => receiveAll group short next rest

def Together (arrivals : List Held) : Prop :=
  ∀ first ∈ arrivals, ∀ second ∈ arrivals, second.receivedAtMs < first.receivedAtMs + HOLD_FOR_MS

theorem Handle.merge_eq {handle : Handle Secrets} {staged : StagedCommit} (token : Bytes 32)
    (secrets : Secrets) (valid : staged.Valid handle.tree handle.context) :
    handle.merge staged token secrets = .ok
        { epoch := handle.epoch + 1
          tree := valid.tree
          context := staged.context
          token := token
          ownIndex := handle.ownIndex
          proposals := []
          pendingCommit := false
          secrets := secrets } := by
  have built : Tree.ofNodes (staged.appliedNodes handle.tree) = some valid.tree :=
    dif_pos valid.distinct
  unfold Handle.merge
  rw [built]

theorem updateProposals_of_byValue {staged : StagedCommit} {tree : Tree} {context : GroupContext}
    (valid : staged.Valid tree context)
    (byValue : ∀ queued ∈ staged.proposals, queued.sender = .member staged.sender) :
    staged.updateProposals = [] := by
  apply eq_nil_iff_forall_not_mem.mpr
  intro update listed
  obtain ⟨_, byIndex, another, -⟩ := valid.updatesByMembers update listed
  obtain ⟨queued, carried, shown⟩ := mem_filterMap.mp listed
  split at shown
  · cases shown
    exact another (Sender.member.inj (byIndex.symm.trans (byValue queued carried)))
  · cases shown

section Landing

variable {mls : Mls} {group : GroupId} {member : Member mls}
  {handle next : Handle mls.Secrets} {staged : StagedCommit}

theorem Lands.reads (lands : Lands mls group handle bytes staged token secrets)
    (merged : handle.merge staged token secrets = .ok next) :
    ∃ leaves after, leavesOf mls.keys next.tree = .ok leaves ∧
      extensionOf staged.context.extensions = .ok after := by
  obtain ⟨_, _, _, standing, -, passed⟩ := lands.accepted
  obtain ⟨_, after, accepted, -⟩ := checkCommit_eq_ok.mp passed
  have keeps : UpdatesKeepAccounts mls.keys handle.tree staged := by
    intro _ listed
    rw [updateProposals_of_byValue lands.valid lands.byValue] at listed
    cases listed
  obtain ⟨leaves, read, -⟩ := leavesOf_applied lands.valid accepted.brings standing keeps
  rw [Handle.merge_eq token secrets lands.valid] at merged
  cases merged
  exact ⟨leaves, after, read, accepted.extension⟩

theorem Member.commit_merges
    {before after : SilverGroup} {change : Change} {leaves : List (Nat × Leaf)}
    (extension : extensionOf handle.context.extensions = .ok before)
    (passed : checkCommit mls.keys handle.tree staged own before = .ok change)
    (extensionAfter : extensionOf staged.context.extensions = .ok after)
    (merged : handle.merge staged token secrets = .ok next)
    (kept : handle.ownIndex ∉ staged.removedIndices)
    (read : leavesOf mls.keys next.tree = .ok leaves) (active : member.record.state = .active) :
    ∃ (moved : Member mls) (events : List mls.Event), (∀ held,
        (member.withHeld held).commit handle own staged token secrets =
          (moved.withHeld held, .ok events)) ∧
      moved.handle = some next ∧ moved.record.state = .active := by
  let moved : Member mls :=
    { record :=
        { member.record with
          members := membersOf leaves after
          name := after.name
          tokens := pushToken member.record.tokens next.epoch next.token }
      handle := some next
      staged := if handle.pendingCommit then false else member.staged }
  refine ⟨moved, (describe change before after).map (.changed own), ?_, rfl, active⟩
  intro held
  unfold commit
  simp only [extension, passed, extensionAfter, merged, kept, if_false, read]
  cases pending : handle.pendingCommit with
  | true | false => simp [withHeld, active, moved, pending]

theorem Lands.processOne (lands : Lands mls group handle bytes staged token secrets)
    (merged : handle.merge staged token secrets = .ok next) (has : member.handle = some handle)
    (active : member.record.state = .active) :
    ∃ (after : Member mls) (events : List mls.Event), (∀ sender nowMs held,
        (member.withHeld held).processOne group short sender bytes nowMs =
          (after.withHeld held, .ok events)) ∧
      after.handle = some next ∧ after.record.state = .active := by
  obtain ⟨own, _, _, standing, extension, passed⟩ := lands.accepted
  obtain ⟨_, after, read, extensionAfter⟩ := lands.reads merged
  -- Opening the message uses up secrets of the epoch, which merging replaces.
  let opened := { handle with secrets := (mls.process handle bytes).2 }
  obtain ⟨moved, events, commits, hasNext, stays⟩ :
      ∃ (moved : Member mls) (events : List mls.Event), (∀ held,
        (withHeld { member with handle := some opened } held).commit opened own.account staged
          token secrets = (moved.withHeld held, .ok events)) ∧ _ :=
    commit_merges extension passed extensionAfter merged lands.stays read active
  refine ⟨moved, events, ?_, hasNext, stays⟩
  intro sender nowMs held
  rw [← commits held]
  unfold Member.processOne
  rw [lands.header]
  simp only [withHeld_handle, has, ne_eq, not_true_eq_false, if_false, gt_iff_lt,
    Nat.lt_irrefl, decide_false, Bool.and_false, Bool.false_eq_true, lands.opened, standing]
  rfl

end Landing

/-- The way a member takes through commits, whatever it holds back meanwhile. -/
inductive Path (mls : Mls) (group : GroupId) (short : UserId -> String) :
    Member mls -> List (List UInt8) -> Member mls -> Prop
  | done {member : Member mls} (active : member.record.state = .active) :
      Path mls group short member [] member
  | step {member next final : Member mls} {handle : Handle mls.Secrets} {bytes : List UInt8}
      {rest : List (List UInt8)} {events : List mls.Event}
      (active : member.record.state = .active)
      (has : member.handle = some handle)
      (header : mls.header bytes =
        .ok { group := group.data, epoch := handle.epoch, isHandshake := true })
      (inline : bytes.length <= MAX_INLINE_MLS_BYTES)
      (advances : ∀ sender nowMs held,
        (member.withHeld held).processOne group short sender bytes nowMs =
          (next.withHeld held, .ok events))
      (epoch : next.handle.map Handle.epoch = some (handle.epoch + 1))
      (later : Path mls group short next rest final) :
      Path mls group short member (bytes :: rest) final

theorem Consecutive.path
    {mls : Mls} {group : GroupId} {member : Member mls} {handle last : Handle mls.Secrets}
    (short : UserId -> String)
    (consecutive : Consecutive mls group handle commits last)
    (active : member.record.state = .active) (has : member.handle = some handle) :
    ∃ final, Path mls group short member commits final ∧ final.handle = some last ∧
      final.record.state = .active := by
  induction consecutive generalizing member with
  | done handle => exact ⟨member, .done active, has, active⟩
  | @commit handle _ last _ _ _ token secrets lands merged _ ih =>
    obtain ⟨moved, _, advances, hasNext, stays⟩ := lands.processOne merged has active
    obtain ⟨final, path, hasLast, activeLast⟩ := ih stays hasNext
    have epoch : moved.handle.map Handle.epoch = some (handle.epoch + 1) := by
      rw [Handle.merge_eq token secrets lands.valid] at merged
      rw [hasNext, ← Except.ok.inj merged]
      rfl
    exact ⟨final, .step active has lands.header lands.inline advances epoch path, hasLast,
      activeLast⟩

namespace Path

variable {mls : Mls} {group : GroupId} {member final : Member mls}

theorem active (path : Path mls group short member commits final) :
    member.record.state = .active := by
  cases path with
  | done active | step active => exact active

theorem header_of_mem (path : Path mls group short member commits final) {epoch : Nat}
    (here : member.handle.map Handle.epoch = some epoch) (listed : bytes ∈ commits) :
    bytes.length <= MAX_INLINE_MLS_BYTES ∧ ∃ steps < commits.length, mls.header bytes =
      .ok { group := group.data, epoch := epoch + steps, isHandshake := true } := by
  induction path generalizing epoch with
  | done => cases listed
  | @step _ _ _ handle _ _ _ _ has header inline _ nextEpoch _ ih =>
    rw [has, Option.map_some] at here
    cases here
    rcases mem_cons.mp listed with rfl | later
    · exact ⟨inline, 0, Nat.succ_pos _, header⟩
    obtain ⟨small, steps, few, read⟩ := ih nextEpoch later
    refine ⟨small, steps + 1, Nat.succ_lt_succ few, ?_⟩
    rw [read, Nat.add_right_comm, Nat.add_assoc]

theorem waits {handle : Handle mls.Secrets} (path : Path mls group short member (bytes :: rest) final)
    (has : member.handle = some handle) (few : (bytes :: rest).length <= HOLD_LIMIT)
    (listed : other ∈ rest) :
    Waits mls group handle.epoch other := by
  cases path with
  | step _ hasHere _ _ _ nextEpoch later =>
    cases hasHere.symm.trans has
    obtain ⟨small, _, _, read⟩ := later.header_of_mem nextEpoch listed
    rw [List.length_cons] at few
    exact ⟨_, read, rfl, rfl, by simp only; omega, by simp only; omega, small⟩

end Path

/-- A member on its way: what it holds and what it has yet to receive are the commits
that remain, and what it holds arrived at one of these times. -/
structure Catching {mls : Mls} (group : GroupId) (short : UserId -> String) (final : Member mls)
    (times : List Nat) (unreceived : List (List UInt8)) (member : Member mls) (held : List Held)
    (rest : List (List UInt8)) : Prop where
  path : Path mls group short member rest final
  few : rest.length <= HOLD_LIMIT
  shares : (held.map Held.mls ++ unreceived).Perm rest
  arrived : ∀ item ∈ held, item.receivedAtMs ∈ times

def Held.AllLater (held : List Held) (rest : List (List UInt8)) : Prop :=
  ∀ item ∈ held, rest.head? ≠ some item.mls

namespace Catching

variable {mls : Mls} {group : GroupId} {member final : Member mls}

theorem within (catching : Catching group short final times unreceived member held rest) :
    Within held := by
  have few : held.length <= HOLD_LIMIT := by
    have shared := catching.shares.length_eq
    rw [length_append, length_map] at shared
    exact (Nat.le_add_right _ _).trans (shared.trans_le catching.few)
  have small : ∀ size ∈ held.map fun item => item.mls.length, size <= MAX_INLINE_MLS_BYTES := by
    intro size listed
    obtain ⟨item, isHeld, rfl⟩ := mem_map.mp listed
    have remains : item.mls ∈ rest := catching.shares.mem_iff.mp
      (mem_append_left _ (mem_map_of_mem isHeld))
    cases catching.path with
    | done => cases remains
    | step active has header inline advances epoch later =>
      exact ((Path.step active has header inline advances epoch later).header_of_mem
        (by rw [has, Option.map_some]) remains).1
  refine ⟨few, ?_⟩
  calc heldBytes held <= (held.map fun item => item.mls.length).length * MAX_INLINE_MLS_BYTES :=
        List.sum_le_card_nsmul _ _ small
    _ <= HOLD_LIMIT * MAX_INLINE_MLS_BYTES := by
        rw [length_map]
        exact Nat.mul_le_mul_right _ few
    _ <= HOLD_BYTES := by decide

theorem advance {bytes : List UInt8}
    (catching : Catching group short final times unreceived member held (bytes :: rest))
    {next : Member mls} (later : Path mls group short next rest final)
    (others : (held.map Held.mls ++ unreceived).Perm (bytes :: (kept.map Held.mls ++ keptUnreceived)))
    (fewer : ∀ item ∈ kept, item ∈ held) :
    Catching group short final times keptUnreceived next kept rest where
  path := later
  few := Nat.le_of_succ_le catching.few
  shares := (others.symm.trans catching.shares).cons_inv
  arrived := fun item listed => catching.arrived item (fewer item listed)

section

variable {times : List Nat} (young : ∀ time ∈ times, nowMs < time + HOLD_FOR_MS)
include young

theorem holds {bytes : List UInt8} (catching : Catching group short final times unreceived member
      (held ++ [{ receivedAtMs := nowMs, sender := sender, mls := bytes }] ++ kept) rest)
    (notNext : rest.head? ≠ some bytes) :
    (member.withHeld held).processOne group short sender bytes nowMs =
      (member.withHeld (held ++ [{ receivedAtMs := nowMs, sender := sender, mls := bytes }]),
        .ok []) := by
  have current : fresh nowMs held = held := by
    apply List.filter_eq_self.mpr
    intro item listed
    simpa using young _ (catching.arrived item (mem_append_left _ (mem_append_left _ listed)))
  have remains : bytes ∈ rest := catching.shares.mem_iff.mp (by simp)
  have path := catching.path
  have few := catching.few
  cases rest with
  | nil => cases remains
  | cons _ others =>
    have waiting : bytes ∈ others := by
      rcases mem_cons.mp remains with rfl | later
      · exact absurd rfl notNext
      · exact later
    obtain ⟨handle, has⟩ : ∃ handle, member.handle = some handle := by
      cases path with
      | step _ has => exact ⟨_, has⟩
    have step : (member.withHeld held).processOne group short sender bytes nowMs = _ :=
      processOne_waits has (path.waits has few waiting)
        (by rw [withHeld_held, current]; exact catching.within.left)
    rwa [withHeld_held, current] at step

theorem retry {items : List Held} (progressed : Bool) (events : List mls.Event)
    (catching : Catching group short final times unreceived member (kept ++ items) rest)
    (now : nowMs ∈ times) :
    ∃ next heldNext restNext progressedNext eventsNext,
      retry group short nowMs (member.withHeld kept) items progressed events =
        (next.withHeld heldNext, .ok (progressedNext, eventsNext)) ∧
      Catching group short final times unreceived next heldNext restNext ∧
      (progressedNext = false -> progressed = false ∧ restNext = rest ∧
        heldNext.map Held.mls = (kept ++ items).map Held.mls ∧ Held.AllLater items rest) := by
  induction items generalizing member kept rest progressed events with
  | nil =>
    rw [append_nil] at catching ⊢
    exact ⟨member, kept, rest, progressed, events, rfl, catching,
      fun stuck => ⟨stuck, rfl, rfl, forall_mem_nil _⟩⟩
  | cons item items ih =>
    have notOld := Nat.not_le_of_lt (young _ (catching.arrived item (by simp)))
    unfold retry
    rw [if_neg notOld]
    by_cases isNext : rest.head? = some item.mls
    · -- The next commit: it is merged, and the round has got somewhere.
      obtain ⟨others, rfl⟩ := head?_eq_some_iff.mp isNext
      cases catching.path with
      | @step _ next _ _ _ _ more _ _ _ _ advances _ later =>
        have caught : Catching group short final times unreceived next (kept ++ items) others := by
          refine catching.advance later ?_ ?_
          · simp
          simp only [mem_append, mem_cons]
          tauto
        obtain ⟨after, heldNext, restNext, progressedNext, eventsNext, went, catchingNext, stuck⟩ :=
          ih true (events ++ more) caught
        refine ⟨after, heldNext, restNext, progressedNext, eventsNext, ?_, catchingNext, ?_⟩
        · rw [advances]
          simpa using went
        intro nowhere
        cases (stuck nowhere).1
    -- It has to wait, at the end of those held again.
    have again : Catching group short final times unreceived member
        (kept ++ [{ receivedAtMs := nowMs, sender := item.sender, mls := item.mls }] ++ items)
        rest :=
      { catching with
        shares := by simpa using catching.shares
        arrived := by
          intro other listed
          simp only [mem_append, mem_singleton] at listed
          rcases listed with (earlier | rfl) | later
          · exact catching.arrived other (mem_append_left _ earlier)
          · exact now
          exact catching.arrived other (mem_append_right _ (.tail _ later)) }
    obtain ⟨after, heldNext, restNext, progressedNext, eventsNext, went, catchingNext, stuck⟩ :=
      ih progressed events again
    refine ⟨after, heldNext, restNext, progressedNext, eventsNext, ?_, catchingNext, ?_⟩
    · rw [again.holds young isNext]
      simpa using went
    intro nowhere
    obtain ⟨before, same, sameHeld, later⟩ := stuck nowhere
    refine ⟨before, same, by simpa using sameHeld, ?_⟩
    exact forall_mem_cons.mpr ⟨isNext, later⟩

theorem retryAll (events : List mls.Event)
    (catching : Catching group short final times unreceived member held rest) (now : nowMs ∈ times)
    (enough : held.length < rounds) :
    ∃ next heldNext restNext eventsNext,
      retryAll group short nowMs rounds (member.withHeld held) events =
        some (next.withHeld heldNext, .ok eventsNext) ∧
      Catching group short final times unreceived next heldNext restNext ∧
      Held.AllLater heldNext restNext := by
  induction rounds generalizing member held rest events with
  | zero => exact absurd enough (by omega)
  | succ rounds ih =>
    have start : Catching group short final times unreceived member ([] ++ held) rest := catching
    obtain ⟨next, heldNext, restNext, progressed, eventsNext, went, catchingNext, stuck⟩ :=
      start.retry young false events now
    have tried : Member.retry group short nowMs ((member.withHeld held).withHeld [])
        (member.withHeld held).record.held false events =
          (next.withHeld heldNext, .ok (progressed, eventsNext)) := went
    unfold retryAll
    rw [tried]
    cases progressed with
    | true =>
      have fewer := (length_held_retry tried).2 rfl
      simp only [withHeld_held, length_nil, Nat.zero_add, Bool.false_eq_true, false_or] at fewer
      exact ih eventsNext catchingNext (by omega)
    | false =>
      obtain ⟨-, rfl, sameHeld, later⟩ := stuck rfl
      refine ⟨next, heldNext, _, eventsNext, rfl, catchingNext, ?_⟩
      intro item listed
      have tried : item.mls ∈ held.map Held.mls := by
        rw [nil_append] at sameHeld
        rw [← sameHeld]
        exact mem_map_of_mem listed
      obtain ⟨other, isHeld, same⟩ := mem_map.mp tried
      rw [← same]
      exact later other isHeld

theorem receive {bytes : List UInt8}
    (catching : Catching group short final times (bytes :: unreceived) member held rest)
    (now : nowMs ∈ times) :
    ∃ next heldNext restNext result, (member.withHeld held).receive group short sender bytes nowMs =
        some (next.withHeld heldNext, result) ∧
      Catching group short final times unreceived next heldNext restNext ∧
      Held.AllLater heldNext restNext := by
  have active : (member.withHeld held).record.state = .active := catching.path.active
  unfold Member.receive
  rw [active]
  by_cases isNext : rest.head? = some bytes
  · obtain ⟨others, rfl⟩ := head?_eq_some_iff.mp isNext
    cases catching.path with
    | @step _ next _ _ _ _ more _ _ _ _ advances _ later =>
      have caught := catching.advance later perm_middle (fun _ listed => listed)
      obtain ⟨after, heldNext, restNext, eventsNext, went, catchingNext, allLater⟩ :=
        caught.retryAll young more now (Nat.lt_succ_self _)
      refine ⟨after, heldNext, restNext, .ok eventsNext, ?_, catchingNext, allLater⟩
      rw [advances]
      exact went
  have again : Catching group short final times unreceived member
      (held ++ [{ receivedAtMs := nowMs, sender := sender, mls := bytes }]) rest :=
    { catching with
      shares := by simpa using catching.shares
      arrived := by
        intro item listed
        rcases List.mem_append.mp listed with earlier | last
        · exact catching.arrived item earlier
        obtain rfl := mem_singleton.mp last
        exact now }
  obtain ⟨after, heldNext, restNext, eventsNext, went, catchingNext, allLater⟩ :=
    again.retryAll young [] now (Nat.lt_succ_self _)
  refine ⟨after, heldNext, restNext, .ok eventsNext, ?_, catchingNext, allLater⟩
  rw [← append_nil (held ++ _)] at again
  rw [again.holds young isNext]
  exact went

end

theorem arrive (catching : Catching group short final times [] member held rest)
    (allLater : Held.AllLater held rest) :
    member = final ∧ held = [] := by
  obtain ⟨path, -, shares, -⟩ := catching
  rw [append_nil] at shares
  cases rest with
  | nil =>
    have none : held = [] := map_eq_nil_iff.mp shares.eq_nil
    cases path with
    | done => exact ⟨rfl, none⟩
  | cons =>
    obtain ⟨item, isHeld, same⟩ := mem_map.mp (shares.mem_iff.mpr (.head _))
    exact absurd (congrArg some same.symm) (allLater item isHeld)

theorem receiveAll {arrivals : List Held}
    (catching : Catching group short final times (arrivals.map Held.mls) member held rest)
    (allLater : Held.AllLater held rest)
    (listed : ∀ arrival ∈ arrivals, arrival.receivedAtMs ∈ times)
    (young : ∀ first ∈ times, ∀ second ∈ times, second < first + HOLD_FOR_MS) :
    receiveAll group short (member.withHeld held) arrivals = some (final.withHeld []) := by
  induction arrivals generalizing member held rest with
  | nil =>
    obtain ⟨rfl, rfl⟩ := catching.arrive allLater
    rfl
  | cons arrival arrivals ih =>
    have now := listed arrival (.head _)
    obtain ⟨_, _, _, _, received, catchingNext, allLaterNext⟩ :=
      catching.receive (fun time among => young time among _ now) now
    unfold receiveAll
    rw [received]
    exact ih catchingNext allLaterNext
      fun other among => listed other (.tail _ among)

end Catching

theorem Path.receiveAll
    {mls : Mls} {group : GroupId} {short : UserId -> String} {member final : Member mls}
    {arrivals : List Held}
    (path : Path mls group short member commits final) (ordered : arrivals.map Held.mls = commits) :
    receiveAll group short (member.withHeld []) arrivals = some (final.withHeld []) := by
  induction path generalizing arrivals with
  | done =>
    obtain rfl := map_eq_nil_iff.mp ordered
    rfl
  | @step member _ _ _ _ _ _ active _ _ _ advances _ _ ih =>
    obtain ⟨_, _, rfl, rfl, restOrdered⟩ := map_eq_cons_iff.mp ordered
    have here : (member.withHeld []).record.state = .active := active
    unfold Member.receiveAll Member.receive
    rw [here, advances]
    exact ih restOrdered

/-- Commits that cross on the wire converge: received in any order, they take an
active member where receiving them in order does. -/
theorem crossing_commits_converge
    {mls : Mls} {group : GroupId} {member : Member mls} {handle last : Handle mls.Secrets}
    {commits : List (List UInt8)} {ordered crossed : List Held}
    (active : member.record.state = .active) (has : member.handle = some handle)
    (nothingHeld : member.record.held = [])
    (consecutive : Consecutive mls group handle commits last) (few : commits.length ≤ HOLD_LIMIT)
    (inOrder : ordered.map Held.mls = commits) (inAnyOrder : (crossed.map Held.mls).Perm commits)
    (together : Together crossed) (short : UserId → String) :
    ∃ final, member.receiveAll group short ordered = some final ∧
      member.receiveAll group short crossed = some final ∧
      final.handle = some last ∧
      final.record.state = .active ∧
      final.record.held = [] := by
  obtain ⟨final, path, hasLast, stays⟩ := consecutive.path short active has
  have start : member.withHeld [] = member := by
    rw [← nothingHeld]
    rfl
  have catching : Catching group short final (crossed.map Held.receivedAtMs)
      (crossed.map Held.mls) member [] commits :=
    { path := path, few := few, shares := inAnyOrder, arrived := forall_mem_nil _ }
  have young : ∀ first ∈ crossed.map Held.receivedAtMs, ∀ second ∈ crossed.map Held.receivedAtMs,
      second < first + HOLD_FOR_MS := by
    intro first firstListed second secondListed
    obtain ⟨one, oneArrives, rfl⟩ := mem_map.mp firstListed
    obtain ⟨other, otherArrives, rfl⟩ := mem_map.mp secondListed
    exact together one oneArrives other otherArrives
  refine ⟨final.withHeld [], ?_, ?_, hasLast, stays, rfl⟩
  · rw [← start]
    exact path.receiveAll inOrder
  rw [← start]
  exact catching.receiveAll (forall_mem_nil _) (fun arrival listed => mem_map_of_mem listed) young

namespace Refreshing

def arrival (byte : UInt8) (atMs : Nat) : Held :=
  { receivedAtMs := atMs, sender := Bytes.fill 32 1, mls := [byte] }

theorem staged_valid : staged.Valid tree context where
  committerStays := by decide
  updatesByMembers := forall_mem_nil _
  updatedOnce := List.Pairwise.nil
  applies := rfl
  distinct := by decide

theorem lands {epoch : Nat} (small : epoch < 256) :
    Lands mls group (handle epoch) [UInt8.ofNat epoch] staged
      (Bytes.fill 32 (UInt8.ofNat (epoch + 1))) () where
  header := by
    have same : (UInt8.ofNat epoch).toNat = epoch := UInt8.toNat_ofNat_of_lt small
    exact congrArg (fun number => Except.ok (Header.mk group.data number true)) same
  inline := show 1 <= MAX_INLINE_MLS_BYTES by decide
  opened := congrArg Prod.fst (if_pos rfl)
  valid := staged_valid
  byValue := forall_mem_nil _
  accepted := ⟨primaryLeaf 1, settings, .updated, rfl, rfl, rfl⟩
  stays := not_mem_nil

theorem merge_handle (epoch : Nat) :
    (handle epoch).merge staged (Bytes.fill 32 (UInt8.ofNat (epoch + 1))) () =
      .ok (handle (epoch + 1)) :=
  Handle.merge_eq _ _ staged_valid

theorem consecutive : Consecutive mls group (handle 3) [[3], [4], [5]] (handle 6) :=
  .commit (lands (show 3 < 256 by decide)) (merge_handle 3)
    (.commit (lands (show 4 < 256 by decide)) (merge_handle 4)
      (.commit (lands (show 5 < 256 by decide)) (merge_handle 5) (.done _)))

end Refreshing

/-- The last of three commits first, then the others. -/
theorem converge_last_first :
    ∃ final, (Refreshing.member 3 []).receiveAll Refreshing.group (fun _ => "")
        [Refreshing.arrival 3 0, Refreshing.arrival 4 0, Refreshing.arrival 5 0] = some final ∧
      (Refreshing.member 3 []).receiveAll Refreshing.group (fun _ => "")
        [Refreshing.arrival 5 10, Refreshing.arrival 3 20, Refreshing.arrival 4 30] = some final ∧
      final.handle = some (Refreshing.handle 6) ∧
      final.record.state = .active ∧
      final.record.held = [] := by
  have together : Together [arrival 5 10, arrival 3 20, arrival 4 30] := by
    unfold Together
    decide
  have inAnyOrder : ([arrival 5 10, arrival 3 20,
      arrival 4 30].map Held.mls).Perm [[3], [4], [5]] := by
    decide
  exact crossing_commits_converge rfl rfl rfl consecutive (by decide) rfl inAnyOrder
    together (fun _ => "")

end Silver.Client.Groups
