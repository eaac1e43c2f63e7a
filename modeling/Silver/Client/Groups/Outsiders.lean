import Silver.Client.Groups.Holding

/-!
# Messages from outside the group

Whoever knows a group's identifier can write the header of a message.  Where the members
made neither the message nor, for an epoch reached so far, one of those held back,
receiving it moves nothing.  A handshake that names the epoch the group stands at, or a
later one for which there is no room, makes the client look for what it missed.
-/

namespace Silver.Client.Groups

open Foundation Protocol Bytes List Member Refreshing

def Authentic (mls : Mls) (produced : Nat -> List UInt8 -> Prop) : Prop :=
  ∀ handle bytes processed secrets, mls.process handle bytes = (.ok processed, secrets) ->
    ∃ reached ≤ handle.epoch, produced reached bytes

/-- A member that has not moved since `start`: it is active, or from now on out of
sync, and what it holds back was not made by members for an epoch reached so far. -/
structure Unmoved {mls : Mls} (produced : Nat -> List UInt8 -> Prop) (nowMs epoch : Nat)
    (start member : Member mls) : Prop where
  members : member.record.members = start.record.members
  name : member.record.name = start.record.name
  tokens : member.record.tokens = start.record.tokens
  epochStays : member.handle.map Handle.epoch = some epoch
  state : member.record.state = .active ∨ member.record.state = .outOfSync nowMs
  within : Within member.record.held
  quiet : ∀ item ∈ member.record.held, ∀ reached ≤ epoch, ¬ produced reached item.mls

def Unsettles (mls : Mls) (group : GroupId) (epoch : Nat) (held : List Held) (sender : UserId)
    (bytes : List UInt8) (nowMs : Nat) : Prop :=
  ∃ header, mls.header bytes = .ok header ∧ header.group = group.data ∧
    header.isHandshake = true ∧ epoch <= header.epoch ∧
    ¬ (Waits mls group epoch bytes ∧
      Within (fresh nowMs held ++ [{ receivedAtMs := nowMs, sender := sender, mls := bytes }]))

namespace Unmoved

variable {mls : Mls}
  {start member : Member mls} {group : GroupId}

section

variable (unmoved : Unmoved produced nowMs epoch start member)
include unmoved

theorem withHeld {held : List Held}
    (within : Within held) (quiet : ∀ item ∈ held, ∀ reached ≤ epoch, ¬ produced reached item.mls) :
    Unmoved produced nowMs epoch start (member.withHeld held) :=
  { unmoved with within := within, quiet := quiet }

theorem outOfSync : Unmoved produced nowMs epoch start (member.withState (.outOfSync nowMs)) :=
  { unmoved with state := .inr rfl }

theorem withSecrets
    {handle : Handle mls.Secrets} (has : member.handle = some handle) (secrets : mls.Secrets) :
    Unmoved produced nowMs epoch start
      { member with handle := some { handle with secrets := secrets } } := by
  refine { unmoved with epochStays := ?_ }
  rw [← unmoved.epochStays, has]
  rfl

theorem hold (made : ∀ reached ≤ epoch, ¬ produced reached bytes) :
    Unmoved produced nowMs epoch start (member.hold epoch header sender bytes nowMs).1 := by
  have kept : ∀ item ∈ fresh nowMs member.record.held, ∀ reached ≤ epoch,
      ¬ produced reached item.mls :=
    fun item listed => unmoved.quiet item (mem_of_mem_filter listed)
  have dropped := unmoved.withHeld (unmoved.within.fresh nowMs) kept
  unfold Member.hold
  simp only
  split
  · exact dropped.outOfSync
  next room =>
    simp only [Bool.or_eq_true, decide_eq_true_eq, not_or] at room
    apply unmoved.withHeld
    · constructor
      · rw [length_append, length_singleton]
        omega
      simp only [heldBytes_append, heldBytes_cons, heldBytes_nil]
      omega
    intro item listed
    rcases mem_append.mp listed with earlier | last
    · exact kept item earlier
    obtain rfl := mem_singleton.mp last
    exact made

end

section

variable (unmoved : Unmoved produced nowMs epoch start member) (authentic : Authentic mls produced)
include unmoved authentic

theorem processOne (made : ∀ reached ≤ epoch, ¬ produced reached bytes) :
    Unmoved produced nowMs epoch start (member.processOne group short sender bytes nowMs).1 := by
  obtain ⟨handle, has, same⟩ := Option.map_eq_some_iff.mp unmoved.epochStays
  unfold Member.processOne
  rw [has]
  split
  · exact unmoved
  split
  · exact unmoved
  simp only
  split
  · rw [same]
    exact unmoved.hold made
  split
  · unfold unreadable
    split
    · exact (unmoved.withSecrets has _).outOfSync
    · exact unmoved.withSecrets has _
  next processed opened =>
    obtain ⟨reached, soFar, byMember⟩ := authentic handle bytes processed _ (Prod.ext opened rfl)
    exact absurd byMember (made reached (same ▸ soFar))

theorem retry {items : List Held} (progressed : Bool) (events : List mls.Event)
    (made : ∀ item ∈ items, ∀ reached ≤ epoch, ¬ produced reached item.mls) :
    Unmoved produced nowMs epoch start
      (retry group short nowMs member items progressed events).1 := by
  induction items generalizing member progressed events with
  | nil => exact unmoved
  | cons item rest ih =>
    have others : ∀ other ∈ rest, ∀ reached ≤ epoch, ¬ produced reached other.mls :=
      fun other listed => made other (.tail _ listed)
    unfold retry
    split
    · exact ih unmoved _ _ others
    have tried : Unmoved produced nowMs epoch start
        (member.processOne group short item.sender item.mls nowMs).1 :=
      unmoved.processOne authentic (made item (.head _))
    simp only
    split
    next failed =>
      rw [failed] at tried
      exact tried
    next went =>
      rw [went] at tried
      exact ih tried _ _ others

theorem retryAll (ended : retryAll group short nowMs rounds member events = some outcome) :
    Unmoved produced nowMs epoch start outcome.1 := by
  induction rounds generalizing member events with
  | zero => cases ended
  | succ rounds ih =>
    have emptied := unmoved.withHeld (show Within [] by decide) (forall_mem_nil _)
    have tried : Unmoved produced nowMs epoch start
        (Member.retry group short nowMs (member.withHeld []) member.record.held false events).1 :=
      emptied.retry authentic false events unmoved.quiet
    unfold retryAll at ended
    split at ended
    next failed =>
      cases ended
      rw [failed] at tried
      exact tried
    next went =>
      rw [went] at tried
      split at ended
      · exact ih tried ended
      cases ended
      exact tried

theorem receive (made : ∀ reached ≤ epoch, ¬ produced reached bytes)
    (received : member.receive group short sender bytes nowMs = some outcome) :
    Unmoved produced nowMs epoch start outcome.1 := by
  have processed : Unmoved produced nowMs epoch start
      (member.processOne group short sender bytes nowMs).1 :=
    unmoved.processOne authentic made
  unfold Member.receive at received
  split at received
  · cases received
    exact unmoved
  · cases received
    exact unmoved
  · cases received
    exact unmoved
  split at received
  next failed =>
    cases received
    rw [failed] at processed
    exact processed
  next went =>
    rw [went] at processed
    exact processed.retryAll authentic received

end

end Unmoved

section Settled

variable {mls : Mls} {member : Member mls} {group : GroupId}
  {handle : Handle mls.Secrets}

theorem processOne_settled
    (active : member.record.state = .active) (has : member.handle = some handle)
    (waiting : ∀ item ∈ member.record.held, Waits mls group handle.epoch item.mls)
    (within : Within member.record.held)
    (closed : ∃ error, (mls.process handle bytes).1 = .error error)
    (settled : ¬ Unsettles mls group handle.epoch member.record.held sender bytes nowMs) :
    ∃ after result, member.processOne group short sender bytes nowMs = (after, result) ∧
      after.record.state = .active ∧
      (∃ handleAfter, after.handle = some handleAfter ∧ handleAfter.epoch = handle.epoch) ∧
      (∀ item ∈ after.record.held, Waits mls group handle.epoch item.mls) ∧
      Within after.record.held := by
  by_cases waits : Waits mls group handle.epoch bytes ∧ Within (fresh nowMs member.record.held ++
        [{ receivedAtMs := nowMs, sender := sender, mls := bytes }])
  · refine ⟨_, _, processOne_waits has waits.1 waits.2, active, ⟨handle, has, rfl⟩, ?_, waits.2⟩
    intro item listed
    rcases mem_append.mp listed with earlier | last
    · exact waiting item (mem_of_mem_filter earlier)
    obtain rfl := mem_singleton.mp last
    exact waits.1
  have elsewhere : ∀ header, mls.header bytes = .ok header -> header.group = group.data ->
      header.isHandshake = true -> header.epoch < handle.epoch := by
    intro header read named handshake
    by_contra later
    exact settled ⟨header, read, named, handshake, Nat.le_of_not_lt later, waits⟩
  obtain ⟨error, failed⟩ := closed
  unfold processOne
  rw [has]
  split
  · exact ⟨_, _, rfl, active, ⟨handle, has, rfl⟩, waiting, within⟩
  next header read =>
    split
    · exact ⟨_, _, rfl, active, ⟨handle, has, rfl⟩, waiting, within⟩
    next named =>
      simp only [ne_eq, not_not] at named
      have past : header.isHandshake = true -> ¬ handle.epoch <= header.epoch :=
        fun handshake => Nat.not_le_of_lt (elsewhere header read named handshake)
      simp only [failed]
      rw [if_neg, unreadable, if_neg]
      · exact ⟨_, _, rfl, active, ⟨_, rfl, rfl⟩, waiting, within⟩
      · simp only [Bool.and_eq_true, decide_eq_true_eq]
        exact fun all => past all.1.1 all.1.2
      simp only [Bool.and_eq_true, decide_eq_true_eq]
      exact fun both => past both.1 (by omega)

end Settled

/-- A message no member ever made moves nothing where none of those held was made by
members for an epoch reached so far.  The state stays as it is where those held are
all of later epochs, unless the message unsettles. -/
theorem outsiders_cannot_move {mls : Mls} {produced : Nat → List UInt8 → Prop} {member : Member mls}
    {handle : Handle mls.Secrets} {group : GroupId} {bytes : List UInt8}
    (authentic : Authentic mls produced) (active : member.record.state = .active)
    (has : member.handle = some handle) (within : Within member.record.held)
    (quiet : ∀ item ∈ member.record.held, ∀ reached ≤ handle.epoch, ¬ produced reached item.mls)
    (outside : ∀ epoch, ¬ produced epoch bytes)
    (short : UserId → String) (sender : UserId) (nowMs : Nat) :
    ∃ after result, member.receive group short sender bytes nowMs = some (after, result) ∧
      after.record.members = member.record.members ∧
      after.record.name = member.record.name ∧
      after.record.tokens = member.record.tokens ∧
      after.handle.map Handle.epoch = some handle.epoch ∧
      Within after.record.held ∧
      (after.record.state = .active ∨ after.record.state = .outOfSync nowMs) ∧
      ((∀ item ∈ member.record.held, Waits mls group handle.epoch item.mls) →
        ¬ Unsettles mls group handle.epoch member.record.held sender bytes nowMs →
        after.record.state = .active) := by
  have start : Unmoved produced nowMs handle.epoch member member :=
    { members := rfl
      name := rfl
      tokens := rfl
      epochStays := by rw [has]; rfl
      state := .inl active
      within := within
      quiet := quiet }
  obtain ⟨⟨after, result⟩, received⟩ : ∃ outcome,
      member.receive group short sender bytes nowMs = some outcome := receive_ends member
  have unmoved := start.receive authentic (fun reached _ => outside reached) received
  refine ⟨after, result, received, unmoved.members, unmoved.name, unmoved.tokens,
    unmoved.epochStays, unmoved.within, unmoved.state, ?_⟩
  intro waiting settled
  have closed : ∃ error, (mls.process handle bytes).1 = .error error := by
    cases opened : (mls.process handle bytes).1 with
    | error error => exact ⟨error, rfl⟩
    | ok processed =>
      obtain ⟨reached, -, made⟩ := authentic handle bytes processed _ (Prod.ext opened rfl)
      exact absurd made (outside reached)
  obtain ⟨next, outcome, processed, stays, ⟨_, hasNext, sameEpoch⟩, waitingNext, withinNext⟩ :
      ∃ next outcome, member.processOne group short sender bytes nowMs = (next, outcome) ∧ _ :=
    processOne_settled active has waiting within closed settled
  unfold Member.receive at received
  rw [active, processed] at received
  cases outcome with
  | error error =>
    obtain ⟨rfl, -⟩ := Prod.mk.inj (Option.some.inj received)
    exact stays
  | ok events =>
    rw [← sameEpoch] at waitingNext
    obtain ⟨rfl, -⟩ := Prod.mk.inj (Option.some.inj (received.symm.trans
      (retryAll_waiting events hasNext waitingNext withinNext)))
    exact stays

def Refreshing.made (epoch : Nat) (bytes : List UInt8) : Prop :=
  bytes = [UInt8.ofNat epoch]

theorem Refreshing.authentic : Authentic mls made := by
  intro handle bytes _ _ opened
  refine ⟨handle.epoch, .refl, ?_⟩
  by_contra forged
  have refused : mls.process handle bytes = (.error "not authentic", ()) := if_neg forged
  cases (Prod.mk.inj (refused.symm.trans opened)).1

theorem Refreshing.not_made (first second : UInt8) (epoch : Nat) :
    ¬ made epoch [first, second] := by
  simp [made]

/-- A forged handshake of a later epoch is held and changes nothing else. -/
theorem forged_handshake_is_held :
    ∃ after result, (Refreshing.member 3 []).receive Refreshing.group (fun _ => "")
        (Bytes.fill 32 8) [5, 0] 1000 = some (after, result) ∧
      after.handle.map Handle.epoch = some 3 ∧ after.record.state = .active := by
  have waits : Waits mls group 3 [5, 0] := ⟨_, rfl, rfl, rfl, by decide, by decide, by decide⟩
  obtain ⟨after, result, received, -, -, -, epoch, -, -, settled⟩ : ∃ after result,
      (member 3 []).receive group (fun _ => "") (fill 32 8) [5, 0]
        1000 = some (after, result) ∧ _ :=
    outsiders_cannot_move authentic rfl rfl (by decide) (forall_mem_nil _)
      (not_made 5 0) (fun _ => "") (fill 32 8) 1000
  refine ⟨after, result, received, epoch, settled (forall_mem_nil _) ?_⟩
  rintro ⟨_, -, -, -, -, noRoom⟩
  exact noRoom ⟨waits, by decide⟩

/-- A forged handshake of the epoch the group stands at puts it out of sync; and a
forged message, whatever it is, makes a commit held before be merged once its epoch
is reached. -/
theorem forged_handshake_unsettles :
    (∃ after result, (Refreshing.member 3 []).receive Refreshing.group (fun _ => "")
        (Bytes.fill 32 8) [3, 0] 1000 = some (after, result) ∧
      (∀ epoch, ¬ Refreshing.made epoch [3, 0]) ∧
      after.record.state = .outOfSync 1000) ∧
    ∃ after result, (Refreshing.member 3
          [{ receivedAtMs := 0, sender := fill 32 1, mls := [3] }]).receive
        group (fun _ => "") (fill 32 8) [2, 0] 1000 = some (after, result) ∧
      (∀ epoch, ¬ made epoch [2, 0]) ∧
      after.handle.map Handle.epoch = some 4 := by
  constructor
  · exact ⟨_, _, rfl, not_made 3 0, rfl⟩
  · exact ⟨_, _, rfl, not_made 2 0, rfl⟩

end Silver.Client.Groups
