import Silver.Client.Groups.Receive
import Silver.Client.Groups.Rules

/-!
# Messages held back

Trying the messages held back comes to an end: a round that gets anywhere leaves
fewer of them.  A message of a later epoch for which there is room changes nothing
but the queue.
-/

namespace Silver.Client.Groups

open Foundation Protocol List
open Nat

def fresh (nowMs : Nat) (held : List Held) : List Held :=
  held.filter fun item => item.receivedAtMs + HOLD_FOR_MS > nowMs

def heldAgain (nowMs : Nat) (held : List Held) : List Held :=
  (fresh nowMs held).map fun item => { item with receivedAtMs := nowMs }

def Within (held : List Held) : Prop :=
  held.length ≤ HOLD_LIMIT ∧ heldBytes held ≤ HOLD_BYTES
deriving Decidable

def Waits (mls : Mls) (group : GroupId) (epoch : Nat) (bytes : List UInt8) : Prop :=
  ∃ header, mls.header bytes = .ok header ∧ header.group = group.data ∧
    header.isHandshake = true ∧ epoch < header.epoch ∧ header.epoch ≤ epoch + HOLD_LIMIT ∧
    bytes.length ≤ MAX_INLINE_MLS_BYTES

@[simp] theorem heldBytes_append (first second : List Held) :
    heldBytes (first ++ second) = heldBytes first + heldBytes second := by
  simp [heldBytes]

@[simp] theorem heldBytes_cons (item : Held) (held : List Held) :
    heldBytes (item :: held) = item.mls.length + heldBytes held := by
  simp [heldBytes]

@[simp] theorem heldBytes_nil : heldBytes [] = 0 := rfl

theorem Within.left {first : List Held} (within : Within (first ++ second)) : Within first := by
  obtain ⟨few, small⟩ := within
  rw [length_append] at few
  rw [heldBytes_append] at small
  exact ⟨by omega, by omega⟩

theorem heldBytes_fresh_le (nowMs : Nat) (held : List Held) :
    heldBytes (fresh nowMs held) ≤ heldBytes held := by
  induction held with
  | nil => exact .refl
  | cons _ _ ih =>
    unfold fresh at ih ⊢
    rw [filter_cons]
    split
    · rw [heldBytes_cons, heldBytes_cons]
      omega
    rw [heldBytes_cons]
    omega

theorem Within.fresh {held : List Held} (within : Within held) (nowMs : Nat) :
    Within (fresh nowMs held) :=
  ⟨(length_filter_le _ _).trans within.1, (heldBytes_fresh_le nowMs held).trans within.2⟩

theorem heldBytes_heldAgain (nowMs : Nat) (held : List Held) :
    heldBytes (heldAgain nowMs held) = heldBytes (fresh nowMs held) := by
  simp [heldBytes, heldAgain, Function.comp_def]

theorem Within.heldAgain {held : List Held} (within : Within held) (nowMs : Nat) :
    Within (heldAgain nowMs held) := by
  obtain ⟨_, _⟩ := within.fresh nowMs
  refine ⟨?_, by rwa [heldBytes_heldAgain]⟩
  rwa [Groups.heldAgain, length_map]

namespace Member

variable {member : Member mls}

@[simp] theorem withHeld_held (member : Member mls) (held : List Held) :
    (member.withHeld held).record.held = held := rfl

@[simp] theorem withHeld_handle (member : Member mls) (held : List Held) :
    (member.withHeld held).handle = member.handle := rfl

theorem length_held_hold (epoch : Nat) (header : Header) :
    (member.hold epoch header sender bytes nowMs).1.record.held.length ≤
      member.record.held.length + 1 := by
  have fewer := length_filter_le
    (fun item : Held => item.receivedAtMs + HOLD_FOR_MS > nowMs) member.record.held
  unfold hold
  simp only
  split
  · exact le_succ_of_le fewer
  · simpa using fewer

theorem held_application :
    (member.application sender short bytes).1.record.held = member.record.held := by
  unfold application
  split
  · rfl
  split
  · rfl
  simp only
  split
  · split <;> rfl
  · rfl

theorem held_commit (handle : Handle mls.Secrets) (staged : StagedCommit) (token : Bytes 32)
    (secrets : mls.Secrets) :
    (member.commit handle sender staged token secrets).1.record.held = member.record.held := by
  unfold commit
  split
  · rfl
  split
  · rfl
  split
  · rfl
  have lost : (if handle.pendingCommit then
      { member with handle := some { handle with pendingCommit := false }, staged := false }
      else member).record.held = member.record.held := by
    split <;> rfl
  simp only
  split
  · exact lost
  split
  · exact lost
  split
  · exact lost
  · exact lost

theorem length_held_processOne :
    (member.processOne group short sender bytes nowMs).1.record.held.length ≤
      member.record.held.length + 1 := by
  unfold processOne
  split
  · exact le_succ _
  split
  · exact le_succ _
  split
  · exact le_succ _
  split
  · exact length_held_hold _ _
  simp only
  split
  · unfold unreadable
    split <;> exact le_succ _
  split
  · exact le_succ _
  split
  · exact le_succ _
  split
  · rw [held_application]
    exact le_succ _
  · unfold Member.proposal
    split <;> exact le_succ _
  · exact le_succ _
  · exact le_succ _
  rw [held_commit]
  exact le_succ _

theorem length_held_retry {items : List Held} {after : Member mls}
    (ended : retry group short nowMs member items progressed events =
      (after, .ok (progressedAfter, eventsAfter))) :
    after.record.held.length ≤ member.record.held.length + items.length ∧
      (progressedAfter = true → progressed = true ∨
        after.record.held.length < member.record.held.length + items.length) := by
  induction items generalizing member progressed events with
  | nil =>
    obtain ⟨rfl, same⟩ := Prod.mk.inj ended
    obtain ⟨rfl, -⟩ := Prod.mk.inj (Except.ok.inj same)
    exact ⟨.refl, .inl⟩
  | cons item _ ih =>
    unfold retry at ended
    split at ended
    · obtain ⟨fewer, sooner⟩ := ih ended
      rw [length_cons]
      refine ⟨by omega, fun got => ?_⟩
      rcases sooner got with earlier | less
      · exact .inl earlier
      · exact .inr (by omega)
    simp only at ended
    have grows : (member.processOne group short item.sender item.mls nowMs).1.record.held.length ≤
        member.record.held.length + 1 := length_held_processOne
    split at ended
    · cases ended
    next next _ processed =>
      rw [processed] at grows
      obtain ⟨fewer, sooner⟩ := ih ended
      simp only at grows
      rw [length_cons]
      refine ⟨by omega, fun got => ?_⟩
      rcases sooner got with earlier | less
      · rw [Bool.or_eq_true] at earlier
        rcases earlier with before | stood
        · exact .inl before
        have stood : next.record.held.length = member.record.held.length := by
          simpa using stood
        exact .inr (by omega)
      · exact .inr (by omega)

theorem retryAll_ends (events : List mls.Event) (enough : member.record.held.length < rounds) :
    ∃ outcome, retryAll group short nowMs rounds member events = some outcome := by
  induction rounds generalizing member events with
  | zero => exact absurd enough (not_lt_zero _)
  | succ rounds ih =>
    unfold retryAll
    split
    · exact ⟨_, rfl⟩
    next ended =>
      split
      next got =>
        subst got
        apply ih
        have less := (length_held_retry ended).2 rfl
        simp only [withHeld_held, length_nil, zero_add] at less
        rcases less with impossible | less
        · cases impossible
        · omega
      · exact ⟨_, rfl⟩

theorem receive_ends (member : Member mls) :
    ∃ outcome, member.receive group short sender bytes nowMs = some outcome := by
  unfold receive
  split
  · exact ⟨_, rfl⟩
  · exact ⟨_, rfl⟩
  · exact ⟨_, rfl⟩
  split
  · exact ⟨_, rfl⟩
  · exact retryAll_ends _ (lt_succ_self _)

theorem processOne_waits {handle : Handle mls.Secrets} (has : member.handle = some handle)
    (waits : Waits mls group handle.epoch bytes)
    (room : Within (fresh nowMs member.record.held ++
      [{ receivedAtMs := nowMs, sender := sender, mls := bytes }])) :
    member.processOne group short sender bytes nowMs =
      (member.withHeld (fresh nowMs member.record.held ++
        [{ receivedAtMs := nowMs, sender := sender, mls := bytes }]), .ok []) := by
  obtain ⟨header, read, named, handshake, later, _, _⟩ := waits
  obtain ⟨few, light⟩ := room
  rw [length_append, length_singleton] at few
  rw [heldBytes_append, heldBytes_cons, heldBytes_nil] at light
  have future : (header.isHandshake && decide (header.epoch > handle.epoch)) = true := by
    simp [handshake, later]
  unfold processOne
  rw [read]
  simp only [has, named, ne_eq, not_true_eq_false, if_false, future, if_true]
  unfold hold
  apply if_neg
  simp only [fresh] at few light
  simp only [Bool.or_eq_true, decide_eq_true_eq]
  omega

theorem retry_waiting {handle : Handle mls.Secrets} {kept items : List Held} (progressed : Bool)
    (events : List mls.Event) (has : member.handle = some handle) (now : fresh nowMs kept = kept)
    (waiting : ∀ item ∈ items, Waits mls group handle.epoch item.mls)
    (room : Within (kept ++ heldAgain nowMs items)) :
    retry group short nowMs (member.withHeld kept) items progressed events =
      (member.withHeld (kept ++ heldAgain nowMs items), .ok (progressed, events)) := by
  have later : 0 < HOLD_FOR_MS := by decide
  induction items generalizing kept with
  | nil => simp [retry, heldAgain, fresh]
  | cons item rest ih =>
    have others : ∀ other ∈ rest, Waits mls group handle.epoch other.mls :=
      fun other listed => waiting other (.tail _ listed)
    unfold retry
    split
    next old =>
      have dropped : heldAgain nowMs (item :: rest) = heldAgain nowMs rest := by
        unfold heldAgain fresh
        rw [filter_cons_of_neg (by simpa using old)]
      rw [dropped] at room ⊢
      exact ih now others room
    next young =>
      have again : heldAgain nowMs (item :: rest) =
          { receivedAtMs := nowMs, sender := item.sender, mls := item.mls } ::
            heldAgain nowMs rest := by
        unfold heldAgain fresh
        rw [filter_cons_of_pos (by simpa using young), map_cons]
      rw [again, append_cons] at room ⊢
      have held : (member.withHeld kept).processOne group short item.sender item.mls nowMs =
          (member.withHeld (kept ++
            [{ receivedAtMs := nowMs, sender := item.sender, mls := item.mls }]), .ok []) := by
        have step : (member.withHeld kept).processOne group short item.sender item.mls nowMs =
            _ := processOne_waits has (waiting item (.head _))
              (by rw [withHeld_held, now]; exact room.left)
        rwa [withHeld_held, now] at step
      rw [held]
      simp only [withHeld_held, length_append, length_singleton,
        succ_ne_self, decide_false, Bool.or_false, append_nil]
      refine ih ?_ others room
      unfold fresh at now ⊢
      rw [filter_append, now]
      congr 1
      exact filter_cons_of_pos (by simpa using later)

theorem retryAll_waiting {handle : Handle mls.Secrets} (events : List mls.Event)
    (has : member.handle = some handle)
    (waiting : ∀ item ∈ member.record.held, Waits mls group handle.epoch item.mls)
    (within : Within member.record.held) :
    retryAll group short nowMs (rounds + 1) member events =
      some (member.withHeld (heldAgain nowMs member.record.held), .ok events) := by
  have tried : retry group short nowMs (member.withHeld []) member.record.held false events =
      (member.withHeld ([] ++ heldAgain nowMs member.record.held), .ok (false, events)) :=
    retry_waiting false events has rfl waiting (within.heldAgain nowMs)
  unfold retryAll
  rw [tried]
  rfl

end Member

namespace Refreshing

def staged : StagedCommit :=
  { sender := 0, proposals := [], path := some (Handover.primary 1), context := Handover.context }

def group : GroupId :=
  Bytes.fill 32 7

def mls : Mls :=
  { Secrets := Unit
    Body := Unit
    Head := Unit
    keys := Handover.keys
    header := fun bytes =>
      match bytes with
      | [] => .error "empty"
      | epoch :: _ => .ok { group := group.data, epoch := epoch.toNat, isHandshake := true }
    process := fun handle bytes =>
      if bytes = [UInt8.ofNat handle.epoch] then
        (.ok
          { sender := .member 0
            content := .stagedCommit staged (Bytes.fill 32 (UInt8.ofNat (handle.epoch + 1))) () },
          ())
      else (.error "not authentic", ())
    plaintext := fun _ => .error (.malformed "group message") }

/-- The third member's state at an epoch. -/
def handle (epoch : Nat) : Handle mls.Secrets :=
  { epoch := epoch
    tree := Handover.tree
    context := Handover.context
    token := Bytes.fill 32 (UInt8.ofNat epoch)
    ownIndex := 2
    proposals := []
    pendingCommit := false
    secrets := () }

def member (epoch : Nat) (held : List Held) : Member mls :=
  { record :=
      { name := "three"
        members := []
        state := .active
        tokens := []
        held := held
        seen := []
        expireAfterS := 0 }
    handle := some (handle epoch)
    staged := false }

end Refreshing

end Silver.Client.Groups
