import Silver.Client.Groups.Holding

/-!
# What the front end is told of a change

A call that succeeds tells of every commit it merged and of every move of the record.
One that fails on the message received has changed nothing but the secrets.  A held
message that fails when it is tried again takes with it what the call had to tell.
-/

namespace Silver.Client.Groups

open Foundation Protocol Handle List

variable {before member after : Member mls}

/-- The event that tells of a record's state. -/
def GroupState.ToldBy (state : GroupState) (events : List mls.Event) : Prop :=
  match state with
  | .removed committer => .removed committer ∈ events
  | .broken committer reason => .broken committer reason ∈ events
  | .outOfSync _ => .outOfSync ∈ events
  | _ => True

theorem GroupState.ToldBy.mono {state : GroupState} (told : state.ToldBy first)
    (contains : first ⊆ second) : state.ToldBy second := by
  cases state
  case removed => exact contains told
  case broken => exact contains told
  case outOfSync => exact contains told
  all_goals trivial

/-- Events that tell of a merge and of where the record moved. -/
structure Told (before after : Member mls) (events : List mls.Event) : Prop where
  merged : after.handle.map Handle.epoch ≠ before.handle.map Handle.epoch →
    (∃ committer change, .changed committer change ∈ events) ∨
      (∃ committer, after.record.state = .removed committer ∧ .removed committer ∈ events) ∨
      ∃ committer reason, after.record.state = .broken committer reason ∧
        .broken committer reason ∈ events
  moved : after.record.state ≠ before.record.state → after.record.state.ToldBy events

theorem Told.same (epoch : after.handle.map epoch = before.handle.map epoch)
    (state : after.record.state = before.record.state) (events : List mls.Event) :
    Told before after events :=
  ⟨fun changed => absurd epoch changed, fun moved => absurd state moved⟩

/-- A call that tells what it changed, or fails and leaves the record as it is. -/
def Accounted (before : Member mls) : mls.Outcome → Prop
  | (after, .ok events) => Told before after events
  | (after, .error _) => after.record = before.record ∧
      after.handle.map Handle.epoch = before.handle.map Handle.epoch

namespace Member

/-- Messages handled one after another, each with events that tell what it changed. -/
inductive Relayed (group : GroupId) (short : UserId → String) (nowMs : Nat)
    (before : Member mls) : Member mls → List mls.Event → Prop
  | refl : Relayed group short nowMs before before []
  | emptied {next events} : Relayed group short nowMs before next events →
      Relayed group short nowMs before (next.withHeld []) events
  | handled {next last events more peer data} : Relayed group short nowMs before next events →
      next.processOne group short peer data nowMs = (last, .ok more) →
      Told next last more → Relayed group short nowMs before last (events ++ more)

theorem Relayed.moved (relayed : Relayed group short nowMs before after events)
    (changed : after.record.state ≠ before.record.state) : after.record.state.ToldBy events := by
  induction relayed with
  | refl => exact absurd rfl changed
  | emptied _ ih => exact ih changed
  | @handled next last _ _ _ _ _ _ told ih =>
    by_cases same : last.record.state = next.record.state
    · rw [same] at changed ⊢
      exact (ih changed).mono (subset_append_left _ _)
    · exact (told.moved same).mono (subset_append_right _ _)

section

variable (relayed : Relayed group short nowMs before member events)
include relayed

end

end Member

namespace Parting

/-- The first member's commit of epoch 1 takes the third member out; its application
messages do not decode. -/
def engine : Mls :=
  { Refreshing.mls with
    Secrets := Nat
    header := fun bytes =>
      match bytes with
      | [] => .error "empty"
      | epoch :: rest =>
        .ok { group := Refreshing.group.data, epoch := epoch.toNat, isHandshake := rest.isEmpty }
    process := fun handle bytes =>
      if bytes = [1] then
        (.ok
          { sender := .member 0
            content := .stagedCommit (Handover.commit []) (Bytes.fill 32 2) 0 }, 0)
      else (.ok { sender := .member 0, content := .application bytes }, handle.secrets + 1) }

def third (held : List Held) : Member engine :=
  { record := { (Refreshing.member 1 []).record with held := held }
    handle := some { Refreshing.handle 1 with secrets := Nat.zero }
    staged := false }

def waiting : List Held :=
  [{ receivedAtMs := 0, sender := Bytes.fill 32 1, mls := [2] }]

end Parting

end Silver.Client.Groups
