import Silver.Client.Connection.Tracking

/-!
# A message is reported sent once

Every step keeps track of all messages at once where the relay answers for an envelope
once, and only after the last envelope of its message has been handed over.
-/

namespace Silver.Client.Connection.Spreading

open Foundation Protocol List Spread Table
open Iff (rfl)

namespace State.Follows

variable {state : State} {id message : String}

theorem settle (follows : state.Follows)
    (found : state.spreads.get message = some spread) (known : id ∈ spread.ids)
    (settled : ((state.answer id).settle id report).Tracks message spread)
    (reports : Reports report message spread) :
    ((state.answer id).settle id report).Follows := by
  have tracks := follows.tracks found
  refine ⟨fun {other otherSpread} otherFound => ?_, fun {other} unowned => ?_⟩
  · by_cases same : other = message
    · subst same
      cases found.symm.trans otherFound
      exact settled
    · exact tracks.settle_other known reports (follows.tracks otherFound) same
  · exact Unknown.settle tracks (follows.unknown unowned) known reports unowned

theorem tell (follows : state.Follows) (silent : ∀ other, event ≠ .sent other) :
    (state.tell event).Follows :=
  ⟨fun found => (follows.tracks found).tell (silent _),
    fun unowned => (follows.unknown unowned).tell (silent _)⟩

section

variable (follows : state.Follows) (found : state.spreads.get message = some spread)
include follows found

theorem refuse (known : id ∈ spread.ids) (copy : id ≠ message) : (state.refuse id).Follows := by
  have tracks := follows.tracks found
  refine ⟨fun {other otherSpread} otherFound => ?_, fun {other} unowned => ?_⟩
  · have others := follows.tracks otherFound
    refine others.refuse fun same => ?_
    subst same
    have owner := (others.owned other others.formed.own).symm.trans (tracks.owned other known)
    exact copy (Option.some.inj owner)
  exact (follows.unknown unowned).refuse fun same =>
    tracks.outside_of_unowned unowned (same ▸ known)

theorem fail (fresh : message ∉ state.answered) :
    ((state.refuse message).fail message).Follows := by
  have tracks := follows.tracks found
  refine ⟨fun {other otherSpread} otherFound => ?_, fun {other} unowned => ?_⟩
  · have others := follows.tracks otherFound
    by_cases same : other = message
    · subst same
      exact others.fail fresh
    · exact others.fail_other same
  exact (follows.unknown unowned).fail fun same =>
    tracks.outside_of_unowned unowned (same ▸ tracks.formed.own)

theorem refuse_alone (single : spread.fanned = false) (complete : spread.complete = true)
    (fresh : message ∉ state.answered) :
    ((state.refuse message).answer message).Follows := by
  have tracks := follows.tracks found
  refine ⟨fun {other otherSpread} otherFound => ?_, fun {other} unowned => ?_⟩
  · have others := follows.tracks otherFound
    by_cases same : other = message
    · subst same
      cases found.symm.trans otherFound
      exact others.refuse_alone single complete fresh
    exact (others.refuse same).answer_other (tracks.apart others same message tracks.formed.own)
  have different : other ≠ message := fun same =>
    tracks.outside_of_unowned unowned (same ▸ tracks.formed.own)
  exact ((follows.unknown unowned).refuse different).answer different

end

end State.Follows

namespace State.Tracking

variable {state after : State}

theorem start : Spreading.start.Tracking where
  tracks found := by cases found
  unknown _ := ⟨not_mem_nil, not_mem_nil, rfl, rfl, rfl⟩
  refusals id mem := by cases mem

section

variable {id : String} (tracking : state.Tracking)
include tracking

theorem accepted (submitted : state.submitted id = true) (awaits : state.awaits id = true) :
    (state.accepted id).Tracking := by
  obtain ⟨message, spread, found, tracks, handed, fresh, complete⟩ :=
    tracking.settling submitted awaits
  have known := handed_subset handed
  have reports : Reports (reportAccepted id) message spread := by
    refine ⟨rfl, rfl, rfl, fun other told => ?_⟩
    obtain rfl : other = id := by simpa [reportAccepted] using told
    exact known
  have alone : spread.fanned = false →
      reportAccepted id .alone = [.sent message] ∧ message ∉ state.refusals := by
    intro single
    obtain rfl := tracks.formed.alone single known
    exact ⟨rfl, fun refused => fresh (tracking.refusals id refused)⟩
  refine ⟨tracking.toFollows.settle found known
    (tracks.settle handed fresh complete reports alone) reports, fun other refused => ?_⟩
  exact .tail _ (tracking.refusals other refused)

theorem limited : state.limited.Tracking := by
  unfold State.limited
  split
  · exact tracking
  have unlimited : ({ state with retry := true } : State).Follows :=
    ⟨fun found => (tracking.tracks found).frame
        ⟨fun _ _ => rfl, fun _ _ => rfl, rfl, fun _ _ => rfl, rfl, rfl⟩,
      fun unowned =>
        have unknown := tracking.unknown unowned
        { unknown with }⟩
  exact ⟨unlimited.tell (fun _ => ClientEvent.noConfusion), tracking.refusals⟩

theorem settle_refused {refusal : State} (follows : refusal.Follows)
    (found : refusal.spreads.get message = some spread)
    (answered : refusal.answered = state.answered)
    (refusals : refusal.refusals = id :: state.refusals) (handed : id ∈ spread.handed)
    (fresh : id ∉ state.answered) (complete : spread.complete = true)
    (fanned : spread.fanned = true) :
    ((refusal.answer id).settle id reportRefused).Tracking := by
  have reports : Reports reportRefused message spread := by
    refine ⟨rfl, rfl, rfl, fun other told => ?_⟩
    cases told
  have settled := (follows.tracks found).settle handed (answered ▸ fresh) complete reports
    (fun single => absurd (fanned.symm.trans single) (by simp))
  refine ⟨follows.settle found (handed_subset handed) settled reports, fun other refused => ?_⟩
  have either : other ∈ id :: state.refusals := refusals ▸ refused
  show other ∈ id :: refusal.answered
  rw [answered]
  rcases mem_cons.mp either with rfl | earlier
  · exact .head _
  · exact .tail _ (tracking.refusals other earlier)

theorem refused (submitted : state.submitted id = true)
    (awaits : code = .rateLimited ∨ state.awaits id = true) :
    (state.refused id code message).Tracking := by
  unfold State.refused
  split
  · exact tracking.limited
  next notLimited =>
    obtain ⟨_, spread, found, tracks, handed, fresh, complete⟩ :=
      tracking.settling submitted (awaits.resolve_left notLimited)
    have known := handed_subset handed
    obtain ⟨envelope, mem, rfl⟩ := mem_map.mp known
    have follows := tracking.toFollows
    have copies := tracks.copies envelope mem
    dsimp only
    split
    next unknown =>
      have single : spread.fanned = false := by
        cases fanned : spread.fanned with
        | false => rfl
        | true =>
          rw [if_pos ⟨fanned, handed, fresh⟩] at copies
          cases copies.symm.trans unknown
      have same := tracks.formed.alone single known
      have result := follows.refuse_alone found single complete (same ▸ fresh)
      rw [← same] at result
      refine ⟨result.tell (fun _ => ClientEvent.noConfusion), fun other refused => ?_⟩
      rcases mem_cons.mp refused with rfl | earlier
      · exact .head _
      · exact .tail _ (tracking.refusals other earlier)
    next knownCopy =>
      rw [copies] at knownCopy
      split at knownCopy
      next spreadOut =>
        cases knownCopy
        obtain ⟨message, primary⟩ := tracks.formed.copies envelope mem
        split
        next isPrimary =>
          have same := primary.mp isPrimary
          have marked := follows.fail found (same ▸ fresh)
          rw [message]
          rw [← same] at marked ⊢
          exact tracking.settle_refused (marked.tell (fun _ => ClientEvent.noConfusion))
            (same ▸ found) rfl rfl handed fresh complete spreadOut.1
        next isCopy =>
          have marked := follows.refuse found known (fun same => isCopy (primary.mpr same))
          split
          · exact tracking.settle_refused (marked.tell (fun _ => ClientEvent.noConfusion))
              found rfl rfl handed fresh complete spreadOut.1
          exact tracking.settle_refused (marked.tell (fun _ => ClientEvent.noConfusion))
            found rfl rfl handed fresh complete spreadOut.1
      · cases knownCopy

theorem queueNext (queued : state.queueNext message = some after) : after.Tracking := by
  unfold State.queueNext at queued
  split at queued
  · cases queued
  next spread found =>
    split at queued
    · cases queued
    next id copy next =>
      cases queued
      have tracks := tracking.tracks found
      have unanswered := tracks.none_answered next
      have unrefused : message ∉ state.refusals := fun refused =>
        unanswered message tracks.formed.own (tracking.refusals message refused)
      have mem : (id, copy) ∈ spread.envelopes := mem_of_getElem? next
      have known : id ∈ spread.ids := mem_map_of_mem mem
      have own : ∀ held, (if spread.fanned = true then some copy else none) = some held →
          held.message = message := by
        intro held given
        split at given
        · cases given
          exact (tracks.formed.copies _ mem).1
        · cases given
      have sent : (state.send id (if spread.fanned then some copy else none)).Tracks message
          { spread with queued := spread.queued + 1 } := by
        cases fanned : spread.fanned with
        | false => exact tracks.send_alone next fanned
        | true => exact tracks.send_fanned next fanned unrefused
      refine ⟨⟨fun {other otherSpread} otherFound => ?_, fun {other} unowned => ?_⟩,
        tracking.refusals⟩
      · have followed : (state.send id
            (if spread.fanned then some copy else none)).Tracks other otherSpread := by
          by_cases same : other = message
          · subst same
            rw [get_insert_self] at otherFound
            cases otherFound
            exact sent
          rw [get_insert_of_ne same] at otherFound
          have others := tracking.tracks otherFound
          exact others.send_other (tracks.apart others same id known)
            (fun held given => own held given ▸ Ne.symm same)
        exact followed.frame ⟨fun _ _ => rfl, fun _ _ => rfl, rfl, fun _ _ => rfl, rfl, rfl⟩
      have outside := tracks.outside_of_unowned unowned
      have unknown := (tracking.unknown unowned).send
        (fun same => outside (same ▸ known))
        (fun held given same => outside ((own held given).symm.trans same ▸ tracks.formed.own))
      exact { unknown with }

theorem sealMessage (begun : state.sealMessage message = some after) : after.Tracking := by
  unfold State.sealMessage at begun
  split at begun
  next fresh =>
    obtain ⟨once, unowned⟩ := fresh
    cases begun
    have unknown := fun id mem => tracking.unknown (unowned id mem)
    have formed := Message.formed once
    have own := unknown message.id formed.own
    refine ⟨⟨fun {other spread} found => ?_, fun {other} stillUnowned => ?_⟩, tracking.refusals⟩
    · by_cases same : other = message.id
      · subst same
        rw [get_insert_self] at found
        cases found
        refine ⟨formed, fun id mem => ?_, fun id mem answered => ?_,
          fun envelope mem => ?_, fun _ _ id mem => ?_, fun fanout present => ?_, ?_⟩
        · exact (state.owners_get message id).trans (if_pos mem)
        · exact absurd answered (unknown id mem).answered
        · have nothing := (unknown envelope.1 (mem_map_of_mem mem)).copies
          refine nothing.trans (if_neg fun handed => ?_).symm
          simp [Spread.handed] at handed
        · simp [Spread.handed] at mem
        · cases own.messages.symm.trans present
        refine own.reported.trans (if_neg fun sent => ?_).symm
        exact own.answered (sent.1 message.id formed.own)
      rw [get_insert_of_ne same] at found
      have tracks := tracking.tracks found
      refine tracks.frame ⟨fun id mem => ?_, fun _ _ => rfl, rfl, fun _ _ => rfl,
        rfl, rfl⟩
      refine (state.owners_get message id).trans (if_neg fun known => ?_)
      cases (unowned id known).symm.trans (tracks.owned id mem)
    have before : state.owner.get other = none := by
      have after := (state.owners_get message other).symm.trans stillUnowned
      split at after
      · cases after
      · exact after
    have unknownOther := tracking.unknown before
    exact { unknownOther with }
  · cases begun

theorem step (once : state.settlesOnce move = true) (ran : state.step move = some after) :
    after.Tracking := by
  cases move with
  | sealed message => exact tracking.sealMessage ran
  | queue message => exact tracking.queueNext ran
  | retry =>
    cases ran
    refine ⟨⟨fun found => ?_, fun unowned => ?_⟩, tracking.refusals⟩
    · exact (tracking.tracks found).frame
        ⟨fun _ _ => rfl, fun _ _ => rfl, rfl, fun _ _ => rfl, rfl, rfl⟩
    have unknown := tracking.unknown unowned
    exact { unknown with }
  | sent id =>
    simp only [State.step] at ran
    split at ran
    next submitted =>
      cases ran
      exact tracking.accepted submitted once
    · cases ran
  | rejected id _ message =>
    simp only [State.step] at ran
    split at ran
    next submitted =>
      cases ran
      exact tracking.refused submitted (by simpa [State.settlesOnce] using once)
    · cases ran

end

end State.Tracking

/-- Where every answer for good is the first for its envelope and comes after the last
envelope of the message was handed over, a message is reported sent once at most, only
after the relay has answered for every envelope, and never if its own was refused. -/
theorem sent_once_all_answered {moves : List Move} {final : State}
    (once : EachState State.step (fun state move => state.settlesOnce move = true) start moves)
    (ended : run State.step start moves = some final) {message : String} {spread : Spread}
    (begun : final.spreads.get message = some spread) :
    final.reports message ≤ 1 ∧
    (ClientEvent.sent message ∈ final.events →
      (∀ id ∈ spread.ids, id ∈ final.answered) ∧ message ∉ final.refusals) := by
  have preserve : ∀ move state next, State.Tracking state → state.settlesOnce move = true →
      State.step state move = some next → State.Tracking next :=
    fun _ _ _ tracking settles stepped => tracking.step settles stepped
  have tracking := EachState.run_keeps once State.Tracking.start preserve ended
  have reported := (tracking.tracks begun).reported
  constructor
  · rw [reported]
    split <;> omega
  intro told
  have positive : 0 < final.reports message := count_pos_iff.mpr told
  rw [reported] at positive
  split at positive
  next sent => exact sent
  · omega

def greeting : Message :=
  ⟨"hello", "bob", "phone", [("copy1", "laptop", "bob"), ("copy2", "tablet", "alice")]⟩

def sending : List Move :=
  [.sealed greeting, .queue "hello", .queue "hello", .queue "hello",
    .rejected "copy1" .rateLimited "slow down", .retry, .sent "copy1", .sent "hello",
    .rejected "copy2" .notFound "no such device"]

theorem sending_reported : (run State.step start sending).any (fun final =>
      final.reports "hello" = 1 && (final.spreads.get "hello").isSome) = true ∧
    ∀ final spread, run State.step start sending = some final →
      final.spreads.get "hello" = some spread →
      final.reports "hello" ≤ 1 ∧
      (ClientEvent.sent "hello" ∈ final.events →
        (∀ id ∈ spread.ids, id ∈ final.answered) ∧ "hello" ∉ final.refusals) :=
  ⟨by decide +kernel, fun _ _ ended begun => sent_once_all_answered (by decide +kernel) ended begun⟩

/-- Answers between the envelopes: a message reported sent twice, the first time with
copies not handed over, and a message reported sent after it was refused. -/
theorem reported_before_its_copies : (run State.step start
      [.sealed greeting, .queue "hello", .sent "hello", .queue "hello", .queue "hello",
        .sent "copy1", .sent "copy2"]).any (fun final =>
        final.events = [.sent "hello", .sent "hello"]) = true ∧
    (run State.step start
      [.sealed greeting, .queue "hello", .rejected "hello" .mailboxFull "full", .queue "hello",
        .queue "hello", .sent "copy1", .sent "copy2"]).any (fun final =>
        final.events = [.rejected "hello" "full (MailboxFull)", .sent "hello"]) = true := by
  constructor
  · decide +kernel
  · decide +kernel

end Silver.Client.Connection.Spreading
