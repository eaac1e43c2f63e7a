import Silver.Client.Connection.Spreading

/-!
# What the task knows of a message

For every message begun, what the task holds and has reported is a function of which
envelopes were handed over and which the relay has answered for.  This module states that
and shows how settling an envelope, refusing one and handing over the next change it.
-/

namespace Silver.Client.Connection.Spreading

open Foundation Protocol FanOuts List Spread State Table

def State.Answered (state : State) (spread : Spread) : Prop :=
  ∀ id ∈ spread.ids, id ∈ state.answered
deriving Decidable

def State.Sent (state : State) (message : String) (spread : Spread) : Prop :=
  state.Answered spread ∧ message ∉ state.refusals

instance (state : State) (message : String) (spread : Spread) :
    Decidable (state.Sent message spread) :=
  inferInstanceAs (Decidable (_ ∧ _))

def State.reports (state : State) (message : String) : Nat :=
  state.events.count (.sent message)

/-- How a message was spread over envelopes. -/
structure Spread.Formed (spread : Spread) (message : String) : Prop where
  once : spread.ids.Nodup
  own : message ∈ spread.ids
  copies : ∀ envelope ∈ spread.envelopes,
    envelope.2.message = message ∧ (envelope.2.primary = true ↔ envelope.1 = message)

/-- What the task holds about a message, and what it has reported. -/
structure State.Tracks (state : State) (message : String) (spread : Spread) : Prop where
  formed : spread.Formed message
  owned : ∀ id ∈ spread.ids, state.owner.get id = some message
  early : ∀ id ∈ spread.ids, id ∈ state.answered → spread.complete = true
  copies : ∀ envelope ∈ spread.envelopes, state.fanouts.copies.get envelope.1 =
    if spread.fanned = true ∧ envelope.1 ∈ spread.handed ∧ envelope.1 ∉ state.answered then
      some envelope.2
    else none
  absent : state.fanouts.messages.get message = none → spread.fanned = true →
    ∀ id ∈ spread.handed, id ∈ state.answered
  present : ∀ fanout, state.fanouts.messages.get message = some fanout → spread.fanned = true ∧
      (∀ id, id ∈ fanout.pending ↔ id ∈ spread.handed ∧ id ∉ state.answered) ∧
      (fanout.failed = true ↔ message ∈ state.refusals)
  reported : state.reports message = if state.Sent message spread then 1 else 0

/-- Nothing is known of an envelope that was never sealed. -/
structure State.Unknown (state : State) (id : String) : Prop where
  answered : id ∉ state.answered
  refusals : id ∉ state.refusals
  copies : state.fanouts.copies.get id = none
  messages : state.fanouts.messages.get id = none
  reported : state.reports id = 0

/-- The task follows every message begun. -/
structure State.Follows (state : State) : Prop where
  tracks : ∀ {message spread}, state.spreads.get message = some spread → state.Tracks message spread
  unknown : ∀ {id}, state.owner.get id = none → state.Unknown id

/-- The task follows every message begun, and an envelope refused is answered for. -/
structure State.Tracking (state : State) : Prop extends State.Follows state where
  refusals : ∀ id ∈ state.refusals, id ∈ state.answered

namespace Spread

variable {spread : Spread}

theorem handed_subset : spread.handed ⊆ spread.ids := by
  intro _ mem
  obtain ⟨_, taken, rfl⟩ := mem_map.mp mem
  exact mem_map_of_mem (mem_of_mem_take taken)

theorem handed_of_complete (complete : spread.complete = true) : spread.handed = spread.ids := by
  have whole := of_decide_eq_true complete
  simp [handed, ids, take_of_length_le whole]

theorem Formed.alone {id : String} (formed : spread.Formed message) (single : spread.fanned = false)
    (mem : id ∈ spread.ids) :
    id = message := by
  have short : spread.ids.length ≤ 1 := by
    simpa [fanned, ids] using single
  obtain ⟨_, same⟩ := length_eq_one_iff.mp (Nat.le_antisymm short (length_pos_of_mem mem))
  have own := formed.own
  rw [same, mem_singleton] at own mem
  rw [mem, own]

end Spread

namespace FanOuts

variable {fanouts : FanOuts} {id : String}

theorem done_alone (unknown : fanouts.copies.get id = none) :
    fanouts.done id = (.alone, fanouts) := by
  simp [done, unknown]

theorem done_fanned {copy : Copy} {fanout : FanOut} (known : fanouts.copies.get id = some copy)
    (spread : fanouts.messages.get copy.message = some fanout) :
    fanouts.done id = if fanout.pending.filter (fun other => other ≠ id) = [] then
        (if fanout.failed then .failed else .message copy.message,
          ⟨fanouts.copies.remove id, fanouts.messages.remove copy.message⟩)
      else
        (.waiting, ⟨fanouts.copies.remove id, fanouts.messages.insert copy.message
              { fanout with pending := fanout.pending.filter fun other => other ≠ id }⟩) := by
  simp [done, known, spread]

theorem done_unspread {copy : Copy} (known : fanouts.copies.get id = some copy)
    (absent : fanouts.messages.get copy.message = none) :
    fanouts.done id = (.alone, { fanouts with copies := fanouts.copies.remove id }) := by
  simp [done, known, absent]

theorem done_copies (fanouts : FanOuts) (id other : String) : (fanouts.done id).2.copies.get other =
      if other = id then none else fanouts.copies.get other := by
  cases known : fanouts.copies.get id with
  | none =>
    rw [done_alone known]
    split
    next same => rw [same, known]
    · rfl
  | some copy =>
    cases found : fanouts.messages.get copy.message with
    | none =>
      rw [done_unspread known found]
      exact get_remove _ _ _
    | some fanout =>
      rw [done_fanned known found]
      by_cases last : fanout.pending.filter (fun other => other ≠ id) = []
      · rw [if_pos last]
        exact get_remove _ _ _
      rw [if_neg last]
      exact get_remove _ _ _

theorem done_messages
    (elsewhere : ∀ copy, fanouts.copies.get id = some copy → copy.message ≠ message) :
    (fanouts.done id).2.messages.get message = fanouts.messages.get message := by
  cases known : fanouts.copies.get id with
  | none => rw [done_alone known]
  | some copy =>
    have different : message ≠ copy.message := (elsewhere copy known).symm
    cases found : fanouts.messages.get copy.message with
    | none => rw [done_unspread known found]
    | some fanout =>
      rw [done_fanned known found]
      by_cases last : fanout.pending.filter (fun other => other ≠ id) = []
      · rw [if_pos last]
        exact get_remove_of_ne different
      rw [if_neg last]
      exact get_insert_of_ne different

theorem done_settled (own : ∀ copy, fanouts.copies.get id = some copy → copy.message = message) :
    (fanouts.done id).1 = .alone ∨ (fanouts.done id).1 = .message message ∨
      (fanouts.done id).1 = .waiting ∨ (fanouts.done id).1 = .failed := by
  cases known : fanouts.copies.get id with
  | none =>
    rw [done_alone known]
    exact .inl rfl
  | some copy =>
    cases found : fanouts.messages.get copy.message with
    | none =>
      rw [done_unspread known found]
      exact .inl rfl
    | some fanout =>
      rw [done_fanned known found, own copy known]
      by_cases last : fanout.pending.filter (fun other => other ≠ id) = []
      · rw [if_pos last]
        cases fanout.failed <;> simp
      rw [if_neg last]
      exact .inr (.inr (.inl rfl))

theorem fail_messages (fanouts : FanOuts) (message other : String) :
    (fanouts.fail message).messages.get other = if other = message then
        (fanouts.messages.get message).map fun fanout => { fanout with failed := true }
      else fanouts.messages.get other := by
  unfold fail
  split
  next absent =>
    split
    next same => rw [same, absent]; rfl
    · rfl
  next fanout known =>
    rw [get_insert, known]
    rfl

theorem fail_copies (fanouts : FanOuts) (message : String) :
    (fanouts.fail message).copies = fanouts.copies := by
  unfold fail
  split <;> rfl

end FanOuts

/-- What settling an envelope reports: the message where it was the last, at most an
envelope of the message where it is on its own, and nothing otherwise. -/
structure Reports (report : Settled → List ClientEvent) (message : String) (spread : Spread) :
    Prop where
  whole : report (.message message) = [.sent message]
  waiting : report .waiting = []
  failed : report .failed = []
  alone : ∀ other, .sent other ∈ report .alone → other ∈ spread.ids

namespace State

variable {state after : State} {message : String} {spread : Spread}

/-- Two states agree on a message. -/
structure Agrees (state after : State) (message : String) (spread : Spread) : Prop where
  owner : ∀ id ∈ spread.ids, after.owner.get id = state.owner.get id
  answered : ∀ id ∈ spread.ids, id ∈ after.answered ↔ id ∈ state.answered
  refusals : message ∈ after.refusals ↔ message ∈ state.refusals
  copies : ∀ id ∈ spread.ids, after.fanouts.copies.get id = state.fanouts.copies.get id
  messages : after.fanouts.messages.get message = state.fanouts.messages.get message
  reported : after.reports message = state.reports message

variable {id : String} (tracks : state.Tracks message spread) (unknown : state.Unknown other)
  (known : id ∈ spread.ids) (reports : Reports report message spread)

theorem reports_tell (other : event ≠ .sent message) :
    (state.tell event).reports message = state.reports message := by
  simp [reports, tell, count_append, other]

theorem reports_settle : ((state.answer id).settle id report).reports message =
      state.reports message + (report (state.fanouts.done id).1).count (.sent message) := by
  simp [reports, settle, answer, count_append]

section

include tracks

theorem Tracks.frame (agrees : state.Agrees after message spread) :
    after.Tracks message spread where
  formed := tracks.formed
  owned id mem := (agrees.owner id mem).trans (tracks.owned id mem)
  early id mem answered := tracks.early id mem ((agrees.answered id mem).mp answered)
  copies envelope mem := by
    have known : envelope.1 ∈ spread.ids := mem_map_of_mem mem
    rw [agrees.copies _ known, tracks.copies envelope mem]
    simp only [agrees.answered _ known]
  absent none fanned id mem := by
    rw [agrees.messages] at none
    exact (agrees.answered id (handed_subset mem)).mpr (tracks.absent none fanned id mem)
  present fanout found := by
    rw [agrees.messages] at found
    obtain ⟨fanned, pending, failed⟩ := tracks.present fanout found
    refine ⟨fanned, fun id => ?_, failed.trans agrees.refusals.symm⟩
    rw [pending id]
    constructor
    · rintro ⟨handed, fresh⟩
      exact ⟨handed, fun done => fresh ((agrees.answered id (handed_subset handed)).mp done)⟩
    rintro ⟨handed, fresh⟩
    exact ⟨handed, fun done => fresh ((agrees.answered id (handed_subset handed)).mpr done)⟩
  reported := by
    have same : after.Sent message spread ↔ state.Sent message spread := by
      unfold Sent Answered
      rw [agrees.refusals]
      constructor
      · rintro ⟨settled, kept⟩
        exact ⟨fun id mem => (agrees.answered id mem).mp (settled id mem), kept⟩
      rintro ⟨settled, kept⟩
      exact ⟨fun id mem => (agrees.answered id mem).mpr (settled id mem), kept⟩
    rw [agrees.reported, tracks.reported]
    simp only [same]

theorem Tracks.apart (others : state.Tracks other otherSpread) (different : other ≠ message) :
    ∀ id ∈ spread.ids, ∀ otherId ∈ otherSpread.ids, otherId ≠ id := by
  rintro id known otherId mem rfl
  have owner := (others.owned otherId mem).symm.trans (tracks.owned otherId known)
  exact different (Option.some.inj owner)

theorem Tracks.outside_of_unowned (unowned : state.owner.get other = none) :
    other ∉ spread.ids := by
  intro mem
  cases unowned.symm.trans (tracks.owned other mem)

theorem Tracks.tell (other : event ≠ .sent message) : (state.tell event).Tracks message spread :=
  tracks.frame ⟨fun _ _ => rfl, fun _ _ => Iff.rfl, Iff.rfl, fun _ _ => rfl, rfl, reports_tell other⟩

/-- Settling an envelope of a message whose envelopes are all handed over. -/
theorem Tracks.settle
    (handed : id ∈ spread.handed) (fresh : id ∉ state.answered) (complete : spread.complete = true)
    (reports : Reports report message spread)
    (alone : spread.fanned = false → report .alone = [.sent message] ∧ message ∉ state.refusals) :
    ((state.answer id).settle id report).Tracks message spread := by
  have allHanded := handed_of_complete complete
  have known : id ∈ spread.ids := handed_subset handed
  have before : state.reports message = 0 := by
    rw [tracks.reported, if_neg]
    exact fun sent => fresh (sent.1 id known)
  obtain ⟨envelope, mem, rfl⟩ := mem_map.mp known
  let settled := (state.answer envelope.1).settle envelope.1 report
  have copies := tracks.copies envelope mem
  have copiesAfter : ∀ other ∈ spread.envelopes,
      settled.fanouts.copies.get other.1 =
        if spread.fanned = true ∧ other.1 ∈ spread.handed ∧
            other.1 ∉ envelope.1 :: state.answered then some other.2
        else none := by
    intro other otherMember
    refine (done_copies state.fanouts envelope.1 other.1).trans ?_
    rw [tracks.copies other otherMember]
    by_cases same : other.1 = envelope.1
    · simp [same]
    · simp [same]
  have count := @reports_settle report state message envelope.1
  cases fanned : spread.fanned with
  | false =>
    obtain ⟨reported, kept⟩ := alone fanned
    have own : envelope.1 = message := tracks.formed.alone fanned known
    have done := done_alone (copies.trans (if_neg (by simp [fanned])))
    refine ⟨tracks.formed, tracks.owned, fun _ _ _ => complete, copiesAfter, ?_, ?_, ?_⟩
    · intro _ absurdly
      simp [fanned] at absurdly
    · intro fanout found
      have same : settled.fanouts = state.fanouts := by
        show (state.fanouts.done envelope.1).2 = state.fanouts
        rw [done]
      rw [same] at found
      exact absurd (tracks.present fanout found).1 (by simp [fanned])
    have sent : settled.Sent message spread := by
      refine ⟨fun other otherMember => ?_, kept⟩
      have : other = envelope.1 := (tracks.formed.alone fanned otherMember).trans own.symm
      rw [this]
      exact .head _
    rw [if_pos sent, count, before, done, reported]
    simp
  | true =>
    have copy := copies.trans (if_pos ⟨fanned, handed, fresh⟩)
    have own := (tracks.formed.copies envelope mem).1
    cases found : state.fanouts.messages.get message with
    | none => exact absurd (tracks.absent found fanned envelope.1 handed) fresh
    | some fanout =>
      obtain ⟨-, pending, failed⟩ := tracks.present fanout found
      have left : ∀ other, other ∈ fanout.pending.filter (fun other => other ≠ envelope.1) ↔
            other ∈ spread.handed ∧ other ∉ envelope.1 :: state.answered := by
        intro other
        rw [mem_filter, pending other, mem_cons, not_or, decide_eq_true_eq]
        exact ⟨fun ⟨⟨handed, fresh⟩, different⟩ => ⟨handed, different, fresh⟩,
          fun ⟨handed, different, fresh⟩ => ⟨⟨handed, fresh⟩, different⟩⟩
      have done := done_fanned copy (own.symm ▸ found)
      rw [own] at done
      by_cases last : fanout.pending.filter (fun other => other ≠ envelope.1) = []
      · rw [if_pos last] at done
        have all : settled.Answered spread := by
          intro other otherMember
          by_contra unanswered
          rw [← allHanded] at otherMember
          have waiting := (left other).mpr ⟨otherMember, unanswered⟩
          rw [last] at waiting
          cases waiting
        have gone : settled.fanouts.messages.get message = none := by
          show (state.fanouts.done envelope.1).2.messages.get message = none
          rw [done]
          exact get_remove_self _ _
        refine ⟨tracks.formed, tracks.owned, fun _ _ _ => complete, copiesAfter, ?_, ?_, ?_⟩
        · exact fun _ _ other otherHanded => all other (handed_subset otherHanded)
        · intro other otherFound
          cases gone.symm.trans otherFound
        rw [count, before, done]
        by_cases refused : message ∈ state.refusals
        · rw [if_pos (failed.mpr refused), if_neg (fun sent => sent.2 refused), reports.failed]
          rfl
        rw [if_neg (fun marked => refused (failed.mp marked)), if_pos ⟨all, refused⟩, reports.whole]
        simp
      rw [if_neg last] at done
      obtain ⟨other, waiting⟩ := exists_mem_of_ne_nil _ last
      obtain ⟨otherHanded, otherFresh⟩ := (left other).mp waiting
      have kept : settled.fanouts.messages.get
          message = some { fanout with
            pending := fanout.pending.filter fun other => other ≠ envelope.1 } := by
        show (state.fanouts.done envelope.1).2.messages.get message = _
        rw [done]
        exact get_insert_self _ _ _
      refine ⟨tracks.formed, tracks.owned, fun _ _ _ => complete, copiesAfter, ?_, ?_, ?_⟩
      · intro absent
        cases kept.symm.trans absent
      · intro last found
        cases kept.symm.trans found
        exact ⟨fanned, left, failed⟩
      rw [count, before, done, reports.waiting, if_neg]
      · rfl
      · exact fun sent => otherFresh (sent.1 other (handed_subset otherHanded))

theorem Tracks.refuse (copy : message ≠ id) : (state.refuse id).Tracks message spread := by
  refine tracks.frame ⟨fun _ _ => rfl, fun _ _ => Iff.rfl, ?_, fun _ _ => rfl, rfl, rfl⟩
  show message ∈ id :: state.refusals ↔ _
  simp [copy]

theorem Tracks.fail (fresh : message ∉ state.answered) :
    ((state.refuse message).fail message).Tracks message spread := by
  have copies : ((state.refuse message).fail message).fanouts.copies = state.fanouts.copies :=
    fail_copies _ _
  have messages : ((state.refuse message).fail message).fanouts.messages.get message =
      (state.fanouts.messages.get message).map fun fanout => { fanout with failed := true } := by
    refine (fail_messages state.fanouts message message).trans ?_
    rw [if_pos rfl]
  refine ⟨tracks.formed, tracks.owned, tracks.early, ?_, fun absent => ?_,
    fun fanout found => ?_, ?_⟩
  · rw [copies]
    exact tracks.copies
  · rw [messages, Option.map_eq_none_iff] at absent
    exact tracks.absent absent
  · rw [messages] at found
    obtain ⟨before, foundBefore, rfl⟩ := Option.map_eq_some_iff.mp found
    obtain ⟨fanned, pending, -⟩ := tracks.present before foundBefore
    exact ⟨fanned, pending, fun _ => .head _, fun _ => rfl⟩
  have unsettled : ¬state.Sent message spread := fun sent =>
    fresh (sent.1 message tracks.formed.own)
  rw [if_neg (fun sent => sent.2 (.head _))]
  exact tracks.reported.trans (if_neg unsettled)

theorem Tracks.fail_other (different : message ≠ other) :
    ((state.refuse other).fail other).Tracks message spread := by
  refine (tracks.refuse different).frame ⟨fun _ _ => rfl, fun _ _ => Iff.rfl, Iff.rfl,
    fun id _ => ?_, ?_, rfl⟩
  · show (state.fanouts.fail other).copies.get id = state.fanouts.copies.get id
    rw [fail_copies]
  refine (fail_messages state.fanouts other message).trans ?_
  rw [if_neg different]
  rfl

theorem Tracks.refuse_alone (single : spread.fanned = false) (complete : spread.complete = true)
    (fresh : message ∉ state.answered) :
    ((state.refuse message).answer message).Tracks message spread := by
  refine ⟨tracks.formed, tracks.owned, fun _ _ _ => complete, fun envelope mem => ?_,
    fun _ fanned => ?_, fun fanout found => ?_, ?_⟩
  · rw [if_neg (by simp [single])]
    exact (tracks.copies envelope mem).trans (if_neg (by simp [single]))
  · simp [single] at fanned
  · exact absurd (tracks.present fanout found).1 (by simp [single])
  have unsettled : ¬state.Sent message spread := fun sent =>
    fresh (sent.1 message tracks.formed.own)
  rw [if_neg (fun sent => sent.2 (.head _))]
  exact tracks.reported.trans (if_neg unsettled)

theorem Tracks.answer_other (apart : ∀ otherId ∈ spread.ids, otherId ≠ id) :
    (state.answer id).Tracks message spread := by
  refine tracks.frame ⟨fun _ _ => rfl, fun otherId mem => ?_, Iff.rfl, fun _ _ => rfl, rfl, rfl⟩
  show otherId ∈ id :: state.answered ↔ _
  simp [apart otherId mem]

include known reports

theorem settle_elsewhere (outside : other ∉ spread.ids) :
    ((state.answer id).settle id report).fanouts.messages.get other =
        state.fanouts.messages.get other ∧
      ((state.answer id).settle id report).reports other = state.reports other := by
  have different : message ≠ other := fun same => outside (same ▸ tracks.formed.own)
  obtain ⟨envelope, mem, rfl⟩ := mem_map.mp known
  have own : ∀ copy, state.fanouts.copies.get envelope.1 = some copy → copy.message = message := by
    intro copy found
    rw [tracks.copies envelope mem] at found
    split at found
    · cases found
      exact (tracks.formed.copies envelope mem).1
    · cases found
  constructor
  · exact done_messages fun copy found => (own copy found).symm ▸ different
  rw [reports_settle, count_eq_zero_of_not_mem, Nat.add_zero]
  rcases done_settled own with settled | settled | settled | settled <;> rw [settled]
  · exact fun told => outside (reports.alone other told)
  · rw [reports.whole]
    simpa using different.symm
  · simp [reports.waiting]
  · simp [reports.failed]

theorem Tracks.settle_other (others : state.Tracks other otherSpread) (different : other ≠ message) :
    ((state.answer id).settle id report).Tracks other otherSpread := by
  have apart := tracks.apart others different
  have outside : other ∉ spread.ids := fun mem => apart other mem other others.formed.own rfl
  obtain ⟨messages, reported⟩ := settle_elsewhere tracks known reports outside
  refine others.frame ⟨fun _ _ => rfl, fun otherId otherMember => ?_, Iff.rfl,
    fun otherId otherMember => ?_, messages, reported⟩
  · show otherId ∈ id :: state.answered ↔ _
    simp [apart id known otherId otherMember]
  refine (done_copies state.fanouts id otherId).trans ?_
  rw [if_neg (apart id known otherId otherMember)]

include unknown in
theorem Unknown.settle (unowned : state.owner.get other = none) :
    ((state.answer id).settle id report).Unknown other := by
  have outside := tracks.outside_of_unowned unowned
  have notId : other ≠ id := fun same => outside (same ▸ known)
  obtain ⟨messages, reported⟩ := settle_elsewhere tracks known reports outside
  refine ⟨?_, unknown.refusals, ?_, messages.trans unknown.messages,
    reported.trans unknown.reported⟩
  · show other ∉ id :: state.answered
    simp [notId, unknown.answered]
  refine (done_copies state.fanouts id other).trans ?_
  rw [if_neg notId, unknown.copies]

end

section

include unknown

theorem Unknown.fail (different : other ≠ message) :
    ((state.refuse message).fail message).Unknown other := by
  refine ⟨unknown.answered, ?_, ?_, ?_, unknown.reported⟩
  · show other ∉ message :: state.refusals
    simp [different, unknown.refusals]
  · show (state.fanouts.fail message).copies.get other = none
    rw [fail_copies, unknown.copies]
  refine (fail_messages state.fanouts message other).trans ?_
  rw [if_neg different, unknown.messages]

theorem Unknown.refuse (different : other ≠ id) : (state.refuse id).Unknown other := by
  refine { unknown with refusals := ?_ }
  show other ∉ id :: state.refusals
  simp [different, unknown.refusals]

theorem Unknown.tell (silent : event ≠ .sent other) : (state.tell event).Unknown other :=
  { unknown with reported := (reports_tell silent).trans unknown.reported }

theorem Unknown.answer (different : other ≠ id) : (state.answer id).Unknown other := by
  refine { unknown with answered := ?_ }
  show other ∉ id :: state.answered
  simp [different, unknown.answered]

end

theorem Tracking.settling (tracking : state.Tracking) (submitted : state.submitted id = true)
    (awaits : state.awaits id = true) :
    ∃ message spread, state.spreads.get message = some spread ∧
      state.Tracks message spread ∧ id ∈ spread.handed ∧ id ∉ state.answered ∧
      spread.complete = true := by
  obtain ⟨fresh, waits⟩ := Bool.and_eq_true_iff.mp awaits
  simp only [Option.any_eq_true] at waits
  obtain ⟨message, owner, spread, found, complete⟩ := waits
  refine ⟨message, spread, found, tracking.tracks found, ?_, ?_, complete⟩
  · simpa [State.submitted, owner, found] using submitted
  · simpa using fresh

end State

section Queueing

variable {state : State} {message id : String} {spread : Spread}

theorem FanOuts.register_copies (fanouts : FanOuts) (id other : String) (copy : Copy) :
    (fanouts.register id copy).copies.get other =
      if other = id then some copy else fanouts.copies.get other :=
  get_insert _ _ _ _

theorem FanOuts.register_messages (fanouts : FanOuts) (id other : String) (copy : Copy) :
    (fanouts.register id copy).messages.get other = if other = copy.message then
        some { fanouts.fanout copy.message with
          pending := (fanouts.fanout copy.message).pending.insert id }
      else fanouts.messages.get other :=
  get_insert _ _ _ _

section

variable (tracks : state.Tracks message spread)
  (next : spread.envelopes[spread.queued]? = some (id, copy))

include next in
theorem Spread.handed_next :
    ({ spread with queued := spread.queued + 1 } : Spread).handed = spread.handed ++ [id] := by
  simp [handed, take_add_one, next]

include tracks

theorem State.Tracks.fanout (fanned : spread.fanned = true) (unrefused : message ∉ state.refusals) :
    (∀ other, other ∈ (state.fanouts.fanout message).pending ↔
        other ∈ spread.handed ∧ other ∉ state.answered) ∧
      ((state.fanouts.fanout message).failed = true ↔ message ∈ state.refusals) := by
  cases found : state.fanouts.messages.get message with
  | some fanout =>
    have same : state.fanouts.fanout message = fanout := by simp [FanOuts.fanout, found]
    rw [same]
    exact (tracks.present fanout found).2
  | none =>
    have same : state.fanouts.fanout message = ⟨[], false⟩ := by simp [FanOuts.fanout, found]
    rw [same]
    refine ⟨fun other => ⟨fun mem => ?_, fun ⟨handed, fresh⟩ => ?_⟩, ?_⟩
    · cases mem
    · exact absurd (tracks.absent found fanned other handed) fresh
    · simp [unrefused]

include next

theorem State.Tracks.none_answered : ∀ other ∈ spread.ids, other ∉ state.answered := by
  intro other mem answered
  have complete := tracks.early other mem answered
  obtain ⟨within, -⟩ := List.getElem?_eq_some_iff.mp next
  have whole := of_decide_eq_true complete
  omega

theorem State.Tracks.send_alone (single : spread.fanned = false) :
    (state.send id none).Tracks message { spread with queued := spread.queued + 1 } := by
  have unanswered := tracks.none_answered next
  refine ⟨⟨tracks.formed.once, tracks.formed.own, tracks.formed.copies⟩, tracks.owned,
    fun other known answered => absurd answered (unanswered other known),
    fun envelope known => ?_, fun _ fanned => ?_, fun fanout found => ?_, tracks.reported⟩
  · refine (tracks.copies envelope known).trans ?_
    rw [if_neg (fun spreadOut => by simp [single] at spreadOut)]
    rw [if_neg (fun spreadOut => absurd (single.symm.trans spreadOut.1) (by simp))]
  · exact absurd (single.symm.trans fanned) (by simp)
  · exact absurd (single.symm.trans (tracks.present fanout found).1) (by simp)

theorem State.Tracks.send_fanned
    (fanned : spread.fanned = true) (unrefused : message ∉ state.refusals) :
    (state.send id (some copy)).Tracks message { spread with queued := spread.queued + 1 } := by
  have unanswered := tracks.none_answered next
  have mem : (id, copy) ∈ spread.envelopes := mem_of_getElem? next
  have own : copy.message = message := (tracks.formed.copies _ mem).1
  have handed := handed_next next
  have messages : (state.send id (some copy)).fanouts.messages.get message =
      some { state.fanouts.fanout message with
        pending := (state.fanouts.fanout message).pending.insert id } := by
    refine (register_messages state.fanouts id message copy).trans ?_
    rw [own, if_pos rfl]
  refine ⟨⟨tracks.formed.once, tracks.formed.own, tracks.formed.copies⟩, tracks.owned,
    fun other known answered => absurd answered (unanswered other known),
    fun envelope known => ?_, fun absent => ?_, fun fanout found => ?_, tracks.reported⟩
  · have fresh : envelope.1 ∉ state.answered := unanswered envelope.1 (mem_map_of_mem known)
    refine (register_copies state.fanouts id envelope.1 copy).trans ?_
    rw [handed]
    by_cases same : envelope.1 = id
    · have envelopes : envelope = (id, copy) :=
        inj_on_of_nodup_map tracks.formed.once known mem same
      subst envelopes
      rw [if_pos rfl, if_pos ⟨fanned, by simp, fresh⟩]
    rw [if_neg same, tracks.copies envelope known]
    simp [same, send]
    rfl
  · cases messages.symm.trans absent
  cases messages.symm.trans found
  obtain ⟨pending, failed⟩ := tracks.fanout fanned unrefused
  refine ⟨fanned, fun other => ?_, failed⟩
  rw [mem_insert_iff, pending other, handed, mem_append, mem_singleton]
  constructor
  · rintro (rfl | ⟨earlier, fresh⟩)
    · exact ⟨.inr rfl, unanswered other (mem_map_of_mem mem)⟩
    · exact ⟨.inl earlier, fresh⟩
  rintro ⟨earlier | rfl, fresh⟩
  · exact .inr ⟨earlier, fresh⟩
  · exact .inl rfl

end

variable {copy : Option Copy}

theorem State.send_elsewhere (elsewhere : ∀ known, copy = some known → known.message ≠ other) :
    (state.send id copy).fanouts.messages.get other = state.fanouts.messages.get other := by
  cases copy with
  | none => rfl
  | some known =>
    refine (register_messages state.fanouts id other known).trans ?_
    rw [if_neg (elsewhere known rfl).symm]

theorem State.send_copies (different : other ≠ id) :
    (state.send id copy).fanouts.copies.get other = state.fanouts.copies.get other := by
  cases copy with
  | none => rfl
  | some known =>
    refine (register_copies state.fanouts id other known).trans ?_
    rw [if_neg different]

theorem State.Tracks.send_other (tracks : state.Tracks message spread)
    (apart : ∀ other ∈ spread.ids, other ≠ id)
    (elsewhere : ∀ known, copy = some known → known.message ≠ message) :
    (state.send id copy).Tracks message spread :=
  tracks.frame ⟨fun _ _ => rfl, fun _ _ => Iff.rfl, Iff.rfl,
    fun other mem => send_copies (apart other mem),
    send_elsewhere elsewhere, rfl⟩

theorem State.Unknown.send (unknown : state.Unknown other) (different : other ≠ id)
    (elsewhere : ∀ known, copy = some known → known.message ≠ other) :
    (state.send id copy).Unknown other :=
  { unknown with copies := (send_copies different).trans unknown.copies, messages := (send_elsewhere elsewhere).trans unknown.messages }

end Queueing

section Sealing

variable {message : Message}

theorem Message.formed (once : (message.envelopes.map Prod.fst).Nodup) :
    (⟨message.envelopes, 0⟩ : Spread).Formed message.id := by
  refine ⟨once, .head _, fun envelope mem => ?_⟩
  rcases mem_cons.mp mem with rfl | copy
  · exact ⟨rfl, fun _ => rfl, fun _ => rfl⟩
  have apart := (nodup_cons.mp once).1
  have named : envelope.1 ∈ (message.copies.map fun copy =>
      (copy.1, (⟨message.id, copy.2.2, copy.2.1, false⟩ : Copy))).map Prod.fst :=
    mem_map_of_mem copy
  have different : envelope.1 ≠ message.id := by
    intro same
    rw [same] at named
    exact apart named
  obtain ⟨_, -, rfl⟩ := mem_map.mp copy
  exact ⟨rfl, by simp [different]⟩

theorem State.owners_get (state : State) (message : Message) (id : String) :
    (state.owners message).get id =
      if id ∈ message.envelopes.map Prod.fst then some message.id else state.owner.get id := by
  unfold owners
  generalize message.envelopes = envelopes
  generalize state.owner = owner
  induction envelopes generalizing owner with
  | nil => simp
  | cons _ _ ih =>
    rw [foldl_cons, ih, get_insert]
    simp only [map_cons, mem_cons]
    split
    next later => simp [later]
    next earlier => simp [earlier]

end Sealing

end Silver.Client.Connection.Spreading
