import Silver.Protocol.Wire

/-!
# The sequencer's answers

Requests to the group sequencer go over the anonymous connection while it is up and over
the authenticated one otherwise; an answer names only its group, and goes to the caller in
front.  Where a request is made only while none is unanswered on the other connection, and
the anonymous connection loses none, every answer reaches the caller it belongs to.
-/

namespace Silver.Client.Connection.Answers

open Foundation Protocol List Option

/-- The relay's answer to a sequencer frame. -/
inductive SequencerFrame where
  | groupState (epoch : Nat)
  | groupRejected (code : ErrorCode) (epoch : Option Nat)
deriving DecidableEq

/-- What a caller is told. -/
inductive SequencerAnswer where
  | stands (epoch : Nat)
  | stale (epoch : Nat)
  | existsAt (epoch : Nat)
  | notFound
  | forbidden
  | rateLimited
  | other (message : String)
deriving DecidableEq

def SequencerFrame.answer : SequencerFrame → SequencerAnswer
  | .groupState epoch => .stands epoch
  | .groupRejected .stale (some epoch) => .stale epoch
  | .groupRejected .existsAlready (some epoch) => .existsAt epoch
  | .groupRejected .notFound _ => .notFound
  | .groupRejected .forbidden _ => .forbidden
  | .groupRejected .rateLimited _ => .rateLimited
  | .groupRejected code _ => .other code.name

theorem SequencerFrame.answer_stands
    {frame : SequencerFrame} {epoch : Nat} (told : frame.answer = .stands epoch) :
    frame = .groupState epoch := by
  unfold answer at told
  split at told
  · obtain rfl := SequencerAnswer.stands.inj told
    rfl
  all_goals cases told

/-- A relay's answer with the caller whose frame it answers. -/
structure Verdict where
  caller : Nat
  frame : SequencerFrame
deriving DecidableEq

/-- What the anonymous connection's task has reported. -/
inductive SubmitEvent where
  | ready
  | group (verdict : Verdict)
  | down
deriving DecidableEq

def SubmitEvent.caller : SubmitEvent → Option Nat
  | .group verdict => some verdict.caller
  | .ready | .down => none

/-- The anonymous connection and its task: the frames handed over, those written and not
answered, the answers on their way back, and the events not handled yet. -/
structure Submitter where
  ready : Bool
  running : Bool
  connected : Bool
  channel : List Nat
  sent : List Nat
  answers : List Verdict
  events : List SubmitEvent
deriving DecidableEq

namespace Submitter

def spawn : Submitter :=
  ⟨false, true, false, [], [], [], []⟩

def unanswered (submitter : Submitter) : List Nat :=
  submitter.events.filterMap SubmitEvent.caller ++
    (submitter.answers.map Verdict.caller ++ (submitter.sent ++ submitter.channel))

end Submitter

/-- An answer handed to a caller, with whether the caller still waited for it. -/
structure HandOut where
  caller : Nat
  verdict : Verdict
  heard : Bool
deriving DecidableEq

def HandOut.told (handOut : HandOut) : Option SequencerAnswer :=
  if handOut.heard then some handOut.verdict.frame.answer else none

/-- A login session as one group's requests see it. -/
structure State where
  published : Bool
  submission : Option Submitter
  sent : List Nat
  answers : List Verdict
  queue : List Nat
  issued : Nat
  timedOut : List Nat
  verdicts : List Verdict
  handOuts : List HandOut
deriving DecidableEq

def start : State :=
  ⟨false, none, [], [], [], 0, [], [], []⟩

/-- What can happen: the relay takes the bundle, a request is made, a caller gives up;
on the anonymous connection, a frame is written, the connection drops (losing the frame
being written or not), comes up, or is refused for good; the relay answers a frame; an
answer is read; an event is handled. -/
inductive Move where
  | published (offered : Bool)
  | request
  | timeout (caller : Nat)
  | write
  | drop (writing : Bool)
  | connect
  | refuse
  | answerAnonymous (frame : SequencerFrame)
  | answerMain (frame : SequencerFrame)
  | read
  | event
  | gone
  | readMain
deriving DecidableEq

namespace State

def anonymously (state : State) : List Nat :=
  (state.submission.map Submitter.unanswered).getD []

def mainly (state : State) : List Nat :=
  state.answers.map Verdict.caller ++ state.sent

def submits (state : State) : Bool :=
  state.submission.any fun submitter => submitter.ready && submitter.running

def answerSequencer (state : State) (verdict : Verdict) : State :=
  match state.queue with
  | [] => state
  | caller :: rest =>
    { state with
      queue := rest
      handOuts := state.handOuts ++ [⟨caller, verdict, caller ∉ state.timedOut⟩] }

def sendMain (state : State) (submission : Option Submitter) : State :=
  { state with
    submission
    sent := state.sent ++ [state.issued]
    queue := state.queue ++ [state.issued]
    issued := state.issued + 1 }

def sendAnonymous (state : State) (submitter : Submitter) : State :=
  { state with
    submission := some { submitter with channel := submitter.channel ++ [state.issued] }
    queue := state.queue ++ [state.issued]
    issued := state.issued + 1 }

def request (state : State) : State :=
  match state.submission with
  | none => state.sendMain none
  | some submitter =>
    if submitter.ready then
      if submitter.running then state.sendAnonymous submitter
      else state.sendMain none
    else state.sendMain (some submitter)

def submitting (state : State) (submitter : Submitter) : State :=
  { state with submission := some submitter }

def answered (state : State) (verdict : Verdict) : State :=
  { state with verdicts := state.verdicts ++ [verdict] }

/-- What happens on the anonymous connection. -/
def anonymous (state : State) (submitter : Submitter) : Move → Option State
  | .write =>
    match submitter.channel with
    | caller :: rest =>
      if submitter.connected then
        some (state.submitting
          { submitter with channel := rest, sent := submitter.sent ++ [caller] })
      else none
    | [] => none
  | .drop writing =>
    if submitter.connected then
      some (state.submitting
        { submitter with
          connected := false
          channel := if writing then submitter.channel.drop 1 else submitter.channel
          sent := []
          answers := []
          events := submitter.events ++ [.down] })
    else none
  | .connect =>
    if submitter.running ∧ ¬submitter.connected then
      some (state.submitting
        { submitter with connected := true, events := submitter.events ++ [.ready] })
    else none
  | .refuse =>
    if submitter.connected then
      some (state.submitting
        { submitter with
          running := false
          connected := false
          channel := []
          sent := []
          answers := [] })
    else none
  | .answerAnonymous frame =>
    match submitter.sent with
    | caller :: rest =>
      some ((state.answered ⟨caller, frame⟩).submitting
        { submitter with sent := rest, answers := submitter.answers ++ [⟨caller, frame⟩] })
    | [] => none
  | .read =>
    match submitter.answers with
    | verdict :: rest =>
      some (state.submitting
        { submitter with answers := rest, events := submitter.events ++ [.group verdict] })
    | [] => none
  | .event =>
    match submitter.events with
    | .ready :: rest => some (state.submitting { submitter with ready := true, events := rest })
    | .down :: rest => some (state.submitting { submitter with ready := false, events := rest })
    | .group verdict :: rest =>
      some ((state.submitting { submitter with events := rest }).answerSequencer verdict)
    | [] => none
  | .gone =>
    if submitter.running = false ∧ submitter.events = [] then
      some { state with submission := none }
    else none
  | _ => none

def takenBundle (state : State) (offered : Bool) : State :=
  { state with published := true, submission := if offered then some .spawn else none }

/-- One thing that happens in the session. -/
def step (state : State) : Move → Option State
  | .published offered =>
    if state.published then none
    else some (state.takenBundle offered)
  | .request => some state.request
  | .timeout caller => some { state with timedOut := caller :: state.timedOut }
  | .answerMain frame =>
    match state.sent with
    | caller :: rest =>
      some { state.answered ⟨caller, frame⟩ with
        sent := rest
        answers := state.answers ++ [⟨caller, frame⟩] }
    | [] => none
  | .readMain =>
    match state.answers with
    | verdict :: rest => some ({ state with answers := rest }.answerSequencer verdict)
    | [] => none
  | move => state.submission.bind fun submitter => state.anonymous submitter move

end State

def State.Apart (state : State) : Move → Prop
  | .request => if state.submits then state.mainly = [] else state.anonymously = []
  | .drop writing => state.submission.all (fun submitter =>
    submitter.sent = [] && submitter.answers = [] && (!writing || submitter.channel = [])) = true
  | .refuse => state.submission.all (fun submitter =>
    submitter.sent = [] && submitter.answers = [] && submitter.channel = []) = true
  | _ => True

instance (state : State) : ∀ move, Decidable (state.Apart move)
  | .request => inferInstanceAs
      (Decidable (if state.submits then state.mainly = [] else state.anonymously = []))
  | .drop _ | .refuse => inferInstanceAs (Decidable (_ = true))
  | .published _ | .timeout _ | .write | .connect | .answerAnonymous _ | .answerMain _ | .read
  | .event | .gone | .readMain => inferInstanceAs (Decidable True)

/-- What the anonymous connection holds: answers the relay gave, and nothing but events
once its task has ended. -/
structure Submitter.Sound (submitter : Submitter) (verdicts : List Verdict) : Prop where
  ended : submitter.running = false →
    submitter.channel = [] ∧ submitter.sent = [] ∧ submitter.answers = []
  answers : ∀ verdict ∈ submitter.answers, verdict ∈ verdicts
  events : ∀ verdict, SubmitEvent.group verdict ∈ submitter.events → verdict ∈ verdicts

theorem Submitter.Sound.mono {submitter : Submitter} (sound : submitter.Sound verdicts)
    (grown : verdicts ⊆ more) :
    submitter.Sound more :=
  ⟨sound.ended, fun _ mem => grown (sound.answers _ mem),
    fun _ mem => grown (sound.events _ mem)⟩

/-- The queue of callers is the unanswered requests in the order their answers come in,
and every answer handed out went to its caller. -/
structure State.Paired (state : State) : Prop where
  early : state.published = false → state.submission = none
  apart : state.anonymously = [] ∨ state.mainly = []
  queue : state.queue = state.anonymously ++ state.mainly
  submitter : ∀ submitter, state.submission = some submitter → submitter.Sound state.verdicts
  answers : ∀ verdict ∈ state.answers, verdict ∈ state.verdicts
  handed : ∀ handOut ∈ state.handOuts,
    handOut.verdict.caller = handOut.caller ∧ handOut.verdict ∈ state.verdicts

namespace State.Paired

variable {state : State}

theorem start : Answers.start.Paired where
  early _ := rfl
  apart := .inl rfl
  queue := rfl
  submitter := nofun
  answers := nofun
  handed := nofun

theorem submitting (paired : state.Paired) {submitter after : Submitter}
    (current : state.submission = some submitter) (same : after.unanswered = submitter.unanswered)
    (sound : after.Sound state.verdicts) :
    (state.submitting after).Paired := by
  have kept : (state.submitting after).anonymously = state.anonymously := by
    simp [State.submitting, State.anonymously, current, same]
  refine ⟨fun unpublished => ?_, ?_, ?_, fun other found => ?_, paired.answers, paired.handed⟩
  · exact absurd (paired.early unpublished) (by simp [current])
  · rw [kept]
    exact paired.apart
  · rw [kept]
    exact paired.queue
  cases found
  exact sound

theorem handOut {before : State} {verdict : Verdict}
    (early : before.published = false → before.submission = none)
    (apart : before.anonymously = [] ∨ before.mainly = [])
    (queue : before.queue = verdict.caller :: (before.anonymously ++ before.mainly))
    (sound : ∀ submitter, before.submission = some submitter → submitter.Sound before.verdicts)
    (answers : ∀ verdict ∈ before.answers, verdict ∈ before.verdicts)
    (handed : ∀ handOut ∈ before.handOuts,
      handOut.verdict.caller = handOut.caller ∧ handOut.verdict ∈ before.verdicts)
    (recorded : verdict ∈ before.verdicts) :
    (before.answerSequencer verdict).Paired := by
  unfold State.answerSequencer
  rw [queue]
  refine ⟨early, apart, rfl, sound, answers, fun handOut mem => ?_⟩
  rcases mem_append.mp mem with earlier | new
  · exact handed handOut earlier
  obtain rfl := mem_singleton.mp new
  exact ⟨rfl, recorded⟩

variable (paired : state.Paired)
include paired

theorem sendMain {submission : Option Submitter}
    (kept : submission = none ∨ submission = state.submission) (nothing : state.anonymously = []) :
    (state.sendMain submission).Paired := by
  have empty : (state.sendMain submission).anonymously = [] := by
    rcases kept with rfl | rfl
    · rfl
    · exact nothing
  refine ⟨fun unpublished => ?_, .inl empty, ?_, fun submitter found => ?_, paired.answers,
    paired.handed⟩
  · rcases kept with rfl | rfl
    · rfl
    · exact paired.early unpublished
  · rw [empty]
    show state.queue ++ [state.issued] = _
    rw [paired.queue, nothing]
    simp [State.mainly, State.sendMain]
  rcases kept with rfl | rfl
  · cases found
  · exact paired.submitter submitter found

theorem request (apart : state.Apart .request) : state.request.Paired := by
  unfold State.Apart State.submits at apart
  unfold State.request
  split
  next offline =>
    refine paired.sendMain (.inl rfl) ?_
    simp [State.anonymously, offline]
  next submitter current =>
    simp only [current, any_some] at apart
    have sound := paired.submitter submitter current
    split
    next up =>
      split
      next running =>
        simp only [up, running, Bool.and_self, if_true] at apart
        have grown : (state.sendAnonymous submitter).anonymously =
            state.anonymously ++ [state.issued] := by
          simp [State.anonymously, State.sendAnonymous, current, Submitter.unanswered]
        refine ⟨fun unpublished => ?_, .inr apart, ?_, fun other found => ?_,
          paired.answers, paired.handed⟩
        · exact absurd (paired.early unpublished) (by simp [current])
        · rw [grown]
          show state.queue ++ [state.issued] = _ ++ state.mainly
          rw [paired.queue, apart]
          simp
        cases found
        refine ⟨fun stopped => ?_, sound.answers, sound.events⟩
        exact absurd (running.symm.trans stopped) (by simp)
      next stopped =>
        simp only [up, stopped, Bool.and_false, Bool.false_eq_true, if_false] at apart
        exact paired.sendMain (.inl rfl) apart
    next off =>
      simp only [off, Bool.false_and, Bool.false_eq_true, if_false] at apart
      exact paired.sendMain (.inr current.symm) apart

theorem answered (verdict : Verdict) : (state.answered verdict).Paired := by
  have grown : state.verdicts ⊆ state.verdicts ++ [verdict] := by simp
  refine ⟨paired.early, paired.apart, paired.queue, fun submitter found => ?_,
    fun other mem => grown (paired.answers other mem), fun handOut mem => ?_⟩
  · exact (paired.submitter submitter found).mono grown
  · exact ⟨(paired.handed handOut mem).1, grown (paired.handed handOut mem).2⟩

/-- Everything that happens on the anonymous connection keeps the pairing. -/
theorem anonymous {submitter : Submitter} (current : state.submission = some submitter)
    (apart : state.Apart move) {after : State}
    (happened : state.anonymous submitter move = some after) : after.Paired := by
  have sound := paired.submitter submitter current
  obtain ⟨ended, answers, events⟩ := sound
  cases move with
  | write =>
    obtain ⟨caller, rest, waiting, rfl⟩ : ∃ caller rest, submitter.channel = caller :: rest ∧
        after = state.submitting
          { submitter with channel := rest, sent := submitter.sent ++ [caller] } := by
      grind [State.anonymous]
    refine paired.submitting current (by simp [Submitter.unanswered, waiting])
      ⟨fun stopped => ?_, answers, events⟩
    cases waiting.symm.trans (ended stopped).1
  | drop =>
    simp only [State.Apart, current, all_some, Bool.and_eq_true, decide_eq_true_eq,
      Bool.or_eq_true, Bool.not_eq_true'] at apart
    obtain rfl : after = state.submitting
        { submitter with
          connected := false
          channel := submitter.channel
          sent := []
          answers := []
          events := submitter.events ++ [.down] } := by
      grind [State.anonymous]
    refine paired.submitting current ?_ ⟨fun stopped => ⟨(ended stopped).1, rfl, rfl⟩, nofun, ?_⟩
    · simp [Submitter.unanswered, apart, SubmitEvent.caller]
    · simpa using events
  | connect =>
    obtain rfl : after = state.submitting
        { submitter with connected := true, events := submitter.events ++ [.ready] } := by
      grind [State.anonymous]
    refine paired.submitting current ?_ ⟨ended, answers, by simpa using events⟩
    simp [Submitter.unanswered, SubmitEvent.caller]
  | refuse =>
    simp only [State.Apart, current, all_some, Bool.and_eq_true, decide_eq_true_eq] at apart
    obtain rfl : after = state.submitting
        { submitter with
          running := false
          connected := false
          channel := []
          sent := []
          answers := [] } := by
      grind [State.anonymous]
    refine paired.submitting current ?_ ⟨fun _ => ⟨rfl, rfl, rfl⟩, nofun, events⟩
    simp [Submitter.unanswered, apart]
  | answerAnonymous frame =>
    obtain ⟨caller, rest, waiting, rfl⟩ : ∃ caller rest, submitter.sent = caller :: rest ∧
        after = (state.answered ⟨caller, frame⟩).submitting
          { submitter with sent := rest, answers := submitter.answers ++ [⟨caller, frame⟩] } := by
      grind [State.anonymous]
    refine (paired.answered ⟨caller, frame⟩).submitting current
      (by simp [Submitter.unanswered, waiting]) ⟨fun stopped => ?_, ?_, ?_⟩
    · cases waiting.symm.trans (ended stopped).2.1
    · exact forall_mem_append.mpr ⟨fun verdict mem => mem_append_left _ (answers verdict mem),
        fun verdict mem => mem_append_right _ mem⟩
    · exact fun verdict mem => mem_append_left _ (events verdict mem)
  | read =>
    obtain ⟨verdict, rest, waiting, rfl⟩ : ∃ verdict rest, submitter.answers = verdict :: rest ∧
        after = state.submitting
          { submitter with answers := rest, events := submitter.events ++ [.group verdict] } := by
      grind [State.anonymous]
    rw [waiting, forall_mem_cons] at answers
    refine paired.submitting current (by simp [Submitter.unanswered, waiting, SubmitEvent.caller])
      ⟨fun stopped => ?_, answers.2, fun other mem => ?_⟩
    · cases waiting.symm.trans (ended stopped).2.2
    rcases mem_append.mp mem with earlier | new
    · exact events other earlier
    obtain rfl := SubmitEvent.group.inj (mem_singleton.mp new)
    exact answers.1
  | event =>
    cases queued : submitter.events with
    | nil => simp [State.anonymous, queued] at happened
    | cons event rest =>
      rw [queued] at events
      have later : ∀ verdict, SubmitEvent.group verdict ∈ rest → verdict ∈ state.verdicts :=
        fun verdict mem => events verdict (.tail _ mem)
      cases event with
      | ready | down =>
        simp only [State.anonymous, queued, some.injEq] at happened
        subst happened
        refine paired.submitting current ?_ ⟨ended, answers, later⟩
        simp [Submitter.unanswered, queued, filterMap_cons, SubmitEvent.caller]
      | group verdict =>
        simp only [State.anonymous, queued, some.injEq] at happened
        subst happened
        have first : state.anonymously = verdict.caller ::
            (state.submitting { submitter with events := rest }).anonymously := by
          simp [State.anonymously, State.submitting, current, Submitter.unanswered, queued,
            SubmitEvent.caller]
        have quiet : state.mainly = [] := by simpa [first] using paired.apart
        refine handOut ?_ (.inr quiet) ?_ ?_ paired.answers paired.handed
          (events verdict (.head _))
        · exact fun unpublished => absurd (paired.early unpublished) (by simp [current])
        · show state.queue = _ :: (_ ++ state.mainly)
          rw [paired.queue, first, cons_append]
        rintro _ ⟨⟩
        exact ⟨ended, answers, later⟩
  | gone =>
    obtain ⟨finished, done, rfl⟩ : submitter.running = false ∧ submitter.events = [] ∧
        after = { state with submission := none } := by
      grind [State.anonymous]
    have queue := paired.queue
    simp only [State.anonymously, current, map_some, getD_some,
      Submitter.unanswered, done, ended finished] at queue
    exact ⟨fun _ => rfl, .inl rfl, queue, nofun, paired.answers, paired.handed⟩
  | published | request | timeout caller | answerMain frame | readMain => cases happened

/-- One step keeps the pairing where the connections are kept apart. -/
theorem step {move : Move} (apart : state.Apart move) {after : State}
    (ran : state.step move = some after) : after.Paired := by
  have elsewhere : (state.submission.bind fun submitter =>
      state.anonymous submitter move) = some after → after.Paired := by
    intro happened
    obtain ⟨submitter, current, changed⟩ := bind_eq_some_iff.mp happened
    exact paired.anonymous current apart changed
  cases move with
  | published offered =>
    simp only [State.step] at ran
    split at ran
    · cases ran
    next unpublished =>
      have offline := paired.early (by simpa using unpublished)
      cases ran
      have before : state.anonymously = [] := by simp [State.anonymously, offline]
      have empty : (state.takenBundle offered).anonymously = [] := by
        cases offered <;> rfl
      show (state.takenBundle offered).Paired
      refine ⟨fun early => ?_, .inl empty, ?_, fun submitter found => ?_, paired.answers,
        paired.handed⟩
      · cases early
      · rw [empty]
        show state.queue = [] ++ state.mainly
        rw [paired.queue, before]
      cases offered with
      | false => cases found
      | true =>
        cases found
        refine ⟨fun _ => ⟨rfl, rfl, rfl⟩, ?_, ?_⟩
        · exact nofun
        · exact nofun
  | request =>
    cases ran
    exact paired.request apart
  | timeout caller =>
    cases ran
    exact { paired with }
  | answerMain frame =>
    simp only [State.step] at ran
    split at ran
    next caller rest waiting =>
      cases ran
      have more := paired.answered ⟨caller, frame⟩
      let verdict : Verdict := ⟨caller, frame⟩
      have same : (state.answers ++ [verdict]).map Verdict.caller ++ rest = state.mainly := by
        simp [verdict, State.mainly, waiting]
      refine ⟨more.early, ?_, ?_, more.submitter, fun verdict mem => ?_, more.handed⟩
      · show _ ∨ (_ ++ _ = [])
        rw [same]
        exact paired.apart
      · show state.queue = state.anonymously ++ (_ ++ _)
        rw [same]
        exact paired.queue
      rcases mem_append.mp mem with earlier | new
      · exact more.answers verdict earlier
      · exact mem_append.mpr (.inr new)
    · cases ran
  | readMain =>
    simp only [State.step] at ran
    split at ran
    next verdict rest waiting =>
      cases ran
      have first : state.mainly =
          verdict.caller :: ({ state with answers := rest } : State).mainly := by
        simp [State.mainly, waiting]
      have quiet : state.anonymously = [] := by
        rcases paired.apart with empty | empty
        · exact empty
        · cases first.symm.trans empty
      refine handOut paired.early (.inl quiet) ?_ paired.submitter
        (fun other mem => ?_) paired.handed ?_
      · show state.queue = _ :: (state.anonymously ++ _)
        rw [paired.queue, first, quiet]
        rfl
      · exact paired.answers other (by rw [waiting]; exact .tail _ mem)
      · exact paired.answers verdict (by rw [waiting]; exact .head _)
    · cases ran
  | write | drop | connect | refuse | answerAnonymous frame | read | event | gone =>
    exact elsewhere ran

end State.Paired

/-- Over a session that keeps the connections apart and loses no request, every answer
handed out is the relay's answer to the caller's own frame; a caller told that its
request stands had it accepted. -/
theorem answers_reach_their_callers
    {moves : List Move} {final : State} (each : EachState State.step State.Apart start moves)
    (ended : run State.step start moves = some final) :
    ∀ handOut ∈ final.handOuts,
      handOut.verdict.caller = handOut.caller ∧ handOut.verdict ∈ final.verdicts ∧
      ∀ epoch, handOut.told = some (.stands epoch) →
        ⟨handOut.caller, .groupState epoch⟩ ∈ final.verdicts := by
  have preserve : ∀ move state next, State.Paired state → State.Apart state move →
      State.step state move = some next → State.Paired next :=
    fun _ _ _ paired apart stepped => paired.step apart stepped
  have paired := EachState.run_keeps each State.Paired.start preserve ended
  intro handOut member
  obtain ⟨own, recorded⟩ := paired.handed handOut member
  refine ⟨own, recorded, fun epoch told => ?_⟩
  unfold HandOut.told at told
  split at told
  · have accepted := SequencerFrame.answer_stands (some.inj told)
    rw [← own, ← accepted]
    exact recorded
  · cases told

def errands : List Move :=
  [.request, .answerMain (.groupState 1), .published true, .readMain, .connect, .event,
    .request, .request, .write, .write, .answerAnonymous (.groupState 2), .read,
    .timeout 2, .answerAnonymous (.groupRejected .stale (some 2)), .event, .read, .event,
    .drop false, .event, .request, .answerMain (.groupState 3), .readMain]

theorem errands_answered : (run State.step start errands).any (fun final =>
      final.handOuts.map HandOut.told =
        [some (.stands 1), some (.stands 2), none, some (.stands 3)]) = true ∧
    ∀ final, run State.step start errands = some final → ∀ handOut ∈ final.handOuts,
        handOut.verdict.caller = handOut.caller ∧ handOut.verdict ∈ final.verdicts ∧
        ∀ epoch, handOut.told = some (.stands epoch) →
          ⟨handOut.caller, .groupState epoch⟩ ∈ final.verdicts :=
  ⟨by decide +kernel, fun _ ended => answers_reach_their_callers (by decide +kernel) ended⟩

/-- A request lost with the anonymous connection keeps its caller in front: the next
answer goes to nobody, and the one after it to a caller whose request was refused. -/
theorem answer_to_another_caller : (run State.step start
      [.published true, .connect, .event, .request, .write, .drop false, .event, .timeout 0,
        .connect, .event, .request, .write, .request, .write,
        .answerAnonymous (.groupRejected .stale (some 4)), .read, .event,
        .answerAnonymous (.groupState 5), .read, .event]).any (fun final =>
        final.verdicts = [⟨1, .groupRejected .stale (some 4)⟩, ⟨2, .groupState 5⟩] &&
        final.handOuts.map (fun handOut => (handOut.caller, handOut.told)) =
          [(0, none), (1, some (.stands 5))]) = true := by
  decide +kernel

end Silver.Client.Connection.Answers
