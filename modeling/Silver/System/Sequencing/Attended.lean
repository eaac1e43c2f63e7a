import Silver.System.Sequencing.Levels

/-!
# The sequencer and its members

Where the entry of a group has moved on, a member has followed it, or holds the commit
that moved it and the answer is on its way: in every run in which no accepted answer is
lost, no request is accepted for a client that has stopped waiting, a change is staged only
while nothing else is unanswered, and who gives up the group leaves another as far as the
relay.
-/

namespace Silver.System.Sequencing

open Foundation Relay Table Request Pair
open State (relay_react relay get_react setClient get_setClient issue)
open Option (map_some all_some getD_some)
open List hiding after

def Request.stands (request : Request) : Bool :=
  match request.answer with
  | some (.stands _) => true
  | _ => false

def State.awaits (state : State) (number : Nat) (commit : Commit) : Bool :=
  (range state.issued).any fun waiting =>
    (state.requests.get waiting).any fun request =>
      request.client = number && request.waiting && request.origin = some commit && request.stands

def State.reaches (state : State) (number : Nat) : Bool :=
  (state.clients.get number).any fun client =>
    client.standing ≠ .out &&
      (state.front <= client.epoch ||
        client.staged.any fun commit =>
          commit.epoch + 1 = state.front && state.awaits number commit)

def Spared (state : State) (number : Nat) : Prop :=
  state.past = [] ∨ ∃ other < state.seats, other ≠ number ∧ state.reaches other = true

instance (state : State) (number : Nat) : Decidable (Spared state number) :=
  inferInstanceAs (Decidable (_ ∨ _))

def State.expects (state : State) (request : Request) : Bool :=
  request.waiting &&
    (state.clients.get request.client).any fun client =>
      client.standing ≠ .out &&
        request.origin.all fun commit => client.staged = some commit || commit.epoch < client.epoch

/-- Nothing is lost between the relay's word and the client's. -/
def Attentive (schedule : Schedule) (state : State) : Move -> Prop
  | .stage client _ => ∀ number < state.issued,
      (state.requests.get number).all fun request => request.client ≠ client || !request.waiting
  | .handle number nowMs =>
    (state.requests.get number).all fun request =>
      match (state.sequence schedule request.frame nowMs).1 with
      | .stands _ => state.expects request
      | _ => true
  | .fail number => (state.requests.get number).all fun request => !request.stands
  | .crash client => ∀ number < state.issued, (state.requests.get number).all fun request =>
        request.client ≠ client || !request.waiting || !request.stands
  | .receive client _ removed => removed = true -> Spared state client
  | .join client _ => state.clients.get client = none ∨ Spared state client
  | .leave client => Spared state client
  | _ => True

instance (schedule : Schedule) (state : State) : ∀ move, Decidable (Attentive schedule state move)
  | .stage _ _ | .crash _ => inferInstanceAs (Decidable (∀ number < state.issued, _))
  | .handle _ _ | .fail _ => inferInstanceAs (Decidable (_ = true))
  | .receive _ _ _ => inferInstanceAs (Decidable (_ = true -> _))
  | .join _ _ => inferInstanceAs (Decidable (_ ∨ _))
  | .leave _ => inferInstanceAs (Decidable (Spared _ _))
  | .refuse _ | .answer _ | .turn _ _ | .lose | .restore _ => inferInstanceAs (Decidable True)

/-- A client with a commit staged waits for one answer. -/
structure Lone (state : State) : Prop where
  one : ∀ {number client commit first second firstRequest secondRequest},
    state.clients.get number = some client -> client.staged = some commit ->
    state.requests.get first = some firstRequest -> state.requests.get second = some secondRequest ->
    firstRequest.client = number -> secondRequest.client = number ->
    firstRequest.waiting = true -> secondRequest.waiting = true -> first = second

/-- A group on which the relay has not been heard yet: there is its creator and the one
request. -/
structure Founding (state : State) (number creator : Nat) : Prop where
  past : state.past = []
  published : state.published = []
  only : ∀ {other request}, state.requests.get other = some request -> other = number
  alone : ∀ {other client}, state.clients.get other = some client -> other = creator

/-- What holds along a run in which nothing is lost. -/
structure Attended (state : State) : Prop where
  lone : Lone state
  founding : ∀ {number request}, state.requests.get number = some request ->
    request.waiting = true -> request.purpose = .create ->
    request.stands = true ∨ Founding state number request.client
  reached : state.past ≠ [] -> ∃ number, state.reaches number = true

section Reaching

variable {state after : State}

theorem Request.stands_iff {request : Request} :
    request.stands = true ↔ ∃ epoch, request.answer = some (.stands epoch) := by
  unfold stands
  split
  next epoch same => exact ⟨fun _ => ⟨epoch, same⟩, fun _ => rfl⟩
  next other =>
    constructor
    · exact nofun
    rintro ⟨epoch, same⟩
    exact absurd same (other epoch)

theorem State.awaits_iff : state.awaits number commit = true ↔ ∃ waiting < state.issued, ∃ request,
      state.requests.get waiting = some request ∧ request.client = number ∧
        request.waiting = true ∧ request.origin = some commit ∧ request.stands = true := by
  simp [State.awaits, Option.any_eq_true, and_assoc]

theorem State.reaches_iff :
    state.reaches number = true ↔ ∃ client, state.clients.get number = some client ∧
      client.standing ≠ .out ∧ (state.front <= client.epoch ∨
        ∃ commit, client.staged = some commit ∧ commit.epoch + 1 = state.front ∧
          state.awaits number commit = true) := by
  simp [State.reaches, Option.any_eq_true]

theorem State.awaits_mono
    (awaits : state.awaits number commit = true) (issued : state.issued <= after.issued)
    (requests : ∀ {waiting request}, waiting < state.issued ->
      state.requests.get waiting = some request ->
      request.client = number -> request.waiting = true -> request.stands = true ->
      after.requests.get waiting = some request) :
    after.awaits number commit = true := by
  obtain ⟨waiting, before, request, found, client, waits, origin, stands⟩ := awaits_iff.mp awaits
  exact awaits_iff.mpr ⟨waiting, before.trans_le issued, request,
    requests before found client waits stands, client, waits, origin, stands⟩

theorem State.reaches_mono
    (reaches : state.reaches number = true) (front : after.front = state.front)
    (client : ∀ {client}, state.clients.get number = some client -> client.standing ≠ .out ->
      ∃ next, after.clients.get number = some next ∧ next.standing ≠ .out ∧
        client.epoch <= next.epoch ∧ ∀ {commit}, client.staged = some commit ->
          state.awaits number commit = true ->
          (next.staged = some commit ∧ after.awaits number commit = true) ∨
            commit.epoch < next.epoch) :
    after.reaches number = true := by
  obtain ⟨_, has, inGroup, far⟩ := reaches_iff.mp reaches
  obtain ⟨next, hasNext, inGroupNext, further, keeps⟩ := client has inGroup
  refine reaches_iff.mpr ⟨next, hasNext, inGroupNext, ?_⟩
  rw [front]
  rcases far with reached | ⟨commit, staged, leads, awaits⟩
  · exact .inl (reached.trans further)
  rcases keeps staged awaits with ⟨stagedNext, awaitsNext⟩ | past
  · exact .inr ⟨commit, stagedNext, leads, awaitsNext⟩
  · exact .inl (leads ▸ past)

end Reaching

namespace Lone

theorem mono (lone : Lone state)
    (clients : ∀ {number client commit}, after.clients.get number = some client ->
      client.staged = some commit ->
      ∃ before, state.clients.get number = some before ∧ before.staged = some commit)
    (requests : ∀ {number request}, after.requests.get number = some request ->
      ∃ before, state.requests.get number = some before ∧ request.client = before.client ∧
        (request.waiting = true -> before.waiting = true)) :
    Lone after := by
  constructor
  intro number client commit _ _ _ _ has staged firstFound
    secondFound firstClient secondClient firstWaits secondWaits
  obtain ⟨before, hasBefore, stagedBefore⟩ := clients has staged
  obtain ⟨_, firstFoundBefore, firstSame, firstWaited⟩ := requests firstFound
  obtain ⟨_, secondFoundBefore, secondSame, secondWaited⟩ := requests secondFound
  exact lone.one hasBefore stagedBefore firstFoundBefore secondFoundBefore
    (firstSame.symm.trans firstClient) (secondSame.symm.trans secondClient)
    (firstWaited firstWaits) (secondWaited secondWaits)

theorem issueAll (lone : Lone state)
    (nothingStaged : frames ≠ [] -> ∀ {client}, state.clients.get number = some client ->
      client.staged = none) :
    Lone (state.issueAll number frames) := by
  constructor
  intro other client _ _ _ _ _ has staged firstFound
    secondFound firstClient secondClient firstWaits secondWaits
  rw [State.clients_issueAll] at has
  have notNew : frames ≠ [] -> other ≠ number := by
    rintro sends rfl
    rw [nothingStaged sends has] at staged
    cases staged
  have earlier : ∀ {place request}, (state.issueAll number frames).requests.get place = some request ->
      request.client = other -> state.requests.get place = some request := by
    intro place request found isClient
    rcases State.get_issueAll found with before | ⟨sends, sender, -⟩
    · exact before
    · exact absurd (isClient.symm.trans sender) (notNew sends)
  exact lone.one has staged (earlier firstFound firstClient) (earlier secondFound secondClient)
    firstClient secondClient firstWaits secondWaits

end Lone

theorem State.reaches_react {state : State}
    (reaches : state.reaches other = true) (apart : other ≠ number) :
    (state.react number reaction).reaches other = true := by
  apply State.reaches_mono reaches
  · have unchanged : (state.react number reaction).relay = state.relay :=
      relay_react number reaction
    simp only [relay, Prod.mk.injEq] at unchanged
    exact unchanged.2.2.1
  intro client has inGroup
  refine ⟨client, ?_, inGroup, .refl, ?_⟩
  · rw [get_react, if_neg apart]
    exact has
  intro _ staged awaits
  refine .inl ⟨staged, State.awaits_mono awaits (State.issued_react _ _) ?_⟩
  intro _ _ before found _ _ _
  exact (State.get_react_of_lt before).trans found

/-- What a client can make of an answer. -/
inductive Reacts (schedule : Schedule) (purpose : Purpose) (answer : Except String SequencerAnswer) :
    Option Client -> Reaction -> Prop
  | absent : Reacts schedule purpose answer none { client := none, frames := [], merged := none }
  | stays {client : Client} {epoch : Nat} (stands : answer = .ok (.stands epoch))
      (idle : purpose = .create ∨ client.staged = none) :
      Reacts schedule purpose answer (some client)
        { client := some client, frames := [], merged := none }
  | abandons {client : Client} (created : purpose = .create)
      (refused : ∀ epoch, answer ≠ .ok (.stands epoch)) :
      Reacts schedule purpose answer (some client) { client := none, frames := [], merged := none }
  | merges {client : Client} {epoch : Nat} {commit : Commit}
      (notCreate : purpose ≠ .create)
      (stands : answer = .ok (.stands epoch)) (staged : client.staged = some commit) :
      Reacts schedule purpose answer (some client)
        { client := some (client.merge schedule commit), frames := [], merged := some commit }
  | discards {client : Client} {frames : List Frame} (notCreate : purpose ≠ .create)
      (refused : ∀ epoch, answer ≠ .ok (.stands epoch)) :
      Reacts schedule purpose answer (some client)
        { client := some client.discardStaged, frames := frames, merged := none }

theorem onGroupSequenced_reacts (schedule : Schedule) (before : Option Client) (purpose : Purpose)
    (answer : Except String SequencerAnswer) :
    Reacts schedule purpose answer before (onGroupSequenced schedule before purpose answer) := by
  unfold onGroupSequenced
  split
  · exact .absent
  next =>
    split
    · exact .stays rfl (.inl rfl)
    next refused => exact .abandons rfl refused
    next notCreate =>
      unfold Client.commitStaged
      split
      next nothing => exact .stays rfl (.inr nothing)
      next staged => exact .merges notCreate rfl staged
    next notCreate => exact .discards notCreate nofun
    next notCreate => exact .discards notCreate nofun
    next notCreate refused _ _ _ => exact .discards notCreate refused

namespace Attended

variable {schedule : Schedule} {state after : State}

theorem withClient (attended : Attended state) {next : Client}
    (staged : ∀ {commit}, next.staged = some commit ->
      ∃ client, state.clients.get number = some client ∧ client.staged = some commit)
    (known : (∃ client, state.clients.get number = some client) ∨ state.published ≠ [])
    (reached : state.past ≠ [] -> (∃ other ≠ number, state.reaches other = true) ∨
      ({ state with clients := state.clients.insert number next, merged := merged } : State).reaches
        number = true) :
    Attended { state with clients := state.clients.insert number next, merged := merged } where
  lone := by
    apply attended.lone.mono
    · intro other client commit has isStaged
      rcases get_insert_eq_some has with ⟨same, rfl⟩ | ⟨-, has⟩
      · exact same ▸ staged isStaged
      · exact ⟨client, has, isStaged⟩
    intro other request found
    exact ⟨request, found, rfl, id⟩
  founding := by
    intro other request found waits isCreate
    rcases attended.founding found waits isCreate with stands | founding
    · exact .inl stands
    refine .inr { founding with alone := ?_ }
    intro _ client has
    rcases get_insert_eq_some has with ⟨same, _⟩ | ⟨-, has⟩
    · rcases known with ⟨_, hasBefore⟩ | told
      · exact founding.alone (same ▸ hasBefore)
      · exact absurd founding.published told
    · exact founding.alone has
  reached := by
    intro begun
    rcases reached begun with ⟨other, apart, reaches⟩ | here
    · refine ⟨other, State.reaches_mono reaches rfl ?_⟩
      intro client has inGroup
      refine ⟨client, (get_insert_of_ne apart).trans has, inGroup, .refl, ?_⟩
      intro commit isStaged awaits
      exact .inl ⟨isStaged, awaits⟩
    · exact ⟨number, here⟩

theorem spared (spared : Spared state number) (begun : state.past ≠ []) :
    ∃ other ≠ number, state.reaches other = true := by
  rcases spared with nothing | ⟨other, -, apart, reaches⟩
  · exact absurd nothing begun
  · exact ⟨other, apart, reaches⟩

section

variable (attended : Attended state)
include attended

theorem leave (attentive : Attentive schedule state (.leave number))
    (left : state.leave number = some after) : Attended after := by
  obtain ⟨client, has, rfl⟩ := State.leave_eq_some left
  apply attended.withClient
  · exact nofun
  · exact .inl ⟨client, has⟩
  · exact fun begun => .inl (spared attentive begun)

theorem turn {active : Bool} (turned : state.turn number active = some after) : Attended after := by
  obtain ⟨client, has, _, rfl⟩ := State.turn_eq_some turned
  apply attended.withClient
  · exact fun isStaged => ⟨client, has, isStaged⟩
  · exact .inl ⟨client, has⟩
  intro begun
  obtain ⟨other, reaches⟩ := attended.reached begun
  by_cases same : other = number
  · subst same
    refine .inr (State.reaches_mono reaches rfl ?_)
    intro _ hasCurrent _
    cases has.symm.trans hasCurrent
    refine ⟨_, get_insert_self _ _ _, ?_, .refl, ?_⟩
    · cases active <;> exact nofun
    · exact fun isStaged awaits => .inl ⟨isStaged, awaits⟩
  · exact .inl ⟨other, same, reaches⟩

theorem join (attentive : Attentive schedule state (.join number index))
    (joined : state.join schedule number index = some after) : Attended after := by
  obtain ⟨_, listed, -, rfl⟩ := State.join_eq_some joined
  apply attended.withClient
  · exact nofun
  · refine .inr fun nothing => ?_
    rw [nothing] at listed
    cases listed
  intro begun
  rcases attentive with absent | isSpared
  · obtain ⟨other, reaches⟩ := attended.reached begun
    refine .inl ⟨other, ?_, reaches⟩
    rintro rfl
    obtain ⟨_, has, -⟩ := State.reaches_iff.mp reaches
    rw [absent] at has
    cases has
  · exact .inl (spared isSpared begun)

section

variable (levels : Levels state)
include levels

theorem receive (attentive : Attentive schedule state (.receive number index removed))
    (received : state.receive schedule number index removed = some after) : Attended after := by
  obtain ⟨client, commit, has, _, _, rfl⟩ := State.receive_eq_some received
  apply attended.withClient
  · intro other impossible
    cases removed <;> cases impossible
  · exact .inl ⟨client, has⟩
  intro begun
  cases removed with
  | true => exact .inl (spared (attentive rfl) begun)
  | false =>
    obtain ⟨other, reaches⟩ := attended.reached begun
    by_cases same : other = number
    · subst same
      refine .inr (State.reaches_mono reaches rfl ?_)
      intro _ hasCurrent inGroup
      cases has.symm.trans hasCurrent
      refine ⟨_, get_insert_self _ _ _, inGroup, Nat.le_succ _, ?_⟩
      intro staged isStaged _
      -- The commit received takes the place of the one staged.
      have built := (levels.clients has).staged isStaged
      refine .inr ?_
      unfold Commit.epoch
      rw [built]
      exact Nat.lt_succ_self _
    · exact .inl ⟨other, same, reaches⟩

section

variable {answer : Except String SequencerAnswer} {requests : Table Nat Request}
  (found : state.requests.get number = some request) (waits : request.waiting = true)
  (others : ∀ {other}, other ≠ number -> requests.get other = state.requests.get other)
  (answered : request.stands = true -> ∃ epoch, answer = .ok (.stands epoch))
include found waits others answered

theorem reaches_own (begun : state.past ≠ [])
    (reacts : Reacts schedule request.purpose answer (state.clients.get request.client) reaction)
    (reaches : state.reaches request.client = true) :
    ({ state with requests := requests }.react request.client reaction).reaches request.client =
      true := by
  have here : ∀ {next}, reaction.client = some next ->
      ({ state with requests := requests }.react request.client reaction).clients.get
        request.client = some next := by
    intro next isNext
    rw [get_react, if_pos rfl]
    exact isNext
  apply State.reaches_mono reaches
  · have unchanged : ({ state with requests := requests }.react request.client reaction).relay =
        state.relay := relay_react _ _
    simp only [relay, Prod.mk.injEq] at unchanged
    exact unchanged.2.2.1
  intro client has inGroup
  rw [has] at reacts
  cases reacts with
  | stays stands idle =>
    refine ⟨client, here rfl, inGroup, .refl, ?_⟩
    intro commit staged awaits
    rcases idle with isCreate | nothing
    · refine .inl ⟨staged, ?_⟩
      obtain ⟨waiting, before, current, foundHere, isClient, waitsHere, origin, accepted⟩ :=
        State.awaits_iff.mp awaits
      have apart : waiting ≠ number := by
        rintro rfl
        cases found.symm.trans foundHere
        exact (levels.requests found).change origin isCreate
      exact State.awaits_iff.mpr ⟨waiting, before, current, (others apart).trans foundHere,
        isClient, waitsHere, origin, accepted⟩
    rw [nothing] at staged
    cases staged
  | abandons isCreate refused =>
    rcases attended.founding found waits isCreate with stands | founding
    · obtain ⟨epoch, same⟩ := answered stands
      exact absurd same (refused epoch)
    · exact absurd founding.past begun
  | merges =>
    refine ⟨_, here rfl, inGroup, Nat.le_succ _, ?_⟩
    intro commit staged _
    refine .inr ?_
    unfold Commit.epoch
    rw [(levels.clients has).staged staged]
    exact Nat.lt_succ_self _
  | discards _ refused =>
    refine ⟨_, here rfl, inGroup, .refl, ?_⟩
    intro commit staged awaits
    -- The one answer the client waits for is that the relay accepted.
    obtain ⟨waiting, -, current, foundHere, isClient, waitsHere, -, accepted⟩ :=
      State.awaits_iff.mp awaits
    obtain rfl := attended.lone.one has staged foundHere found isClient rfl waitsHere waits
    cases found.symm.trans foundHere
    obtain ⟨epoch, same⟩ := answered accepted
    exact absurd same (refused epoch)

/-- A client's reaction to an answer, or to an error where the relay did not accept,
keeps somebody as far as the relay. -/
theorem react (done : ∀ {left}, requests.get number = some left ->
      left.client = request.client ∧ left.waiting = false) :
    Attended ({ state with requests := requests }.react request.client
      (onGroupSequenced schedule (state.clients.get request.client) request.purpose answer)) := by
  have earlier : ∀ {other current}, requests.get other = some current -> current.waiting = true ->
      other ≠ number ∧ state.requests.get other = some current := by
    intro other current foundHere waitsHere
    have apart : other ≠ number := by
      rintro rfl
      rw [(done foundHere).2] at waitsHere
      cases waitsHere
    exact ⟨apart, (others apart).symm.trans foundHere⟩
  constructor
  · unfold State.react
    apply Lone.issueAll
    · apply attended.lone.mono
      · intro other client commit has staged
        have here := has
        rw [get_setClient] at here
        split at here
        next same =>
          obtain ⟨before, -⟩ := onGroupSequenced_staged here staged
          exact ⟨client, same ▸ before, staged⟩
        next => exact ⟨client, here, staged⟩
      intro other current foundHere
      by_cases same : other = number
      · subst same
        obtain ⟨isClient, gaveUp⟩ := done foundHere
        refine ⟨request, found, isClient, fun impossible => ?_⟩
        rw [gaveUp] at impossible
        cases impossible
      · exact ⟨current, (others same).symm.trans foundHere, rfl, id⟩
    intro sends client has
    have here := has
    rw [get_setClient, if_pos rfl] at here
    cases staged : client.staged with
    | none => rfl
    | some commit => exact absurd (onGroupSequenced_staged here staged).2 sends
  · intro other current foundHere waitsHere isCreate
    rcases State.get_issueAll foundHere with before | ⟨-, -, isRefresh⟩
    · obtain ⟨apart, foundBefore⟩ := earlier before waitsHere
      rcases attended.founding foundBefore waitsHere isCreate with stands | founding
      · exact .inl stands
      · exact absurd (founding.only found).symm apart
    rw [isRefresh] at isCreate
    cases isCreate
  intro begunAfter
  have unchanged : ({ state with requests := requests }.react request.client
      (onGroupSequenced schedule (state.clients.get request.client) request.purpose
        answer)).relay = state.relay := relay_react _ _
  simp only [relay, Prod.mk.injEq] at unchanged
  have begun : state.past ≠ [] := unchanged.2.1 ▸ begunAfter
  obtain ⟨other, reaches⟩ := attended.reached begun
  by_cases same : other = request.client
  · subst same
    exact ⟨request.client, reaches_own attended levels found waits others answered begun
      (onGroupSequenced_reacts _ _ _ _) reaches⟩
  refine ⟨other, State.reaches_react (State.reaches_mono reaches rfl ?_) same⟩
  intro client has inGroup
  refine ⟨client, has, inGroup, .refl, ?_⟩
  intro commit staged awaits
  refine .inl ⟨staged, State.awaits_mono awaits .refl ?_⟩
  intro waiting current _ foundHere isClient _ _
  refine (others ?_).trans foundHere
  rintro rfl
  cases found.symm.trans foundHere
  exact same isClient.symm

end

theorem answer (answered : state.answer schedule number = some after) : Attended after := by
  obtain ⟨_, answer, found, given, waits, rfl⟩ := State.answer_eq_some answered
  apply attended.react levels found waits
  · exact get_remove_of_ne
  · intro stands
    obtain ⟨epoch, same⟩ := stands_iff.mp stands
    exact ⟨epoch, congrArg Except.ok (Option.some.inj (given.symm.trans same))⟩
  intro _ impossible
  rw [get_remove_self] at impossible
  cases impossible

theorem fail (attentive : Attentive schedule state (.fail number))
    (failed : state.fail schedule number = some after) : Attended after := by
  obtain ⟨_, found, waits, rfl⟩ := State.fail_eq_some failed
  apply attended.react levels found waits
  · exact get_insert_of_ne
  · intro stands
    simp [Attentive, found, stands] at attentive
  intro _ isLeft
  rw [get_insert_self] at isLeft
  cases isLeft
  exact ⟨rfl, rfl⟩

end

theorem crash (orderly : Orderly schedule state)
    (attentive : Attentive schedule state (.crash number))
    (crashed : state.crash number = some after) : Attended after := by
  obtain ⟨client, has, rfl⟩ := State.crash_eq_some crashed
  have given : ∀ {other request}, state.requests.get other = some request ->
      request.client = number -> request.waiting = true -> request.stands = false := by
    intro other request found isClient waits
    have allowed := attentive other (orderly.numbered found)
    rw [found] at allowed
    simpa [isClient, waits] using allowed
  have same : ∀ {other request}, state.requests.get other = some request -> request.client ≠ number ->
      (state.requests.map fun request =>
        if request.client = number then { request with waiting := false } else request).get
          other = some request := by
    intro other request found isOther
    rw [get_map, found, map_some, if_neg isOther]
  constructor
  · apply attended.lone.mono
    · intro other current commit hasCurrent staged
      rcases get_insert_eq_some hasCurrent with ⟨-, rfl⟩ | ⟨-, hasCurrent⟩
      · cases staged
      · exact ⟨current, hasCurrent, staged⟩
    intro other request found
    simp only [get_map] at found
    obtain ⟨before, foundBefore, rfl⟩ := Option.map_eq_some_iff.mp found
    refine ⟨before, foundBefore, ?_⟩
    split
    · exact ⟨rfl, nofun⟩
    · exact ⟨rfl, id⟩
  · intro other request found waits isCreate
    simp only [get_map] at found
    obtain ⟨before, foundBefore, rfl⟩ := Option.map_eq_some_iff.mp found
    split at waits
    · cases waits
    next isOther =>
      rw [if_neg isOther] at isCreate ⊢
      rcases attended.founding foundBefore waits isCreate with stands | founding
      · exact .inl stands
      · exact absurd (founding.alone has).symm isOther
  intro begun
  obtain ⟨other, reaches⟩ := attended.reached begun
  refine ⟨other, State.reaches_mono reaches rfl ?_⟩
  intro current hasCurrent inGroup
  by_cases isThis : other = number
  · subst isThis
    cases has.symm.trans hasCurrent
    refine ⟨_, get_insert_self _ _ _, inGroup, .refl, ?_⟩
    intro commit staged awaits
    obtain ⟨waiting, -, request, found, isClient, waits, -, stands⟩ := State.awaits_iff.mp awaits
    rw [given found isClient waits] at stands
    cases stands
  refine ⟨current, (get_insert_of_ne isThis).trans hasCurrent, inGroup, .refl, ?_⟩
  intro commit staged awaits
  refine .inl ⟨staged, State.awaits_mono awaits .refl ?_⟩
  intro waiting request _ found isClient _ _
  exact same found (isClient ▸ isThis)

theorem stage (orderly : Orderly schedule state)
    (attentive : Attentive schedule state (.stage number body))
    (staged : state.stage schedule number body = some after) : Attended after := by
  obtain ⟨client, has, ready, rfl⟩ := State.stage_eq_some staged
  have idle : ∀ {other request}, state.requests.get other = some request ->
      request.waiting = true -> request.client ≠ number := by
    intro other request found waits
    have allowed := attentive other (orderly.numbered found)
    rw [found] at allowed
    simpa [waits] using allowed
  have asked : ∀ {other request}, (issue (state.setClient number
      (some { client with staged := some { history := client.history, body := body } }))
        { client := number
          purpose := .change
          frame := .commit (Commit.staged schedule { history := client.history, body := body })
          origin := some { history := client.history, body := body }
          waiting := true
          answer := none }).requests.get other = some request ->
      other = state.issued ∧ request.client = number ∧ request.purpose = .change ∨
        state.requests.get other = some request := by
    intro other request found
    unfold issue at found
    rcases get_insert_eq_some found with ⟨isNew, rfl⟩ | ⟨-, found⟩
    · exact .inl ⟨isNew, rfl, rfl⟩
    · exact .inr found
  constructor
  · constructor
    intro other current commit _ _ _ _ hasCurrent isStaged
      firstFound secondFound firstClient secondClient firstWaits secondWaits
    have hasHere : (state.setClient number
        (some { client with staged := some { history := client.history, body := body } })
        ).clients.get other = some current := hasCurrent
    rw [get_setClient] at hasHere
    rcases asked firstFound with ⟨firstNew, firstIs, -⟩ | firstEarlier <;>
      rcases asked secondFound with ⟨secondNew, secondIs, -⟩ | secondEarlier
    · exact firstNew.trans secondNew.symm
    · exact absurd (secondClient.trans (firstClient.symm.trans firstIs))
        (idle secondEarlier secondWaits)
    · exact absurd (firstClient.trans (secondClient.symm.trans secondIs))
        (idle firstEarlier firstWaits)
    rw [if_neg (fun same => idle firstEarlier firstWaits (firstClient.trans same))] at hasHere
    exact attended.lone.one hasHere isStaged firstEarlier secondEarlier firstClient
      secondClient firstWaits secondWaits
  · intro other request found waits isCreate
    rcases asked found with ⟨-, -, isChange⟩ | foundBefore
    · rw [isChange] at isCreate
      cases isCreate
    rcases attended.founding foundBefore waits isCreate with stands | founding
    · exact .inl stands
    · exact absurd (founding.alone has).symm (idle foundBefore waits)
  intro begun
  obtain ⟨other, reaches⟩ := attended.reached begun
  refine ⟨other, State.reaches_mono reaches rfl ?_⟩
  intro current hasCurrent inGroup
  by_cases isThis : other = number
  · subst isThis
    cases has.symm.trans hasCurrent
    refine ⟨_, get_insert_self _ _ _, inGroup, .refl, ?_⟩
    intro commit isStaged _
    rw [ready.2] at isStaged
    cases isStaged
  refine ⟨current, (get_insert_of_ne isThis).trans hasCurrent, inGroup, .refl, ?_⟩
  intro commit isStaged awaits
  refine .inl ⟨isStaged, State.awaits_mono awaits (Nat.le_succ _) ?_⟩
  intro waiting request before found _ _ _
  exact (get_insert_of_ne (Nat.ne_of_lt before)).trans found

end

theorem reaches_answered
    (found : state.requests.get number = some request) (unanswered : request.answer = none)
    (reaches : state.reaches other = true) :
    ({ state with
        entry := entry
        past := past
        accepted := accepted
        requests := state.requests.insert number fresh } : State).reaches other = true := by
  apply State.reaches_mono reaches
  · rfl
  intro client has inGroup
  refine ⟨client, has, inGroup, .refl, ?_⟩
  intro _ staged awaits
  refine .inl ⟨staged, State.awaits_mono awaits .refl ?_⟩
  intro _ _ _ foundHere _ _ stands
  refine (get_insert_of_ne ?_).trans foundHere
  rintro rfl
  cases found.symm.trans foundHere
  obtain ⟨_, answered⟩ := stands_iff.mp stands
  rw [unanswered] at answered
  cases answered

theorem withAnswer (attended : Attended state) (found : state.requests.get number = some request)
    (unanswered : request.answer = none) (same : fresh.SameAs request)
    (kept : fresh.stands = true ∨ (state.past = [] -> past = []))
    (reached : past ≠ [] -> ∃ other, ({ state with
        entry := entry
        past := past
        front := front
        accepted := accepted
        requests := state.requests.insert number fresh } : State).reaches other = true) :
    Attended
      { state with
        entry := entry
        past := past
        front := front
        accepted := accepted
        requests := state.requests.insert number fresh } where
  lone := by
    apply attended.lone.mono
    · intro other client _ has staged
      exact ⟨client, has, staged⟩
    intro other current foundHere
    rcases get_insert_eq_some foundHere with ⟨isThis, rfl⟩ | ⟨-, foundHere⟩
    · exact ⟨request, isThis ▸ found, same.client, same.waiting⟩
    · exact ⟨current, foundHere, rfl, id⟩
  founding := by
    intro other current foundHere waits isCreate
    rcases get_insert_eq_some foundHere with ⟨rfl, rfl⟩ | ⟨isOther, foundHere⟩
    · rw [same.purpose] at isCreate
      rcases attended.founding found (same.waiting waits) isCreate with stands | founding
      · obtain ⟨_, answered⟩ := stands_iff.mp stands
        rw [unanswered] at answered
        cases answered
      rcases kept with stands | empty
      · exact .inl stands
      refine .inr
        { past := empty founding.past
          published := founding.published
          only := ?_
          alone := fun has => (founding.alone has).trans same.client.symm }
      intro _ _ foundPlaced
      simp only [get_insert] at foundPlaced
      split at foundPlaced
      next isHere => exact isHere
      next => exact founding.only foundPlaced
    rcases attended.founding foundHere waits isCreate with stands | founding
    · exact .inl stands
    · exact absurd (founding.only found).symm isOther
  reached := reached

theorem refuse (attended : Attended state)
    (refused : state.refuse number = some after) : Attended after := by
  obtain ⟨_, found, unanswered, rfl⟩ := State.refuse_eq_some refused
  refine attended.withAnswer found unanswered ⟨rfl, rfl, rfl, rfl, id⟩ (.inr id) ?_
  intro begun
  obtain ⟨other, reaches⟩ := attended.reached begun
  exact ⟨other, reaches_answered found unanswered reaches⟩

theorem reaches_accepted (levels : Levels state) (orderly : Orderly schedule state)
    {commit : Commit} (found : state.requests.get number = some request)
    (same : fresh.SameAs request) (waits : fresh.waiting = request.waiting)
    (stands : fresh.stands = true) (expects : state.expects request = true)
    (origin : request.origin = some commit) (behind : state.front <= commit.epoch)
    (further : front = commit.epoch + 1) :
    ({ state with
        entry := entry
        past := past
        front := front
        accepted := accepted
        requests := state.requests.insert number fresh } : State).reaches request.client = true := by
  simp only [State.expects, Bool.and_eq_true, Option.any_eq_true, decide_eq_true_eq, origin,
    all_some, Bool.or_eq_true] at expects
  obtain ⟨isWaiting, client, has, inGroup, holds⟩ := expects
  refine State.reaches_iff.mpr ⟨client, has, inGroup, .inr ⟨commit, ?_, further.symm, ?_⟩⟩
  · rcases holds with isStaged | past
    · exact isStaged
    have level := (levels.clients has).epoch
    omega
  exact State.awaits_iff.mpr ⟨number, orderly.numbered found, fresh, get_insert_self _ _ _,
    same.client, waits.trans isWaiting, same.origin.trans origin, stands⟩

theorem withEntry (attended : Attended state) (entry : Option GroupEntry) :
    Attended { state with entry } where
  lone := ⟨attended.lone.one⟩
  founding found waits isCreate :=
    (attended.founding found waits isCreate).imp id fun founding => { founding with }
  reached := attended.reached

section

variable (attended : Attended state) (levels : Levels state) (orderly : Orderly schedule state)
include attended levels orderly

/-- The relay's word on a request leaves somebody as far as it then is. -/
theorem handle (attentive : Attentive schedule state (.handle number nowMs))
    (handled : state.handle schedule number nowMs = some after) : Attended after := by
  obtain ⟨request, found, unanswered, rfl⟩ := State.handle_eq_some handled
  have old : state.past ≠ [] -> ∀ {entry : Option GroupEntry} {past : List GroupEntry}
      {accepted : List (Staged × Option Commit)} {fresh : Request} {front : Nat},
      front = state.front -> ∃ other, ({ state with
        entry := entry
        past := past
        front := front
        accepted := accepted
        requests := state.requests.insert number fresh } : State).reaches other = true := by
    rintro begun entry past accepted fresh front rfl
    obtain ⟨other, reaches⟩ := attended.reached begun
    exact ⟨other, reaches_answered found unanswered reaches⟩
  rcases levels.sequence schedule request.frame nowMs with
    ⟨-, unchanged⟩ | ⟨⟨reached, stands⟩, taken⟩
  · -- The relay refused: its entry is what it was.
    have kept : state.past = [] -> state.entry = none := by
      intro nothing
      cases isEntry : state.entry with
      | none => rfl
      | some entry =>
        have listed := levels.entry entry isEntry
        rw [nothing] at listed
        cases listed
    refine attended.withAnswer found unanswered ⟨rfl, rfl, rfl, rfl, id⟩ (.inr ?_) ?_
    · intro nothing
      rw [unchanged, nothing, kept nothing]
      rfl
    intro begun
    apply old
    · intro nothing
      rw [unchanged, nothing, kept nothing] at begun
      exact begun rfl
    rw [unchanged]
    cases isEntry : state.entry with
    | none => exact Nat.max_eq_left (Nat.zero_le _)
    | some entry => exact Nat.max_eq_left (levels.past entry (levels.entry entry isEntry))
  have expects : state.expects request = true := by
    simpa [Attentive, found, stands] using attentive
  refine attended.withAnswer found unanswered ⟨rfl, rfl, rfl, rfl, id⟩ (.inl ?_) ?_
  · unfold Request.stands
    rw [stands]
    rfl
  intro _
  have accepts : ∀ epoch, Request.stands
      { request with answer := some (SequencerAnswer.ofSequenced (.stands epoch)) } = true :=
    fun _ => rfl
  rcases taken with
    ⟨epoch, _, frame, entry, left, same⟩ | ⟨_, frame, begun, entry, left, same⟩
  · -- An entry created, or put back, is no further than the relay has been.
    have level := (levels.requests found).create frame
    by_cases begun : state.past = []
    · refine ⟨request.client, ?_⟩
      simp only [State.expects, Bool.and_eq_true, Option.any_eq_true, decide_eq_true_eq] at expects
      obtain ⟨-, client, has, inGroup, -⟩ := expects
      refine State.reaches_iff.mpr ⟨client, has, inGroup, .inl ?_⟩
      have zero := levels.zero begun
      simp only [left, map_some, getD_some, same]
      omega
    apply old begun
    simp only [left, map_some, getD_some, same]
    omega
  cases origin : request.origin with
  | none =>
    apply old begun
    simp only [left, map_some, getD_some, same]
    exact Nat.max_eq_left ((levels.requests found).replay frame origin)
  | some commit =>
    have isStaged := orderly.origins found origin
    obtain rfl := Frame.commit.inj (frame.symm.trans isStaged)
    have reaches : entry.epoch = commit.epoch + 1 := same
    by_cases ahead : state.front <= commit.epoch
    · refine ⟨request.client, reaches_accepted levels orderly found
        ⟨rfl, rfl, rfl, origin.symm, id⟩ rfl ?_ expects origin ahead ?_⟩
      · rw [stands, ← origin]
        exact accepts reached
      simp only [left, map_some, getD_some, reaches]
      omega
    apply old begun
    simp only [left, map_some, getD_some, reaches]
    omega

theorem step (attentive : Attentive schedule state move)
    (ran : state.step schedule move = some after) : Attended after := by
  cases move with
  | stage number => exact attended.stage orderly attentive ran
  | handle number => exact attended.handle levels orderly attentive ran
  | refuse number => exact attended.refuse ran
  | answer number => exact attended.answer levels ran
  | fail number => exact attended.fail levels attentive ran
  | crash number => exact attended.crash orderly attentive ran
  | receive number index => exact attended.receive levels attentive ran
  | join number index => exact attended.join attentive ran
  | leave number => exact attended.leave attentive ran
  | turn number => exact attended.turn ran
  | lose =>
    cases ran
    exact attended.withEntry none
  | restore index =>
    obtain ⟨entry, -, rfl⟩ := Option.map_eq_some_iff.mp ran
    exact attended.withEntry (some entry)

end

end Attended

theorem Attentive.stagesAlone {schedule : Schedule}
    (attentive : Attentive schedule state move) : StagesAlone state move := by
  cases move with
  | stage =>
    intro place before
    have allowed := attentive place before
    cases found : state.requests.get place with
    | none => rfl
    | some =>
      rw [found] at allowed
      simp only [all_some, Bool.or_eq_true] at allowed ⊢
      exact .inl allowed
  | _ => trivial

theorem Levels.start (schedule : Schedule) (seats : Nat) : Levels (start schedule seats) where
  seated := by
    intro number client has
    simp only [Sequencing.start, get_insert, get_empty] at has ⊢
    split at has
    next first => exact first ▸ Nat.succ_pos _
    next => cases has
  clients := by
    intro number client has
    rcases get_insert_eq_some has with ⟨-, rfl⟩ | ⟨-, has⟩
    · exact
        { epoch := .refl
          tokens := fun token only => by
            obtain rfl := mem_singleton.mp only
            exact .refl
          staged := by simp }
    · cases has
  requests := by
    intro number _ found
    rcases get_insert_eq_some found with ⟨-, rfl⟩ | ⟨-, found⟩
    · exact
        { create := fun same => by
            obtain ⟨rfl, -⟩ := Frame.create.inj same
            exact .refl
          replay := by simp
          change := by simp }
    · cases found
  accepted := forall_mem_nil _
  past := forall_mem_nil _
  entry := fun _ h => by cases h
  zero := fun _ => rfl

theorem Attended.start (schedule : Schedule) (seats : Nat) : Attended (start schedule seats) where
  lone := by
    constructor
    intro number client _ _ _ _ _ has staged
    rcases get_insert_eq_some has with ⟨-, rfl⟩ | ⟨-, has⟩
    · cases staged
    · cases has
  founding := by
    intro number _ found _ _
    rcases get_insert_eq_some found with ⟨first, rfl⟩ | ⟨-, found⟩
    · refine .inr
        { past := rfl, published := rfl, only := ?_, alone := ?_ }
      · intro other _ foundOther
        simp only [Sequencing.start, get_insert, get_empty] at foundOther
        split at foundOther
        next isFirst => exact isFirst.trans first.symm
        next => cases foundOther
      intro other client has
      simp only [Sequencing.start, get_insert, get_empty] at has
      split at has
      next isFirst => exact isFirst
      next => cases has
    · cases found
  reached := fun begun => absurd rfl begun

/-- The sequencer never runs ahead of every member: in every run in which nothing is
lost between the relay's word and the client's, where the entry stands at an epoch a
member's stored state is at that epoch or later, or the member holds the staged commit
that leads to it and that the relay accepted. -/
theorem sequencer_never_ahead
    {schedule : Schedule} {seats : Nat} {moves : List Move} {final : State} {entry : GroupEntry}
    (attentive : EachState (State.step schedule) (Attentive schedule) (start schedule seats) moves)
    (ended : run (State.step schedule) (start schedule seats) moves = some final)
    (stands : final.entry = some entry) :
    ∃ number client, final.clients.get number = some client ∧ client.standing ≠ .out ∧
      (entry.epoch ≤ client.epoch ∨
        ∃ commit, client.staged = some commit ∧ commit.epoch + 1 = entry.epoch ∧
          (commit.staged schedule, some commit) ∈ final.accepted) := by
  have begun : Orderly schedule (start schedule seats) ∧ Levels (start schedule seats) ∧
      Attended (start schedule seats) :=
    ⟨.start schedule seats, .start schedule seats, .start schedule seats⟩
  have preserve : ∀ move state next,
      Orderly schedule state ∧ Levels state ∧ Attended state -> Attentive schedule state move ->
      state.step schedule move = some next ->
      Orderly schedule next ∧ Levels next ∧ Attended next :=
    fun _ _ _ holds met stepped =>
      ⟨holds.1.step met.stagesAlone stepped, holds.2.1.step holds.1 stepped,
        holds.2.2.step holds.2.1 holds.1 met stepped⟩
  obtain ⟨orderly, levels, attended⟩ := EachState.run_keeps attentive begun preserve ended
  have listed := levels.entry entry stands
  obtain ⟨number, reaches⟩ := attended.reached (ne_nil_of_mem listed)
  obtain ⟨client, has, inGroup, far⟩ := State.reaches_iff.mp reaches
  have behind := levels.past entry listed
  refine ⟨number, client, has, inGroup, ?_⟩
  rcases far with reached | ⟨commit, staged, _, awaits⟩
  · exact .inl (behind.trans reached)
  have built := (levels.clients has).staged staged
  have same : commit.epoch = client.epoch := congrArg length built
  by_cases front : entry.epoch = commit.epoch + 1
  · obtain ⟨_, -, _, found, -, -, origin, accepted⟩ := State.awaits_iff.mp awaits
    obtain ⟨epoch, answered⟩ := stands_iff.mp accepted
    have recorded := orderly.answered found (orderly.origins found origin) answered
    rw [origin] at recorded
    exact .inr ⟨commit, staged, front.symm, recorded⟩
  · exact .inl (by omega)

theorem Levels.run {schedule : Schedule}
    (alone : EachState (State.step schedule) StagesAlone (Sequencing.start schedule seats) moves)
    (ended : Foundation.run (State.step schedule) (Sequencing.start schedule seats) moves =
      some final) :
    Levels final := by
  have begun : Orderly schedule (Sequencing.start schedule seats) ∧
      Levels (Sequencing.start schedule seats) :=
    ⟨.start schedule seats, .start schedule seats⟩
  have preserve : ∀ move state next, Orderly schedule state ∧ Levels state ->
      StagesAlone state move -> state.step schedule move = some next ->
      Orderly schedule next ∧ Levels next :=
    fun _ _ _ holds met ran => ⟨holds.1.step met ran, holds.2.step holds.1 ran⟩
  exact (EachState.run_keeps alone begun preserve ended).2

/-- Two members make one change each, and the entry is where both of them are. -/
theorem attended_one_after_another :
    ∃ final entry, run (State.step Pair.schedule) (start Pair.schedule 1) Pair.followed = some final ∧
      final.entry = some entry ∧ entry.epoch = 2 ∧
      ∃ number client, final.clients.get number = some client ∧ client.standing ≠ .out ∧
        (entry.epoch ≤ client.epoch ∨
          ∃ commit, client.staged = some commit ∧ commit.epoch + 1 = entry.epoch ∧
            (commit.staged Pair.schedule, some commit) ∈ final.accepted) := by
  refine ⟨_, _, rfl, rfl, rfl, ?_⟩
  exact sequencer_never_ahead
    (show EachState (State.step schedule) (Attentive schedule) (start schedule 1)
      followed by decide +kernel) rfl rfl

def Pair.lost : List Move :=
  Pair.founded ++ [.stage 1 6, .handle 2 0, .fail 2]

/-- The entry is then at an epoch that no member is at and for which nobody holds a
commit. -/
theorem ahead_of_all_after_lost_answer :
    ∃ final, run (State.step Pair.schedule) (start Pair.schedule 1) Pair.lost = some final ∧
      final.entry.map GroupEntry.epoch = some 2 ∧
      ∀ number client, final.clients.get number = some client →
        client.epoch < 2 ∧ client.staged = none := by
  have checked : (run (State.step schedule) (start schedule 1) lost).any
      (fun final => final.entry.map GroupEntry.epoch = some 2 && final.seats = 2 &&
        (range 2).all fun number => (final.clients.get number).all fun client =>
          client.epoch < 2 && client.staged = none) = true := by
    decide +kernel
  simp only [Option.any_eq_true, Bool.and_eq_true, decide_eq_true_eq, all_eq_true,
    mem_range] at checked
  obtain ⟨final, ended, ⟨epoch, seats⟩, behind⟩ := checked
  have alone : EachState (State.step schedule) StagesAlone (start schedule 1) lost := by
    decide +kernel
  refine ⟨final, ended, epoch, ?_⟩
  intro number client has
  have seated := (Levels.run alone ended).seated has
  have checkedClient := behind number (seats ▸ seated)
  rw [has] at checkedClient
  simpa using checkedClient

end Silver.System.Sequencing
