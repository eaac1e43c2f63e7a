import Silver.System.Sequencing.Defs

/-!
# What is merged was accepted

An answer that stands makes the client merge what is staged, whichever of its requests it
answers.  Where a change is staged only while no other request of the client is
unanswered, a staged commit is merged only once the relay has accepted it; where the relay
takes them only at the highest epoch it has reached, one commit is merged for an epoch.
-/

namespace Silver.System.Sequencing

open Foundation Relay List State Table
open Nat

def StagesAlone (state : State) : Move -> Prop
  | .stage client _ => ∀ number < state.issued, (state.requests.get number).all fun request =>
        request.client ≠ client || !request.waiting || request.purpose = .create
  | _ => True

instance (state : State) : ∀ move, Decidable (StagesAlone state move)
  | .stage _ _ => inferInstanceAs (Decidable (∀ number < state.issued, _))
  | .handle _ _ | .refuse _ | .answer _ | .fail _ | .crash _ | .receive _ _ _ | .join _ _
  | .leave _ | .turn _ _ | .lose | .restore _ => inferInstanceAs (Decidable True)

def CommitsAtFront (state : State) : Move -> Prop
  | .handle number _ =>
    (state.requests.get number).all fun request =>
      request.origin.all fun commit =>
        state.entry.all fun entry => entry.epoch ≠ commit.epoch || state.front <= entry.epoch
  | _ => True

/-- How requests, answers and commits belong together. -/
structure Orderly (schedule : Schedule) (state : State) : Prop where
  numbered : ∀ {number request}, state.requests.get number = some request -> number < state.issued
  own : ∀ {number request client commit}, state.requests.get number = some request ->
    request.waiting = true -> request.purpose ≠ .create ->
    state.clients.get request.client = some client -> client.staged = some commit ->
    request.origin = some commit
  origins : ∀ {number request commit}, state.requests.get number = some request ->
    request.origin = some commit -> request.frame = .commit (commit.staged schedule)
  answered : ∀ {number request staged epoch}, state.requests.get number = some request ->
    request.frame = .commit staged -> request.answer = some (.stands epoch) ->
    (staged, request.origin) ∈ state.accepted
  published : ∀ commit ∈ state.published, (commit.staged schedule, some commit) ∈ state.accepted
  merged : ∀ merge ∈ state.merged,
    (merge.commit.staged schedule, some merge.commit) ∈ state.accepted

section Reactions

variable {answer : Except String SequencerAnswer}

theorem onGroupSequenced_merged {commit : Commit}
    (merged : (onGroupSequenced schedule before purpose answer).merged = some commit) :
    (∃ client, before = some client ∧ client.staged = some commit) ∧ purpose ≠ .create ∧
      ∃ epoch, answer = .ok (.stands epoch) := by
  unfold onGroupSequenced at merged
  split at merged
  · cases merged
  next client =>
    split at merged
    · cases merged
    · cases merged
    next epoch notCreate =>
      unfold Client.commitStaged at merged
      cases staged : client.staged with
      | none =>
        rw [staged] at merged
        cases merged
      | some =>
        rw [staged] at merged
        cases merged
        exact ⟨⟨client, rfl, staged⟩, notCreate, epoch, rfl⟩
    · cases merged
    · cases merged
    · cases merged

theorem onGroupSequenced_staged {after : Client} {commit : Commit}
    (kept : (onGroupSequenced schedule before purpose answer).client = some after)
    (staged : after.staged = some commit) :
    before = some after ∧ (onGroupSequenced schedule before purpose answer).frames = [] := by
  unfold onGroupSequenced at kept ⊢
  split at kept
  · cases kept
  next client =>
    split at kept
    · cases kept
      exact ⟨rfl, rfl⟩
    · cases kept
    · cases kept
      exfalso
      unfold Client.commitStaged at staged
      split at staged
      next none =>
        rw [none] at staged
        cases staged
      · cases staged
    · cases kept
      cases staged
    · cases kept
      cases staged
    cases kept
    cases staged

end Reactions

/-- A request as it was, but for its answer and for nobody waiting any more. -/
structure Request.SameAs (after before : Request) : Prop where
  client : after.client = before.client
  purpose : after.purpose = before.purpose
  frame : after.frame = before.frame
  origin : after.origin = before.origin
  waiting : after.waiting = true -> before.waiting = true

theorem Request.SameAs.refl (request : Request) : request.SameAs request :=
  ⟨rfl, rfl, rfl, rfl, id⟩

namespace Orderly

variable {state after : State}

section

variable (orderly : Orderly schedule state)
include orderly

theorem mono (issued : state.issued <= after.issued) (accepted : state.accepted ⊆ after.accepted)
    (clients : ∀ {number client commit}, after.clients.get number = some client ->
      client.staged = some commit ->
      ∃ before, state.clients.get number = some before ∧ before.staged = some commit)
    (requests : ∀ {number request}, after.requests.get number = some request ->
      ∃ before, state.requests.get number = some before ∧ request.SameAs before ∧
        (request.answer = before.answer ∨ ∀ staged epoch, before.frame = .commit staged ->
          request.answer = some (.stands epoch) -> (staged, before.origin) ∈ after.accepted))
    (published : ∀ commit ∈ after.published, commit ∈ state.published ∨
      (commit.staged schedule, some commit) ∈ after.accepted)
    (merged : ∀ merge ∈ after.merged, merge ∈ state.merged ∨
      (merge.commit.staged schedule, some merge.commit) ∈ after.accepted) :
    Orderly schedule after where
  numbered := by
    intro number request found
    obtain ⟨before, foundBefore, -⟩ := requests found
    exact (orderly.numbered foundBefore).trans_le issued
  own := by
    intro number request client commit found waits notCreate has staged
    obtain ⟨before, foundBefore, same, -⟩ := requests found
    obtain ⟨_, hasBefore, stagedBefore⟩ := clients has staged
    rw [same.client] at hasBefore
    rw [same.purpose] at notCreate
    rw [same.origin]
    exact orderly.own foundBefore (same.waiting waits) notCreate hasBefore stagedBefore
  origins := by
    intro number request commit found origin
    obtain ⟨before, foundBefore, same, -⟩ := requests found
    rw [same.origin] at origin
    rw [same.frame]
    exact orderly.origins foundBefore origin
  answered := by
    intro number request staged epoch found frame stands
    obtain ⟨before, foundBefore, same, answer⟩ := requests found
    rw [same.frame] at frame
    rw [same.origin]
    rcases answer with unchanged | fresh
    · rw [unchanged] at stands
      exact accepted (orderly.answered foundBefore frame stands)
    · exact fresh staged epoch frame stands
  published := by
    intro commit listed
    rcases published commit listed with earlier | fresh
    · exact accepted (orderly.published commit earlier)
    · exact fresh
  merged := by
    intro merge listed
    rcases merged merge listed with earlier | fresh
    · exact accepted (orderly.merged merge earlier)
    · exact fresh

theorem withClients {clients : Table Nat Client}
    (staged : ∀ {number client commit}, clients.get number = some client ->
      client.staged = some commit ->
      ∃ before, state.clients.get number = some before ∧ before.staged = some commit) :
    Orderly schedule { state with clients := clients } :=
  orderly.mono .refl (List.Subset.refl _) staged
    (fun {_ request} found => ⟨request, found, .refl request, .inl rfl⟩)
    (fun _ listed => .inl listed) (fun _ listed => .inl listed)

theorem issue (unanswered : request.answer = none)
    (own : ∀ {client commit}, state.clients.get request.client = some client ->
      client.staged = some commit -> request.origin = some commit)
    (origin : ∀ {commit}, request.origin = some commit ->
      request.frame = .commit (commit.staged schedule)) :
    Orderly schedule (state.issue request) where
  numbered := by
    intro number found foundHere
    unfold State.issue at foundHere ⊢
    rcases get_insert_eq_some foundHere with ⟨isNew, _⟩ | ⟨-, foundHere⟩
    · exact isNew ▸ lt_succ_self _
    · exact lt_succ_of_lt (orderly.numbered foundHere)
  own := by
    intro number found client commit foundHere waits notCreate has staged
    rcases get_insert_eq_some foundHere with ⟨-, rfl⟩ | ⟨-, foundHere⟩
    · exact own has staged
    · exact orderly.own foundHere waits notCreate has staged
  origins := by
    intro number found commit foundHere isOrigin
    rcases get_insert_eq_some foundHere with ⟨-, rfl⟩ | ⟨-, foundHere⟩
    · exact origin isOrigin
    · exact orderly.origins foundHere isOrigin
  answered := by
    intro number found staged _ foundHere frame stands
    rcases get_insert_eq_some foundHere with ⟨-, rfl⟩ | ⟨-, foundHere⟩
    · rw [unanswered] at stands
      cases stands
    · exact orderly.answered foundHere frame stands
  published := orderly.published
  merged := orderly.merged

theorem issueAll (nothingStaged : frames ≠ [] -> ∀ {client}, state.clients.get number = some client ->
      client.staged = none) :
    Orderly schedule (state.issueAll number frames) := by
  induction frames generalizing state with
  | nil => exact orderly
  | cons _ _ ih =>
    unfold issueAll
    apply ih
    · apply orderly.issue rfl
      · intro client _ has staged
        rw [nothingStaged (cons_ne_nil _ _) has] at staged
        cases staged
      · simp
    intro _ client has
    exact nothingStaged (cons_ne_nil _ _) has

theorem react {answer : Except String SequencerAnswer} (accepted : ∀ commit,
      (onGroupSequenced schedule (state.clients.get number) purpose answer).merged = some commit ->
      (commit.staged schedule, some commit) ∈ state.accepted) :
    Orderly schedule (state.react number
      (onGroupSequenced schedule (state.clients.get number) purpose answer)) := by
  unfold State.react
  apply issueAll
  · refine orderly.mono .refl (List.Subset.refl _) ?_ ?_ ?_ ?_
    · intro other client commit has staged
      have here := has
      rw [get_setClient] at here
      split at here
      next same =>
        obtain ⟨before, -⟩ := onGroupSequenced_staged here staged
        exact ⟨client, same ▸ before, staged⟩
      next => exact ⟨client, here, staged⟩
    · intro other request found
      exact ⟨request, found, .refl request, .inl rfl⟩
    · intro commit listed
      rcases mem_append.mp listed with earlier | fresh
      · exact .inl earlier
      · exact .inr (accepted commit (Option.mem_toList.mp fresh))
    intro _ listed
    rcases mem_append.mp listed with earlier | fresh
    · exact .inl earlier
    obtain ⟨commit, isMerged, rfl⟩ := mem_map.mp fresh
    exact .inr (accepted commit (Option.mem_toList.mp isMerged))
  intro sends client has
  have here := has
  rw [get_setClient, if_pos rfl] at here
  cases staged : client.staged with
  | none => rfl
  | some commit => exact absurd (onGroupSequenced_staged here staged).2 sends

theorem stage (alone : StagesAlone state (.stage number body))
    (staged : state.stage schedule number body = some after) :
    Orderly schedule after := by
  obtain ⟨client, _, _, rfl⟩ := stage_eq_some staged
  have others : ∀ {other request}, state.requests.get other = some request ->
      request.waiting = true -> request.purpose ≠ .create -> request.client ≠ number := by
    intro other request found waits notCreate
    have allowed := alone other (orderly.numbered found)
    rw [found] at allowed
    simpa [waits, notCreate] using allowed
  apply issue
  · exact
      { orderly with
        own := by
          intro other request current commit found waits notCreate hasCurrent isStaged
          rw [get_setClient, if_neg (others found waits notCreate)] at hasCurrent
          exact orderly.own found waits notCreate hasCurrent isStaged }
  · rfl
  · intro current commit hasCurrent isStaged
    rw [get_setClient, if_pos rfl] at hasCurrent
    cases hasCurrent
    exact isStaged
  intro commit isOrigin
  cases isOrigin
  rfl

theorem withRequest {fresh : Request}
    (found : state.requests.get number = some request) (same : fresh.SameAs request)
    (answer : fresh.answer = request.answer ∨ ∀ staged epoch, request.frame = .commit staged ->
      fresh.answer = some (.stands epoch) -> (staged, request.origin) ∈ state.accepted) :
    Orderly schedule { state with requests := state.requests.insert number fresh } := by
  refine orderly.mono .refl (List.Subset.refl _) ?_ ?_ (fun _ listed => .inl listed)
    (fun _ listed => .inl listed)
  · intro other client commit has staged
    exact ⟨client, has, staged⟩
  intro other current foundHere
  rcases get_insert_eq_some foundHere with ⟨isThis, rfl⟩ | ⟨-, foundHere⟩
  · exact ⟨request, isThis ▸ found, same, answer⟩
  · exact ⟨current, foundHere, .refl current, .inl rfl⟩

end

section

variable (orderly : Orderly schedule state)
include orderly

theorem withEntry (entry : Option GroupEntry)
    (past : List GroupEntry) (front : Nat) (accepted : List (Staged × Option Commit)) :
    Orderly schedule
      { state with
        entry := entry
        past := past
        front := front
        accepted := state.accepted ++ accepted } :=
  orderly.mono .refl (subset_append_left _ _)
    (fun {_ client _} has staged => ⟨client, has, staged⟩)
    (fun {_ request} found => ⟨request, found, .refl request, .inl rfl⟩)
    (fun _ listed => .inl listed) (fun _ listed => .inl listed)

theorem handle (handled : state.handle schedule number nowMs = some after) :
    Orderly schedule after := by
  obtain ⟨_, found, -, rfl⟩ := handle_eq_some handled
  refine (orderly.withEntry _ _ _ _).withRequest found ⟨rfl, rfl, rfl, rfl, id⟩ (.inr ?_)
  intro staged _ frame stands
  apply mem_append_right
  rw [frame] at stands ⊢
  cases outcome : (state.sequence schedule (.commit staged) nowMs).1 with
  | stands => exact mem_singleton_self _
  | _ =>
    rw [outcome] at stands
    cases stands

theorem refuse (refused : state.refuse number = some after) : Orderly schedule after := by
  obtain ⟨_, found, -, rfl⟩ := refuse_eq_some refused
  refine orderly.withRequest found ⟨rfl, rfl, rfl, rfl, id⟩ (.inr ?_)
  exact nofun

theorem answer (answered : state.answer schedule number = some after) : Orderly schedule after := by
  obtain ⟨_, answer, found, given, waits, rfl⟩ := answer_eq_some answered
  have without : Orderly schedule
      { state with requests := state.requests.remove number } := by
    refine orderly.mono .refl (List.Subset.refl _) ?_ ?_
      (fun _ listed => .inl listed) (fun _ listed => .inl listed)
    · intro other client commit has staged
      exact ⟨client, has, staged⟩
    intro other current foundHere
    simp only [get_remove] at foundHere
    split at foundHere
    · cases foundHere
    · exact ⟨current, foundHere, .refl current, .inl rfl⟩
  apply without.react
  intro commit merged
  obtain ⟨⟨client, has, staged⟩, notCreate, _, stands⟩ := onGroupSequenced_merged merged
  have origin := orderly.own found waits notCreate has staged
  have accepted := orderly.answered found (orderly.origins found origin)
    (given.trans (congrArg some (Except.ok.inj stands)))
  rwa [origin] at accepted

theorem fail (failed : state.fail schedule number = some after) : Orderly schedule after := by
  obtain ⟨request, found, waits, rfl⟩ := fail_eq_some failed
  have gaveUp : Orderly schedule
      { state with requests := state.requests.insert number { request with waiting := false } } :=
    orderly.withRequest found ⟨rfl, rfl, rfl, rfl, fun _ => waits⟩ (.inl rfl)
  apply gaveUp.react
  intro _ merged
  obtain ⟨-, -, _, impossible⟩ := onGroupSequenced_merged merged
  cases impossible

theorem withClient {client : Client} (staged : ∀ {commit}, client.staged = some commit ->
      ∃ before, state.clients.get number = some before ∧ before.staged = some commit) :
    Orderly schedule { state with clients := state.clients.insert number client } := by
  apply orderly.withClients
  intro _ current commit has isStaged
  rcases get_insert_eq_some has with ⟨same, rfl⟩ | ⟨-, has⟩
  · exact same ▸ staged isStaged
  · exact ⟨current, has, isStaged⟩

theorem crash (crashed : state.crash number = some after) : Orderly schedule after := by
  obtain ⟨client, _, rfl⟩ := crash_eq_some crashed
  have dropped : Orderly schedule
      { state with clients := state.clients.insert number client.discardStaged } := by
    apply orderly.withClient
    simp [Client.discardStaged]
  refine dropped.mono .refl (List.Subset.refl _) ?_ ?_ (fun _ listed => .inl listed)
    (fun _ listed => .inl listed)
  · intro other current _ hasCurrent isStaged
    exact ⟨current, hasCurrent, isStaged⟩
  intro other _ found
  simp only [get_map] at found
  obtain ⟨before, foundBefore, rfl⟩ := Option.map_eq_some_iff.mp found
  refine ⟨before, foundBefore, ?_⟩
  split
  · exact ⟨⟨rfl, rfl, rfl, rfl, by simp⟩, .inl rfl⟩
  · exact ⟨.refl before, .inl rfl⟩

theorem receive (received : state.receive schedule number index removed = some after) :
    Orderly schedule after := by
  obtain ⟨client, commit, _, listed, -, rfl⟩ := receive_eq_some received
  have moved : Orderly schedule
      { state with
        clients := state.clients.insert number
          (if removed then { client.merge schedule commit with standing := .out }
            else client.merge schedule commit) } := by
    apply orderly.withClient
    intro other impossible
    cases removed <;> cases impossible
  refine moved.mono .refl (List.Subset.refl _) ?_ ?_ (fun _ among => .inl among) ?_
  · intro other current _ hasCurrent isStaged
    exact ⟨current, hasCurrent, isStaged⟩
  · intro other request found
    exact ⟨request, found, .refl request, .inl rfl⟩
  intro merge among
  rcases mem_append.mp among with earlier | fresh
  · exact .inl earlier
  obtain rfl := mem_singleton.mp fresh
  exact .inr (orderly.published commit (mem_of_getElem? listed))

theorem join (joined : state.join schedule number index = some after) : Orderly schedule after := by
  obtain ⟨-, -, -, rfl⟩ := join_eq_some joined
  apply orderly.withClient
  exact nofun

theorem leave (left : state.leave number = some after) : Orderly schedule after := by
  obtain ⟨-, -, rfl⟩ := leave_eq_some left
  apply orderly.withClient
  exact nofun

theorem turn {active : Bool} (turned : state.turn number active = some after) :
    Orderly schedule after := by
  obtain ⟨client, has, -, rfl⟩ := turn_eq_some turned
  apply orderly.withClient
  intro _ isStaged
  exact ⟨client, has, isStaged⟩

theorem step (alone : StagesAlone state move) (ran : state.step schedule move = some after) :
    Orderly schedule after := by
  cases move with
  | stage number => exact orderly.stage alone ran
  | handle number => exact orderly.handle ran
  | refuse number => exact orderly.refuse ran
  | answer number => exact orderly.answer ran
  | fail number => exact orderly.fail ran
  | crash number => exact orderly.crash ran
  | receive number index => exact orderly.receive ran
  | join number index => exact orderly.join ran
  | leave number => exact orderly.leave ran
  | turn number => exact orderly.turn ran
  | lose =>
    cases ran
    simpa using orderly.withEntry none state.past state.front []
  | restore index =>
    obtain ⟨entry, -, rfl⟩ := Option.map_eq_some_iff.mp ran
    simpa using orderly.withEntry (some entry) state.past state.front []

end

theorem start (schedule : Schedule) (seats : Nat) : Orderly schedule (start schedule seats) where
  numbered := by
    intro number request found
    rcases get_insert_eq_some found with ⟨first, _⟩ | ⟨-, found⟩
    · exact first ▸ zero_lt_one
    · cases found
  own := by
    intro number request _ commit found _ _ has staged
    rcases get_insert_eq_some has with ⟨-, rfl⟩ | ⟨-, has⟩
    · cases staged
    · cases has
  origins := by
    intro number request commit found origin
    rcases get_insert_eq_some found with ⟨-, rfl⟩ | ⟨-, found⟩
    · cases origin
    · cases found
  answered := by
    intro number request staged _ found _ stands
    rcases get_insert_eq_some found with ⟨-, rfl⟩ | ⟨-, found⟩
    · cases stands
    · cases found
  published := forall_mem_nil _
  merged := forall_mem_nil _

end Orderly

/-- Of the commits accepted, only one was staged for any epoch, and the entry has been
further. -/
structure Single (state : State) : Prop where
  behind : ∀ accepted ∈ state.accepted, ∀ commit, accepted.2 = some commit ->
    commit.epoch < state.front
  one : ∀ first ∈ state.accepted, ∀ second ∈ state.accepted, ∀ firstCommit secondCommit,
    first.2 = some firstCommit -> second.2 = some secondCommit ->
    firstCommit.epoch = secondCommit.epoch -> firstCommit = secondCommit

namespace Single

variable {state after : State}

theorem mono (single : Single state) (accepted : after.accepted = state.accepted)
    (front : state.front <= after.front) : Single after where
  behind := by
    rw [accepted]
    exact fun entry listed commit isFor => (single.behind entry listed commit isFor).trans_le front
  one := by
    rw [accepted]
    exact single.one

theorem fresh (orderly : Orderly schedule state) {epoch : Nat} {request : Request}
    {commit : Commit} (atFront : CommitsAtFront state (.handle number nowMs))
    (found : state.requests.get number = some request) (origin : request.origin = some commit)
    (stands : (state.sequence schedule request.frame nowMs).1 = .stands epoch) :
    state.front <= commit.epoch ∧
      ((state.sequence schedule request.frame nowMs).2.map GroupEntry.epoch).getD 0 =
        commit.epoch + 1 := by
  have frameOf := orderly.origins found origin
  rw [frameOf] at stands ⊢
  obtain ⟨-, ⟨before, isEntry, atEpoch⟩, after, isAfter, epochAfter⟩ := groupCommit_stands stands
  constructor
  · have allowed : state.front <= before.epoch := by
      have checked := atFront
      simp only [CommitsAtFront, found, origin, isEntry, Option.all_some, Bool.or_eq_true,
        decide_eq_true_eq] at checked
      exact checked.resolve_left fun apart => apart atEpoch
    exact allowed.trans (le_of_eq atEpoch)
  have entryAfter : (state.sequence schedule (.commit (commit.staged schedule)) nowMs).2 =
      some after := isAfter
  rw [entryAfter]
  exact epochAfter

theorem fresher (orderly : Orderly schedule state)
    (atFront : CommitsAtFront state (.handle number nowMs))
    (found : state.requests.get number = some request) : ∀ accepted ∈
      (match request.frame, (state.sequence schedule request.frame nowMs).1 with
        | .commit staged, .stands _ => [(staged, request.origin)]
        | _, _ => []), ∀ commit, accepted.2 = some commit ->
      request.origin = some commit ∧ state.front <= commit.epoch ∧
        ((state.sequence schedule request.frame nowMs).2.map GroupEntry.epoch).getD 0 =
          commit.epoch + 1 := by
  intro accepted listed commit isFor
  split at listed
  next stands =>
    obtain rfl := mem_singleton.mp listed
    exact ⟨isFor, fresh orderly atFront found isFor stands⟩
  next => cases listed

theorem handle (single : Single state) (orderly : Orderly schedule state)
    (atFront : CommitsAtFront state (.handle number nowMs))
    (handled : state.handle schedule number nowMs = some after) :
    Single after := by
  obtain ⟨request, found, -, rfl⟩ := handle_eq_some handled
  have fresher := fresher orderly atFront found
  constructor
  · intro accepted listed commit isFor
    rcases mem_append.mp listed with earlier | new
    · exact (single.behind accepted earlier commit isFor).trans_le (le_max_left _ _)
    obtain ⟨-, -, reached⟩ := fresher accepted new commit isFor
    exact (lt_succ_self _).trans_le (reached ▸ le_max_right _ _)
  intro first firstListed second secondListed firstCommit secondCommit firstIs secondIs same
  rcases mem_append.mp firstListed with firstEarlier | firstNew <;>
    rcases mem_append.mp secondListed with secondEarlier | secondNew
  · exact single.one first firstEarlier second secondEarlier _ _ firstIs secondIs same
  · have before := single.behind first firstEarlier firstCommit firstIs
    have later := (fresher second secondNew secondCommit secondIs).2.1
    omega
  · have before := single.behind second secondEarlier secondCommit secondIs
    have later := (fresher first firstNew firstCommit firstIs).2.1
    omega
  have firstOrigin := (fresher first firstNew firstCommit firstIs).1
  have secondOrigin := (fresher second secondNew secondCommit secondIs).1
  exact Option.some.inj (firstOrigin.symm.trans secondOrigin)

theorem step (single : Single state) (orderly : Orderly schedule state)
    (atFront : CommitsAtFront state move) (ran : state.step schedule move = some after) :
    Single after := by
  by_cases handled : ∃ number nowMs, move = .handle number nowMs
  · obtain ⟨number, nowMs, rfl⟩ := handled
    exact single.handle orderly atFront ran
  by_cases lost : move = .lose
  · subst lost
    cases ran
    exact single.mono rfl .refl
  by_cases restored : ∃ index, move = .restore index
  · obtain ⟨index, rfl⟩ := restored
    obtain ⟨_, -, rfl⟩ := Option.map_eq_some_iff.mp ran
    exact single.mono rfl .refl
  have unchanged := relay_step ran
    (fun number nowMs same => handled ⟨number, nowMs, same⟩) lost
    (fun index same => restored ⟨index, same⟩)
  simp only [relay, Prod.mk.injEq] at unchanged
  exact single.mono unchanged.2.2.2 (le_of_eq unchanged.2.2.1.symm)

end Single

/-- In every run in which a change is staged only while no other request of its client
is unanswered, whatever a client merges on the sequencer's word was accepted as it was
staged.  Where the relay besides takes staged commits only at the highest epoch it has
reached, no two members merge different commits for one epoch. -/
theorem merged_only_when_accepted
    {schedule : Schedule} {seats : Nat} {moves : List Move} {final : State}
    (alone : EachState (State.step schedule) StagesAlone (start schedule seats) moves)
    (ended : run (State.step schedule) (start schedule seats) moves = some final) :
    (∀ merge ∈ final.merged, merge.own = true →
      ∃ accepted ∈ final.accepted, accepted.1 = merge.commit.staged schedule) ∧
      (EachState (State.step schedule) CommitsAtFront (start schedule seats) moves →
        ∀ first ∈ final.merged, ∀ second ∈ final.merged,
          first.commit.epoch = second.commit.epoch → first.commit = second.commit) := by
  have preserve : ∀ move state next, Orderly schedule state -> StagesAlone state move ->
      state.step schedule move = some next -> Orderly schedule next :=
    fun _ _ _ orderly met stepped => orderly.step met stepped
  constructor
  · intro merge listed _
    have orderly := EachState.run_keeps alone (Orderly.start schedule seats) preserve ended
    exact ⟨_, orderly.merged merge listed, rfl⟩
  intro atFront first firstListed second secondListed same
  have begun : Orderly schedule (start schedule seats) ∧ Single (start schedule seats) :=
    ⟨.start schedule seats, forall_mem_nil _, forall_mem_nil _⟩
  have both : ∀ move state next, Orderly schedule state ∧ Single state ->
      StagesAlone state move ∧ CommitsAtFront state move ->
      state.step schedule move = some next -> Orderly schedule next ∧ Single next :=
    fun _ _ _ holds met stepped => ⟨holds.1.step met.1 stepped, holds.2.step holds.1 met.2 stepped⟩
  obtain ⟨orderly, single⟩ := EachState.run_keeps (alone.and atFront) begun both ended
  exact single.one _ (orderly.merged first firstListed) _ (orderly.merged second secondListed) _ _
    rfl rfl same

namespace Pair

def schedule : Schedule :=
  { token := fun history => Bytes.fill 32 (UInt8.ofNat (history.foldr (fun body sum => body + 16 * sum) 1))
    hash := id }

def founded : List Move :=
  [.handle 0 0, .answer 0, .stage 0 5, .handle 1 0, .answer 1, .join 1 0, .turn 1 true]

def followed : List Move :=
  founded ++ [.stage 1 6, .handle 2 0, .answer 2, .receive 0 1 false]

def putBack : List Move :=
  founded ++ [.lose, .stage 0 6, .handle 2 0, .answer 2, .stage 0 7, .handle 3 0, .answer 3,
      .stage 1 8, .handle 5 0, .answer 5]

end Pair

/-- Two members make one change each, and both merge both. -/
theorem accepted_one_after_another :
    ∃ final, run (State.step Pair.schedule) (start Pair.schedule 1) Pair.followed = some final ∧
      final.merged.map (fun merge => merge.commit.body) = [5, 6, 6] ∧
      ∀ merge ∈ final.merged, merge.own = true →
        ∃ accepted ∈ final.accepted, accepted.1 = merge.commit.staged Pair.schedule := by
  refine ⟨_, rfl, rfl, ?_⟩
  exact (merged_only_when_accepted
    (show EachState (step Pair.schedule) StagesAlone (start Pair.schedule 1) Pair.followed by
      decide +kernel) rfl).1

/-- A change staged while the entry is being put back is merged on the answer to
that, though the relay never accepted it; and the other member merges another change
for the same epoch. -/
theorem merged_unaccepted :
    ∃ final, run (State.step Pair.schedule) (start Pair.schedule 1) Pair.putBack = some final ∧
      (∃ merge ∈ final.merged, merge.own = true ∧
        ∀ accepted ∈ final.accepted, accepted.1 ≠ merge.commit.staged Pair.schedule) ∧
      ∃ first ∈ final.merged, ∃ second ∈ final.merged,
        first.commit.epoch = second.commit.epoch ∧ first.commit ≠ second.commit := by
  refine ⟨_, rfl, ?_, ?_⟩
  · decide +kernel
  · decide +kernel

end Silver.System.Sequencing
