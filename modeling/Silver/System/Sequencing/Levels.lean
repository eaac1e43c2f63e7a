import Silver.System.Sequencing.Merging

/-!
# How far members and requests are

No member, no token kept and no step replayed is ahead of the highest epoch the
relay's entry has reached.
-/

namespace Silver.System.Sequencing

open Foundation Relay List Table
open Client.Groups (EpochToken pushToken)

/-- A client is no further than an epoch, keeps tokens of its own past, and has staged
nothing but what builds on its state. -/
structure Client.Level (front : Nat) (client : Client) : Prop where
  epoch : client.epoch <= front
  tokens : ∀ token ∈ client.tokens, token.epoch <= client.epoch
  staged : ∀ {commit}, client.staged = some commit -> commit.history = client.history

/-- A request, that of a staged commit apart, asks for no more than an epoch. -/
structure Request.Level (front : Nat) (request : Request) : Prop where
  create : ∀ {epoch next}, request.frame = .create epoch next -> epoch <= front
  replay : ∀ {staged}, request.frame = .commit staged -> request.origin = none ->
    staged.epoch + 1 <= front
  change : ∀ {commit}, request.origin = some commit -> request.purpose ≠ .create

/-- Nobody is ahead of the highest epoch the entry has reached. -/
structure Levels (state : State) : Prop where
  seated : ∀ {number client}, state.clients.get number = some client -> number < state.seats
  clients : ∀ {number client}, state.clients.get number = some client -> client.Level state.front
  requests : ∀ {number request}, state.requests.get number = some request ->
    request.Level state.front
  accepted : ∀ accepted ∈ state.accepted, accepted.1.epoch + 1 <= state.front
  past : ∀ entry ∈ state.past, entry.epoch <= state.front
  entry : ∀ entry ∈ state.entry, entry ∈ state.past
  zero : state.past = [] -> state.front = 0

theorem mem_pushToken {epoch : Nat} {token : Bytes 32}
    {kept : EpochToken} (listed : kept ∈ pushToken tokens epoch token) :
    kept ∈ tokens ∨ kept.epoch = epoch := by
  have pushed := mem_of_mem_drop listed
  rcases mem_append.mp pushed with earlier | last
  · exact .inl (mem_of_mem_filter earlier)
  · exact .inr (by rw [mem_singleton.mp last])

namespace Client.Level

variable {plan : Schedule} {client : Client}

section

variable (level : client.Level front)
include level

theorem mono (least : front <= further) : client.Level further :=
  { level with epoch := level.epoch.trans least }

theorem discardStaged : client.discardStaged.Level front :=
  { level with staged := nofun }

theorem withStanding (standing : Standing) :
    ({ client with standing := standing } : Client).Level front :=
  { level with }

theorem merge (commit : Commit) (reached : client.epoch + 1 <= front) :
    (client.merge plan commit).Level front where
  epoch := reached
  tokens := by
    intro token listed
    rcases mem_pushToken listed with earlier | last
    · exact (level.tokens token earlier).trans (Nat.le_succ _)
    · exact Nat.le_of_eq last
  staged := nofun

theorem sequencerEntry {frame : Frame} (known : client.sequencerEntry plan = some frame) :
    ∃ epoch next, frame = .create epoch next ∧ epoch <= front := by
  unfold Client.sequencerEntry at known
  split at known
  · cases known
    exact ⟨_, _, rfl, level.epoch⟩
  · cases known

theorem catchUp {staged : Staged}
    (listed : staged ∈ client.catchUp plan theirs) : staged.epoch + 1 <= front := by
  obtain ⟨pair, isPair, shown⟩ := mem_filterMap.mp listed
  split at shown
  next consecutive =>
    cases shown
    simp only [Bool.and_eq_true, decide_eq_true_eq] at consecutive
    have kept := level.tokens pair.2 (mem_of_mem_tail (of_mem_zip isPair).2)
    rw [consecutive.2] at kept
    exact kept.trans level.epoch
  next => cases shown

end

end Client.Level

theorem Request.Level.mono {request : Request}
    (level : request.Level front) (least : front <= further) : request.Level further where
  create := fun frame => (level.create frame).trans least
  replay := fun frame none => (level.replay frame none).trans least
  change := level.change

section Reactions

theorem onGroupSequenced_some {after : Client}
    (kept : (onGroupSequenced plan before purpose answer).client = some after) :
    ∃ client, before = some client := by
  cases before with
  | none => cases kept
  | some client => exact ⟨client, rfl⟩

theorem onGroupSequenced_client {after : Client} (level : ∀ client ∈ before, client.Level front)
    (reached : ∀ client ∈ before, ∀ commit,
      (onGroupSequenced plan before purpose answer).merged = some commit ->
      client.epoch + 1 <= front)
    (kept : (onGroupSequenced plan before purpose answer).client = some after) :
    after.Level front := by
  unfold onGroupSequenced at kept reached
  split at kept
  · cases kept
  next client =>
    have here := level client rfl
    split at kept
    · cases kept
      exact here
    · cases kept
    · cases kept
      have further := reached client rfl
      simp only at further
      unfold Client.commitStaged at further ⊢
      split
      · exact here
      next commit staged =>
        rw [staged] at further
        exact here.merge commit (further commit rfl)
    · cases kept
      exact here.discardStaged
    · cases kept
      exact here.discardStaged
    cases kept
    exact here.discardStaged

theorem onGroupSequenced_frames {frame : Frame} (level : ∀ client ∈ before, client.Level front)
    (sent : frame ∈ (onGroupSequenced plan before purpose answer).frames) :
    (∃ epoch next, frame = .create epoch next ∧ epoch <= front) ∨
      ∃ staged, frame = .commit staged ∧ staged.epoch + 1 <= front := by
  unfold onGroupSequenced at sent
  split at sent
  · cases sent
  next client =>
    have here := level client rfl
    split at sent
    · cases sent
    · cases sent
    · cases sent
    · exact .inl (here.sequencerEntry (Option.mem_toList.mp sent))
    · obtain ⟨staged, listed, rfl⟩ := mem_map.mp sent
      exact .inr ⟨staged, rfl, here.catchUp listed⟩
    · cases sent

end Reactions

namespace Levels

variable {plan : Schedule} {state after : State}

section

variable (levels : Levels state)
include levels

theorem withClient {client : Client}
    (seated : number < state.seats) (level : client.Level state.front) :
    Levels { state with clients := state.clients.insert number client } :=
  { levels with
    seated := by
      intro other current has
      rcases get_insert_eq_some has with ⟨same, _⟩ | ⟨-, has⟩
      · exact same ▸ seated
      · exact levels.seated has
    clients := by
      intro other current has
      rcases get_insert_eq_some has with ⟨-, rfl⟩ | ⟨-, has⟩
      · exact level
      · exact levels.clients has }

theorem withRequest (level : request.Level state.front) :
    Levels { state with requests := state.requests.insert number request } :=
  { levels with
    requests := by
      intro _ _ found
      rcases get_insert_eq_some found with ⟨-, rfl⟩ | ⟨-, found⟩
      · exact level
      · exact levels.requests found }

theorem issue (level : request.Level state.front) : Levels (state.issue request) :=
  { levels.withRequest level with }

theorem issueAll (create : ∀ {epoch next}, .create epoch next ∈ frames -> epoch <= state.front)
    (replay : ∀ {staged}, .commit staged ∈ frames -> staged.epoch + 1 <= state.front) :
    Levels (state.issueAll number frames) := by
  induction frames generalizing state with
  | nil => exact levels
  | cons _ _ ih =>
    unfold State.issueAll
    apply ih
    · apply levels.issue
      exact
        { create := fun isCreate => create (mem_cons.mpr (.inl isCreate.symm))
          replay := fun isCommit _ => replay (mem_cons.mpr (.inl isCommit.symm))
          change := by simp }
    · exact fun listed => create (.tail _ listed)
    · exact fun listed => replay (.tail _ listed)

theorem react {answer : Except String SequencerAnswer}
    (reached : ∀ client ∈ state.clients.get number, ∀ commit,
      (onGroupSequenced plan (state.clients.get number) purpose answer).merged = some commit ->
      client.epoch + 1 <= state.front) :
    Levels (state.react number
      (onGroupSequenced plan (state.clients.get number) purpose answer)) := by
  have level : ∀ client ∈ state.clients.get number, client.Level state.front :=
    fun client has => levels.clients has
  unfold State.react
  apply issueAll
  · exact
      { levels with
        seated := by
          intro other client has
          simp only at has
          rw [State.get_setClient] at has
          split at has
          next same =>
            obtain ⟨client, hasBefore⟩ := onGroupSequenced_some has
            exact levels.seated (same ▸ hasBefore)
          next => exact levels.seated has
        clients := by
          intro other client has
          simp only at has
          rw [State.get_setClient] at has
          split at has
          · exact onGroupSequenced_client level reached has
          · exact levels.clients has }
  · intro epoch next sent
    rcases onGroupSequenced_frames level sent with ⟨_, _, same, least⟩ | ⟨_, impossible, _⟩
    · obtain ⟨rfl, rfl⟩ := Frame.create.inj same
      exact least
    · cases impossible
  intro _ sent
  rcases onGroupSequenced_frames level sent with ⟨_, _, impossible, _⟩ | ⟨_, same, least⟩
  · cases impossible
  obtain rfl := Frame.commit.inj same
  exact least

end

section

variable (levels : Levels state)
include levels

theorem stage (staged : state.stage plan number body = some after) : Levels after := by
  obtain ⟨client, has, -, rfl⟩ := State.stage_eq_some staged
  have level := levels.clients has
  have seated : Levels (state.setClient number
      (some { client with staged := some { history := client.history, body := body } })) :=
    levels.withClient (levels.seated has)
      { level with
        staged := fun isStaged => by
          cases isStaged
          rfl }
  apply seated.issue
  exact
    { create := nofun, replay := nofun, change := nofun }

theorem sequence (plan : Schedule) (frame : Frame) (nowMs : Nat) :
    (∀ epoch, (state.sequence plan frame nowMs).1 ≠ .stands epoch) ∧
        (state.sequence plan frame nowMs).2 = state.entry ∨
      (∃ epoch, (state.sequence plan frame nowMs).1 = .stands epoch) ∧
        ((∃ epoch next, frame = .create epoch next ∧
            ∃ entry, (state.sequence plan frame nowMs).2 = some entry ∧ entry.epoch = epoch) ∨
          ∃ staged, frame = .commit staged ∧ state.past ≠ [] ∧
            ∃ entry, (state.sequence plan frame nowMs).2 = some entry ∧
              entry.epoch = staged.epoch + 1) := by
  by_cases stands : ∃ epoch, (state.sequence plan frame nowMs).1 = .stands epoch
  · obtain ⟨epoch, stands⟩ := stands
    cases frame with
    | create asked next =>
      obtain ⟨-, entry, left, same⟩ := groupCreate_stands stands
      exact .inr ⟨⟨epoch, stands⟩, .inl ⟨asked, next, rfl, entry, left, same⟩⟩
    | commit staged =>
      obtain ⟨-, ⟨before, isEntry, -⟩, entry, left, same⟩ := groupCommit_stands stands
      have begun : state.past ≠ [] := ne_nil_of_mem (levels.entry before isEntry)
      exact .inr ⟨⟨epoch, stands⟩, .inr ⟨staged, rfl, begun, entry, left, same⟩⟩
  have refused : ∀ epoch, (state.sequence plan frame nowMs).1 ≠ .stands epoch :=
    fun epoch same => stands ⟨epoch, same⟩
  refine .inl ⟨refused, ?_⟩
  cases frame with
  | create asked next => exact groupCreate_refused refused
  | commit staged => exact groupCommit_refused refused

theorem handle (handled : state.handle plan number nowMs = some after) : Levels after := by
  obtain ⟨request, found, -, rfl⟩ := State.handle_eq_some handled
  have further : state.front <= max state.front
      (((state.sequence plan request.frame nowMs).2.map GroupEntry.epoch).getD 0) :=
    Nat.le_max_left _ _
  have level := (levels.requests found).mono further
  exact
    { seated := levels.seated
      clients := fun has => (levels.clients has).mono further
      requests := by
        intro _ _ foundHere
        rcases get_insert_eq_some foundHere with ⟨-, rfl⟩ | ⟨-, foundHere⟩
        · exact { level with }
        · exact (levels.requests foundHere).mono further
      accepted := by
        intro accepted listed
        rcases mem_append.mp listed with earlier | new
        · exact (levels.accepted accepted earlier).trans further
        split at new
        next staged epoch frame stands =>
          obtain rfl := mem_singleton.mp new
          rw [frame] at stands ⊢
          obtain ⟨-, -, entry, left, same⟩ := groupCommit_stands stands
          have leaves : (state.sequence plan (.commit staged) nowMs).2 = some entry := left
          simp only [leaves, Option.map_some, Option.getD_some, same]
          omega
        next => cases new
      past := by
        intro entry listed
        rcases mem_append.mp listed with earlier | new
        · exact (levels.past entry earlier).trans further
        have left := Option.mem_toList.mp new
        rw [left]
        exact Nat.le_max_right _ _
      entry := by
        intro entry left
        exact mem_append_right _ (Option.mem_toList.mpr left)
      zero := by
        intro none
        obtain ⟨before, nothing⟩ := append_eq_nil_iff.mp none
        have left : (state.sequence plan request.frame nowMs).2 = Option.none := by
          simpa using nothing
        simp only [left, levels.zero before, Option.map_none, Option.getD_none]
        rfl }

theorem refuse (refused : state.refuse number = some after) : Levels after := by
  obtain ⟨_, found, -, rfl⟩ := State.refuse_eq_some refused
  exact levels.withRequest { levels.requests found with }

theorem answer (orderly : Orderly plan state)
    (answered : state.answer plan number = some after) : Levels after := by
  obtain ⟨_, answer, found, given, waits, rfl⟩ := State.answer_eq_some answered
  have without : Levels { state with requests := state.requests.remove number } :=
    { levels with
      requests := by
        intro _ current foundHere
        simp only [get_remove] at foundHere
        split at foundHere
        · cases foundHere
        · exact levels.requests foundHere }
  apply without.react
  intro _ has _ merged
  obtain ⟨⟨current, hasCurrent, staged⟩, notCreate, epoch, stands⟩ := onGroupSequenced_merged merged
  cases hasCurrent.symm.trans has
  have origin := orderly.own found waits notCreate hasCurrent staged
  have accepted := levels.accepted _ (orderly.answered found
    (orderly.origins found origin) (given.trans (congrArg some (Except.ok.inj stands))))
  have built := (levels.clients hasCurrent).staged staged
  unfold Client.epoch
  rw [← built]
  exact accepted

theorem fail (failed : state.fail plan number = some after) : Levels after := by
  obtain ⟨request, found, _, rfl⟩ := State.fail_eq_some failed
  have gaveUp : Levels
      { state with requests := state.requests.insert number { request with waiting := false } } :=
    levels.withRequest { levels.requests found with }
  apply gaveUp.react
  intro _ _ _ merged
  obtain ⟨-, -, _, impossible⟩ := onGroupSequenced_merged merged
  cases impossible

theorem crash (crashed : state.crash number = some after) : Levels after := by
  obtain ⟨_, has, rfl⟩ := State.crash_eq_some crashed
  have dropped := levels.withClient (levels.seated has) (levels.clients has).discardStaged
  exact
    { dropped with
      requests := by
        intro _ _ found
        simp only [get_map] at found
        obtain ⟨_, foundBefore, rfl⟩ := Option.map_eq_some_iff.mp found
        split
        · exact { levels.requests foundBefore with }
        · exact levels.requests foundBefore }

theorem receive (orderly : Orderly plan state)
    (received : state.receive plan number index removed = some after) : Levels after := by
  obtain ⟨client, commit, has, listed, fits, rfl⟩ := State.receive_eq_some received
  have accepted := levels.accepted _ (orderly.published commit (mem_of_getElem? listed))
  have reached : client.epoch + 1 <= state.front := by
    unfold Client.epoch
    rw [← fits.2]
    exact accepted
  have level : (if removed then { client.merge plan commit with standing := .out }
      else client.merge plan commit).Level state.front := by
    split
    · exact ((levels.clients has).merge commit reached).withStanding .out
    · exact (levels.clients has).merge commit reached
  exact { levels.withClient (levels.seated has) level with }

theorem join (orderly : Orderly plan state)
    (joined : state.join plan number index = some after) : Levels after := by
  obtain ⟨commit, listed, allowed, rfl⟩ := State.join_eq_some joined
  apply levels.withClient allowed
  exact
    { epoch := levels.accepted _ (orderly.published commit (mem_of_getElem? listed))
      tokens := by
        intro _ only
        obtain rfl := mem_singleton.mp only
        exact .refl
      staged := nofun }

theorem leave (left : state.leave number = some after) : Levels after := by
  obtain ⟨_, has, rfl⟩ := State.leave_eq_some left
  exact levels.withClient (levels.seated has) ((levels.clients has).discardStaged.withStanding .out)

theorem turn {active : Bool} (turned : state.turn number active = some after) : Levels after := by
  obtain ⟨_, has, -, rfl⟩ := State.turn_eq_some turned
  exact levels.withClient (levels.seated has) ((levels.clients has).withStanding _)

theorem step (orderly : Orderly plan state)
    (ran : state.step plan move = some after) : Levels after := by
  cases move with
  | stage number => exact levels.stage ran
  | handle number => exact levels.handle ran
  | refuse number => exact levels.refuse ran
  | answer number => exact levels.answer orderly ran
  | fail number => exact levels.fail ran
  | crash number => exact levels.crash ran
  | receive number index => exact levels.receive orderly ran
  | join number index => exact levels.join orderly ran
  | leave number => exact levels.leave ran
  | turn number => exact levels.turn ran
  | lose =>
    cases ran
    exact { levels with entry := nofun }
  | restore index =>
    obtain ⟨entry, listed, rfl⟩ := Option.map_eq_some_iff.mp ran
    exact
      { levels with
        entry := by
          rintro _ ⟨⟩
          exact mem_of_getElem? listed }

end

end Levels

end Silver.System.Sequencing
