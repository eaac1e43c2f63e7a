import Silver.Client.Groups.Receive
import Silver.Foundation.Table
import Silver.Relay.Sequencer

/-!
# A group's members and the sequencer

Each member keeps its own state of the group and may have one commit staged.  A
staged commit is taken to the relay's sequencer as a task of its own; what comes
back names the group and why it was asked, not which request it answers.
-/

namespace Silver.System.Sequencing

open Foundation Relay Table
open Client.Groups (EpochToken pushToken)

/-- The key schedule: the token of the epoch a sequence of commits leads to, newest
first, and the hash the relay keeps of a token. -/
structure Schedule where
  token : List Nat → Bytes 32
  hash : Bytes 32 → Bytes 32

/-- What the sequencer is asked for a commit. -/
structure Staged where
  epoch : Nat
  token : Bytes 32
  next : Bytes 32
deriving DecidableEq

/-- A commit: those before it, and what it is. -/
structure Commit where
  history : List Nat
  body : Nat
deriving DecidableEq

def Commit.epoch (commit : Commit) : Nat :=
  commit.history.length

def Commit.after (commit : Commit) : List Nat :=
  commit.body :: commit.history

def Commit.staged (schedule : Schedule) (commit : Commit) : Staged :=
  { epoch := commit.epoch
    token := schedule.token commit.history
    next := schedule.hash (schedule.token commit.after) }

/-- Where a group stands for a client: it changes the group, it only follows (not
accepted yet, out of sync or broken), or it has left or been removed. -/
inductive Standing where
  | active
  | passive
  | out
deriving DecidableEq

/-- A client's stored state of the group, and the commit staged in memory together
with what it fans out. -/
structure Client where
  history : List Nat
  tokens : List EpochToken
  standing : Standing
  staged : Option Commit
deriving DecidableEq

/-- What the client makes of the relay's answer. -/
inductive SequencerAnswer where
  | stands (epoch : Nat)
  | stale (epoch : Nat)
  | existsAt (epoch : Nat)
  | notFound
  | forbidden
  | rateLimited
  | other (message : String)
deriving DecidableEq

/-- What was asked for: a new group, an entry put back or caught up, or a change. -/
inductive Purpose where
  | create
  | refresh
  | change
deriving DecidableEq

/-- What the relay is sent. -/
inductive Frame where
  | create (epoch : Nat) (next : Bytes 32)
  | commit (staged : Staged)
deriving DecidableEq

def SequencerAnswer.ofSequenced : Sequenced → SequencerAnswer
  | .stands epoch => .stands epoch
  | .stale epoch => .stale epoch
  | .existsAt epoch => .existsAt epoch
  | .notFound => .notFound
  | .forbidden => .forbidden

namespace Client

variable (schedule : Schedule) (client : Client)

def epoch : Nat :=
  client.history.length

def merge (commit : Commit) : Client :=
  { client with
    history := commit.body :: client.history
    tokens := pushToken client.tokens (client.epoch + 1)
      (schedule.token (commit.body :: client.history))
    staged := none }

def commitStaged : Client × Option Commit :=
  match client.staged with
  | none => (client, none)
  | some commit => (client.merge schedule commit, some commit)

def discardStaged : Client :=
  { client with staged := none }

def sequencerEntry : Option Frame :=
  if client.standing = .active then
    some (.create client.epoch (schedule.hash (schedule.token client.history)))
  else none

def catchUp (fromEpoch : Nat) : List Staged :=
  (client.tokens.zip client.tokens.tail).filterMap fun pair =>
    if pair.1.epoch ≥ fromEpoch && pair.2.epoch = pair.1.epoch + 1 then
      some
        { epoch := pair.1.epoch, token := pair.1.token, next := schedule.hash pair.2.token }
    else none

end Client

/-- What a client does on an answer: its state after, what it sends, and the commit
it merges and fans out. -/
structure Reaction where
  client : Option Client
  frames : List Frame
  merged : Option Commit

/-- Handle an answer of the sequencer. -/
def onGroupSequenced (schedule : Schedule) (client : Option Client) (purpose : Purpose)
    (answer : Except String SequencerAnswer) : Reaction :=
  match client with
  | none => { client := none, frames := [], merged := none }
  | some client =>
    match purpose, answer with
    | .create, .ok (.stands _) => { client := some client, frames := [], merged := none }
    | .create, _ => { client := none, frames := [], merged := none }
    | _, .ok (.stands _) =>
      { client := some (client.commitStaged schedule).1
        frames := []
        merged := (client.commitStaged schedule).2 }
    | _, .ok .notFound =>
      { client := some client.discardStaged
        frames := (client.sequencerEntry schedule).toList
        merged := none }
    | _, .ok (.stale theirs) =>
      { client := some client.discardStaged
        frames := (client.catchUp schedule theirs).map .commit
        merged := none }
    | _, _ => { client := some client.discardStaged, frames := [], merged := none }

/-- A request: who made it and why, what the relay is sent, the staged commit it is
for, whether somebody waits for the answer, and the answer. -/
structure Request where
  client : Nat
  purpose : Purpose
  frame : Frame
  origin : Option Commit
  waiting : Bool
  answer : Option SequencerAnswer
deriving DecidableEq

/-- A commit merged: by whom, and whether on the sequencer's word or received. -/
structure Merge where
  client : Nat
  commit : Commit
  own : Bool
deriving DecidableEq

/-- The group's entry with those the relay had before and the highest epoch among
them, the commits it accepted and what they were staged as, the clients, the requests
under way, the commits fanned out and those merged. -/
structure State where
  entry : Option GroupEntry
  past : List GroupEntry
  front : Nat
  accepted : List (Staged × Option Commit)
  seats : Nat
  clients : Table Nat Client
  issued : Nat
  requests : Table Nat Request
  published : List Commit
  merged : List Merge

/-- What can happen: a client stages a change and takes it to the sequencer; the relay
handles a request, or refuses it for a budget; the answer arrives, or an error in its
place; a client restarts; it receives a commit, which may remove it, or a Welcome;
it leaves, or its standing changes; the relay loses the entry, or has an older one
restored. -/
inductive Move where
  | stage (client : Nat) (body : Nat)
  | handle (number : Nat) (nowMs : Nat)
  | refuse (number : Nat)
  | answer (number : Nat)
  | fail (number : Nat)
  | crash (client : Nat)
  | receive (client : Nat) (index : Nat) (removed : Bool)
  | join (client : Nat) (index : Nat)
  | leave (client : Nat)
  | turn (client : Nat) (active : Bool)
  | lose
  | restore (index : Nat)

namespace State

variable (schedule : Schedule) (state : State)

def issue (request : Request) : State :=
  { state with requests := state.requests.insert state.issued request, issued := state.issued + 1 }

/-- Send what an answer asks for. -/
def issueAll (client : Nat) : State → List Frame → State
  | state, [] => state
  | state, frame :: rest =>
    issueAll client
      (state.issue
        { client := client
          purpose := .refresh
          frame := frame
          origin := none
          waiting := true
          answer := none })
      rest

def setClient (number : Nat) (client : Option Client) : State :=
  { state with
    clients :=
      match client with
      | none => state.clients.remove number
      | some client => state.clients.insert number client }

def react (number : Nat) (reaction : Reaction) : State :=
  let settled := state.setClient number reaction.client
  let told :=
    { settled with
      published := settled.published ++ reaction.merged.toList
      merged := settled.merged ++ reaction.merged.toList.map fun commit =>
        Merge.mk number commit true }
  told.issueAll number reaction.frames

def sequence (frame : Frame) (nowMs : Nat) : Sequenced × Option GroupEntry :=
  match frame with
  | .create epoch next => groupCreate state.entry epoch next nowMs
  | .commit staged => groupCommit schedule.hash state.entry staged.epoch staged.token staged.next nowMs

/-- A client stages a commit and takes it to the sequencer. -/
def stage (number body : Nat) : Option State :=
  match state.clients.get number with
  | none => none
  | some client =>
    if client.standing = .active ∧ client.staged = none then
      let commit : Commit := { history := client.history, body := body }
      some ((state.setClient number (some { client with staged := some commit })).issue
        { client := number
          purpose := .change
          frame := .commit (commit.staged schedule)
          origin := some commit
          waiting := true
          answer := none })
    else none

/-- The relay handles a request. -/
def handle (number nowMs : Nat) : Option State :=
  match state.requests.get number with
  | none => none
  | some request =>
    if request.answer = none then
      let outcome := state.sequence schedule request.frame nowMs
      let accepted :=
        match request.frame, outcome.1 with
        | .commit staged, .stands _ => [(staged, request.origin)]
        | _, _ => []
      some
        { state with
          entry := outcome.2
          past := state.past ++ outcome.2.toList
          front := max state.front ((outcome.2.map GroupEntry.epoch).getD 0)
          accepted := state.accepted ++ accepted
          requests := state.requests.insert number
            { request with answer := some (.ofSequenced outcome.1) } }
    else none

/-- The relay refuses a request for a budget. -/
def refuse (number : Nat) : Option State :=
  match state.requests.get number with
  | none => none
  | some request =>
    if request.answer = none then
      some
        { state with
          requests := state.requests.insert number
            { request with answer := some .rateLimited } }
    else none

/-- An answer arrives. -/
def answer (number : Nat) : Option State :=
  match state.requests.get number with
  | none => none
  | some request =>
    match request.answer with
    | none => none
    | some answer =>
      if request.waiting then
        some ({ state with requests := state.requests.remove number }.react request.client
          (onGroupSequenced schedule (state.clients.get request.client) request.purpose
            (.ok answer)))
      else none

/-- An error arrives in place of an answer: the relay may have handled the request, or
may handle it yet. -/
def fail (number : Nat) : Option State :=
  match state.requests.get number with
  | none => none
  | some request =>
    if request.waiting then
      some ({ state with
          requests := state.requests.insert number { request with waiting := false } }.react
        request.client
        (onGroupSequenced schedule (state.clients.get request.client) request.purpose
          (.error "timed out")))
    else none

/-- A client restarts: what was staged is gone, and nobody waits for the answers to
its requests. -/
def crash (number : Nat) : Option State :=
  match state.clients.get number with
  | none => none
  | some client =>
    some
      { state with
        clients := state.clients.insert number client.discardStaged
        requests := state.requests.map fun request =>
          if request.client = number then { request with waiting := false } else request }

/-- A client receives a commit built on the state it has. -/
def receive (number index : Nat) (removed : Bool) : Option State :=
  match state.clients.get number, state.published[index]? with
  | some client, some commit =>
    if client.standing ≠ .out ∧ commit.history = client.history then
      let merged := client.merge schedule commit
      some
        { state with
          clients := state.clients.insert number
            (if removed then { merged with standing := .out } else merged)
          merged := state.merged ++ [{ client := number, commit := commit, own := false }] }
    else none
  | _, _ => none

/-- A client is welcomed to the group a commit leads to. -/
def join (number index : Nat) : Option State :=
  match state.published[index]? with
  | none => none
  | some commit =>
    if number < state.seats ∧
        (state.clients.get number).all (fun client => client.standing ≠ .active) then
      some
        { state with
          clients := state.clients.insert number
            { history := commit.after
              tokens := [{ epoch := commit.epoch + 1, token := schedule.token commit.after }]
              standing := .passive
              staged := none } }
    else none

/-- A client leaves. -/
def leave (number : Nat) : Option State :=
  match state.clients.get number with
  | none => none
  | some client =>
    if client.standing = .active then
      some
        { state with
          clients := state.clients.insert number { client with standing := .out, staged := none } }
    else none

/-- A client accepts an invitation, is set right, or falls out of sync. -/
def turn (number : Nat) (active : Bool) : Option State :=
  match state.clients.get number with
  | none => none
  | some client =>
    if client.standing ≠ .out then
      some
        { state with
          clients := state.clients.insert number
            { client with standing := if active then .active else .passive } }
    else none

/-- One step. -/
def step (move : Move) : Option State :=
  match move with
  | .stage client body => state.stage schedule client body
  | .handle number nowMs => state.handle schedule number nowMs
  | .refuse number => state.refuse number
  | .answer number => state.answer schedule number
  | .fail number => state.fail schedule number
  | .crash client => state.crash client
  | .receive client index removed => state.receive schedule client index removed
  | .join client index => state.join schedule client index
  | .leave client => state.leave client
  | .turn client active => state.turn client active
  | .lose => some { state with entry := none }
  | .restore index => (state.past[index]?).map fun entry => { state with entry := some entry }

end State

namespace State

variable {state : State}

theorem stage_eq_some (staged : state.stage schedule number body = some after) :
    ∃ client, state.clients.get number = some client ∧
      (client.standing = .active ∧ client.staged = none) ∧
      after = (state.setClient number
          (some { client with staged := some ⟨client.history, body⟩ })).issue
        { client := number
          purpose := .change
          frame := .commit (Commit.staged schedule ⟨client.history, body⟩)
          origin := some ⟨client.history, body⟩
          waiting := true
          answer := none } := by
  grind [stage]

theorem handle_eq_some (handled : state.handle schedule number nowMs = some after) :
    ∃ request, state.requests.get number = some request ∧ request.answer = none ∧ after =
      { state with
        entry := (state.sequence schedule request.frame nowMs).2
        past := state.past ++ (state.sequence schedule request.frame nowMs).2.toList
        front := max state.front
          (((state.sequence schedule request.frame nowMs).2.map GroupEntry.epoch).getD 0)
        accepted := state.accepted ++
          match request.frame, (state.sequence schedule request.frame nowMs).1 with
          | .commit staged, .stands _ => [(staged, request.origin)]
          | _, _ => []
        requests := state.requests.insert number
          { request with
            answer := some (.ofSequenced (state.sequence schedule request.frame nowMs).1) } } := by
  grind [handle]

theorem refuse_eq_some (refused : state.refuse number = some after) :
    ∃ request, state.requests.get number = some request ∧ request.answer = none ∧ after =
      { state with
        requests := state.requests.insert number
          { request with answer := some .rateLimited } } := by
  grind [refuse]

theorem answer_eq_some (answered : state.answer schedule number = some after) :
    ∃ request answer, state.requests.get number = some request ∧ request.answer = some answer ∧
      request.waiting = true ∧
      after = { state with requests := state.requests.remove number }.react request.client
        (onGroupSequenced schedule (state.clients.get request.client) request.purpose
          (.ok answer)) := by
  grind [answer]

theorem fail_eq_some (failed : state.fail schedule number = some after) :
    ∃ request, state.requests.get number = some request ∧ request.waiting = true ∧
      after = { state with
          requests := state.requests.insert number { request with waiting := false } }.react
        request.client
        (onGroupSequenced schedule (state.clients.get request.client) request.purpose
          (.error "timed out")) := by
  grind [fail]

theorem crash_eq_some (crashed : state.crash number = some after) :
    ∃ client, state.clients.get number = some client ∧ after =
      { state with
        clients := state.clients.insert number client.discardStaged
        requests := state.requests.map fun request =>
          if request.client = number then { request with waiting := false } else request } := by
  grind [crash]

theorem receive_eq_some (received : state.receive schedule number index removed = some after) :
    ∃ client commit, state.clients.get number = some client ∧
      state.published[index]? = some commit ∧
      (client.standing ≠ .out ∧ commit.history = client.history) ∧ after =
        { state with
          clients := state.clients.insert number
            (if removed then { client.merge schedule commit with standing := .out }
              else client.merge schedule commit)
          merged := state.merged ++ [{ client := number, commit := commit, own := false }] } := by
  grind [receive]

theorem join_eq_some (joined : state.join schedule number index = some after) :
    ∃ commit, state.published[index]? = some commit ∧ number < state.seats ∧ after =
      { state with
        clients := state.clients.insert number
          { history := commit.after
            tokens := [{ epoch := commit.epoch + 1, token := schedule.token commit.after }]
            standing := .passive
            staged := none } } := by
  grind [join]

theorem leave_eq_some (left : state.leave number = some after) :
    ∃ client, state.clients.get number = some client ∧ after =
      { state with
        clients := state.clients.insert number { client with standing := .out, staged := none } } := by
  grind [leave]

theorem turn_eq_some {active : Bool} (turned : state.turn number active = some after) :
    ∃ client, state.clients.get number = some client ∧ client.standing ≠ .out ∧ after =
      { state with
        clients := state.clients.insert number
          { client with standing := if active then .active else .passive } } := by
  grind [turn]

theorem get_setClient (number other : Nat) (client : Option Client) :
    (state.setClient number client).clients.get other =
      if other = number then client else state.clients.get other := by
  cases client with
  | none => exact get_remove state.clients number other
  | some client => exact get_insert state.clients number other client

def relay (state : State) :
    Option GroupEntry × List GroupEntry × Nat × List (Staged × Option Commit) :=
  (state.entry, state.past, state.front, state.accepted)

@[simp] theorem relay_issueAll (number : Nat) (frames : List Frame) :
    (state.issueAll number frames).relay = state.relay := by
  induction frames generalizing state with
  | nil => rfl
  | cons _ _ ih => exact ih

/-- What clients do among themselves does not touch the relay. -/
theorem relay_step (ran : state.step schedule move = some after)
    (notHandled : ∀ number nowMs, move ≠ .handle number nowMs) (notLost : move ≠ .lose)
    (notRestored : ∀ index, move ≠ .restore index) :
    after.relay = state.relay := by
  cases move with
  | handle number nowMs => exact absurd rfl (notHandled number nowMs)
  | lose => exact absurd rfl notLost
  | restore index => exact absurd rfl (notRestored index)
  | stage number =>
    obtain ⟨-, -, -, rfl⟩ := stage_eq_some ran
    rfl
  | refuse number =>
    obtain ⟨-, -, -, rfl⟩ := refuse_eq_some ran
    rfl
  | answer number =>
    obtain ⟨-, -, -, -, -, rfl⟩ := answer_eq_some ran
    exact relay_issueAll _ _
  | fail number =>
    obtain ⟨-, -, -, rfl⟩ := fail_eq_some ran
    exact relay_issueAll _ _
  | crash number =>
    obtain ⟨-, -, rfl⟩ := crash_eq_some ran
    rfl
  | receive number index =>
    obtain ⟨-, -, -, -, -, rfl⟩ := receive_eq_some ran
    rfl
  | join number index =>
    obtain ⟨-, -, -, rfl⟩ := join_eq_some ran
    rfl
  | leave number =>
    obtain ⟨-, -, rfl⟩ := leave_eq_some ran
    rfl
  | turn number =>
    obtain ⟨-, -, -, rfl⟩ := turn_eq_some ran
    rfl

@[simp] theorem clients_issueAll (number : Nat) (frames : List Frame) :
    (state.issueAll number frames).clients = state.clients := by
  induction frames generalizing state with
  | nil => rfl
  | cons _ _ ih => exact ih

theorem issued_issueAll (number : Nat) (frames : List Frame) :
    state.issued ≤ (state.issueAll number frames).issued := by
  induction frames generalizing state with
  | nil => exact .refl
  | cons _ _ ih =>
    unfold issueAll
    refine le_trans ?_ ih
    exact Nat.le_succ state.issued

theorem get_issueAll_of_lt (earlier : other < state.issued) :
    (state.issueAll number frames).requests.get other = state.requests.get other := by
  induction frames generalizing state with
  | nil => rfl
  | cons _ _ ih => exact (ih (Nat.lt_succ_of_lt earlier)).trans (get_insert_of_ne (by omega))

theorem get_issueAll {request : Request}
    (found : (state.issueAll number frames).requests.get other = some request) :
    state.requests.get other = some request ∨
      frames ≠ [] ∧ request.client = number ∧ request.purpose = .refresh := by
  induction frames generalizing state with
  | nil => exact .inl found
  | cons _ _ ih =>
    rcases ih found with earlier | ⟨-, client, purpose⟩
    · unfold issue at earlier
      rcases get_insert_eq_some earlier with ⟨-, rfl⟩ | ⟨-, earlier⟩
      · exact .inr ⟨List.cons_ne_nil _ _, rfl, rfl⟩
      · exact .inl earlier
    · exact .inr ⟨List.cons_ne_nil _ _, client, purpose⟩

theorem get_react (number other : Nat) (reaction : Reaction) :
    (state.react number reaction).clients.get other =
      if other = number then reaction.client else state.clients.get other := by
  unfold react
  rw [clients_issueAll]
  exact get_setClient number other reaction.client

theorem issued_react (number : Nat) (reaction : Reaction) :
    state.issued ≤ (state.react number reaction).issued := by
  unfold react
  refine le_trans ?_ (issued_issueAll _ _)
  exact .refl

theorem get_react_of_lt (earlier : other < state.issued) :
    (state.react number reaction).requests.get other = state.requests.get other := by
  unfold react
  exact get_issueAll_of_lt earlier

theorem relay_react (number : Nat) (reaction : Reaction) :
    (state.react number reaction).relay = state.relay :=
  relay_issueAll _ _

end State

/-- A group its creator has just made, and takes to the sequencer. -/
def start (schedule : Schedule) (seats : Nat) : State :=
  { entry := none
    past := []
    front := 0
    accepted := []
    seats := seats + 1
    clients := Table.empty.insert 0
      { history := []
        tokens := [{ epoch := 0, token := schedule.token [] }]
        standing := .active
        staged := none }
    issued := 1
    requests := Table.empty.insert 0
      { client := 0
        purpose := .create
        frame := .create 0 (schedule.hash (schedule.token []))
        origin := none
        waiting := true
        answer := none }
    published := []
    merged := [] }

end Silver.System.Sequencing
