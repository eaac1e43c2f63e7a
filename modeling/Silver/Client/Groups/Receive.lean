import Silver.Client.Groups.Running

/-!
# Receiving group messages

A message arrives with a header anybody can write.  One from a later epoch is held
back, as long as there is room; any other goes to MLS, which says whose it is and
what it does.  Whatever arrives, the messages held back are then tried again, for
as long as that gets anywhere.
-/

namespace Silver.Client.Groups

open Foundation Protocol

/-- What a message says of itself before anything is verified. -/
structure Header where
  group : List UInt8
  epoch : Nat
  isHandshake : Bool
deriving DecidableEq

/-- What an application message may ask for. -/
inductive Content (Body : Type) where
  | timer (seconds : Nat)
  | other (body : Body)

/-- The plaintext of an application message. -/
structure GroupPlaintext (Body Head : Type) where
  id : String
  sentAtMs : Nat
  head : Option Head
  content : Content Body

/-- What MLS makes of a message. -/
inductive ProcessedContent (Secrets : Type) where
  | application (bytes : List UInt8)
  | proposal (proposal : Proposal)
  | externalJoin
  | own
  | stagedCommit (staged : StagedCommit) (token : Bytes 32) (secrets : Secrets)

/-- A message MLS has opened: who sent it and what it is. -/
structure Processed (Secrets : Type) where
  sender : Sender
  content : ProcessedContent Secrets

/-- The MLS state of a group: what the members agree on, the token of the epoch,
the own leaf, the proposals waiting, a commit of our own, and the secrets. -/
structure Handle (Secrets : Type) where
  epoch : Nat
  tree : Tree
  context : GroupContext
  token : Bytes 32
  ownIndex : Nat
  proposals : List QueuedProposal
  pendingCommit : Bool
  secrets : Secrets

/-- The library and the formats below the engine: reading a header, opening a
message, which may use up secrets but moves nothing else, and reading the plaintext
of an application message. -/
structure Mls where
  Secrets : Type
  Body : Type
  Head : Type
  keys : Keys
  header : List UInt8 → Except String Header
  process : Handle Secrets → List UInt8 → Except String (Processed Secrets) × Secrets
  plaintext : List UInt8 → Except ProtocolError (GroupPlaintext Body Head)

/-- What the front end is told. -/
inductive GroupEvent (Body Head : Type) where
  | message (sender : UserId) (id : String) (sentAtMs : Nat) (content : Content Body)
  | timerSet (committer : UserId) (seconds : Nat) (changed : Bool)
  | head (sender : UserId) (head : Head)
  | changed (committer : UserId) (change : Change)
  | removed (committer : UserId)
  | broken (committer : UserId) (reason : Breach)
  | leaveProposed (member : UserId)
  | outOfSync
  | refused (reason : String)

/-- A client's part in one group: its record, the MLS state while it is in it, and
whether a commit is staged. -/
structure Member (mls : Mls) where
  record : GroupRecord
  handle : Option (Handle mls.Secrets)
  staged : Bool

abbrev Mls.Event (mls : Mls) : Type :=
  GroupEvent mls.Body mls.Head

abbrev Mls.Outcome (mls : Mls) : Type :=
  Member mls × Except GroupError (List mls.Event)

def pushToken (tokens : List EpochToken) (epoch : Nat) (token : Bytes 32) : List EpochToken :=
  let pushed := tokens.filter (fun kept => kept.epoch < epoch) ++ [{ epoch := epoch, token := token }]
  pushed.drop (pushed.length - TOKENS_KEPT)

def heldBytes (held : List Held) : Nat :=
  (held.map fun item => item.mls.length).sum

/-- What a commit is told as. -/
def describe (change : Change) (before after : SilverGroup) : List Change :=
  let membership :=
    match change with
    | .added _ => [change]
    | .removed _ => [change]
    | .left _ => [change]
    | _ => []
  let changes := membership ++ (if before.name ≠ after.name then [.renamed after.name] else []) ++
    (if before.admins ≠ after.admins then [.admins after.admins] else []) ++
    (if before.inviteKey ≠ after.inviteKey then [.linkReset] else [])
  if changes.isEmpty then [.updated] else changes

/-- Merge a commit. -/
def Handle.merge {Secrets : Type} (handle : Handle Secrets) (staged : StagedCommit)
    (token : Bytes 32) (secrets : Secrets) : Except GroupError (Handle Secrets) :=
  match Tree.ofNodes (staged.appliedNodes handle.tree) with
  | none => .error (.mls "duplicate signature key")
  | some tree =>
    .ok
      { epoch := handle.epoch + 1
        tree := tree
        context := staged.context
        token := token
        ownIndex := handle.ownIndex
        proposals := []
        pendingCommit := false
        secrets := secrets }

namespace Member

variable (member : Member mls)

def withState (state : GroupState) : Member mls :=
  { member with record := { member.record with state := state } }

def withHeld (held : List Held) : Member mls :=
  { member with record := { member.record with held := held } }

def hold (epoch : Nat) (header : Header) (sender : UserId) (bytes : List UInt8) (nowMs : Nat) :
    mls.Outcome :=
  let held := member.record.held.filter fun item => item.receivedAtMs + HOLD_FOR_MS > nowMs
  if held.length ≥ HOLD_LIMIT || header.epoch > epoch + HOLD_LIMIT ||
      bytes.length > MAX_INLINE_MLS_BYTES || heldBytes held + bytes.length > HOLD_BYTES then
    ((member.withHeld held).withState (.outOfSync nowMs), .ok [.outOfSync])
  else
    (member.withHeld (held ++ [{ receivedAtMs := nowMs, sender := sender, mls := bytes }]), .ok [])

def unreadable (epoch : Nat) (header : Header) (error : String) (nowMs : Nat) : mls.Outcome :=
  if header.isHandshake && header.epoch ≥ epoch && member.record.state = .active then
    (member.withState (.outOfSync nowMs),
      .ok [.refused ("a change to the group could not be applied: " ++ error), .outOfSync])
  else (member, .ok [.refused ("could not read a group message: " ++ error)])

/-- An application message of a member. -/
def application (sender : UserId) (short : UserId → String) (bytes : List UInt8) : mls.Outcome :=
  match mls.plaintext bytes with
  | .error error => (member, .error (.protocol error))
  | .ok plain =>
    if member.record.seen.contains plain.id then (member, .ok [])
    else
      let seen := member.record.seen ++ [plain.id]
      let record := { member.record with seen := seen.drop (seen.length - SEEN_IDS) }
      let heads : List mls.Event :=
        match plain.head with
        | some head => if record.state = .active then [.head sender head] else []
        | none => []
      match plain.content with
      | .timer seconds =>
        if !record.isAdmin sender then
          ({ member with record := record },
            .ok (heads ++ [.refused (short sender ++ "… set a timer without being an admin")]))
        else
          ({ member with record := { record with expireAfterS := seconds } },
            .ok (heads ++ [.timerSet sender seconds (record.expireAfterS ≠ seconds)]))
      | .other body =>
        ({ member with record := record },
          .ok (heads ++ [.message sender plain.id plain.sentAtMs (.other body)]))

/-- A proposal of a member: only its own leave is kept. -/
def proposal (handle : Handle mls.Secrets) (index : Nat) (sender : UserId) (proposal : Proposal) :
    mls.Outcome :=
  if proposal = .remove index then
    ({ member with
        handle := some
          { handle with
            proposals := handle.proposals ++ [{ proposal := proposal, sender := .member index }] } },
      .ok [.leaveProposed sender])
  else (member, .ok [.refused "a proposal only an admin's commit may make"])

def broken (committer : UserId) (reason : Breach) : mls.Outcome :=
  (member.withState (.broken committer reason), .ok [.broken committer reason])

/-- A commit of a member: checked, and merged. -/
def commit (handle : Handle mls.Secrets) (committer : UserId) (staged : StagedCommit)
    (token : Bytes 32) (secrets : mls.Secrets) : mls.Outcome :=
  match extensionOf handle.context.extensions with
  | .error error => (member, .error error)
  | .ok before =>
    match checkCommit mls.keys handle.tree staged committer before with
    | .error refusal => member.broken committer (.refused refusal)
    | .ok change =>
      match extensionOf staged.context.extensions with
      | .error error => (member, .error error)
      | .ok after =>
        -- Our own pending commit, if any, lost the race.
        let lost : Member mls :=
          if handle.pendingCommit then
            { member with handle := some { handle with pendingCommit := false }, staged := false }
          else member
        match handle.merge staged token secrets with
        | .error error => (lost, .error error)
        | .ok merged =>
          if handle.ownIndex ∈ staged.removedIndices then
            ({ lost with handle := none, staged := false }.withState (.removed committer),
              .ok [.removed committer])
          else
            match leavesOf mls.keys merged.tree with
            | .error error =>
              { lost with handle := some merged }.broken committer (.unreadable error)
            | .ok leaves =>
              let record := lost.record
              let state :=
                match record.state with
                | .outOfSync _ => .active
                | other => other
              ({ lost with
                  handle := some merged
                  record :=
                    { record with
                      members := membersOf leaves after
                      name := after.name
                      state := state
                      tokens := pushToken record.tokens merged.epoch merged.token } },
                .ok ((describe change before after).map (.changed committer)))

/-- Handle one message. -/
def processOne (group : GroupId) (short : UserId → String) (sender : UserId) (bytes : List UInt8)
    (nowMs : Nat) : mls.Outcome :=
  match mls.header bytes with
  | .error error => (member, .error (.mls error))
  | .ok header =>
    if header.group ≠ group.data then
      (member, .ok [.refused "the message names another group"])
    else
      match member.handle with
      | none => (member, .error .noSuchGroup)
      | some handle =>
        if header.isHandshake && header.epoch > handle.epoch then
          member.hold handle.epoch header sender bytes nowMs
        else
          let (opened, secrets) := mls.process handle bytes
          let handle := { handle with secrets := secrets }
          let member := { member with handle := some handle }
          match opened with
          | .error error => member.unreadable handle.epoch header error nowMs
          | .ok processed =>
            match processed.sender with
            | .outside => (member, .ok [.refused "a message from outside the group"])
            | .member index =>
              match leafAt mls.keys handle.tree index with
              | .error error => (member, .error error)
              | .ok leaf =>
                match processed.content with
                | .application bytes => member.application leaf.account short bytes
                | .proposal proposal => member.proposal handle index leaf.account proposal
                | .externalJoin => (member, .ok [.refused "external joins are not allowed"])
                | .own => (member, .ok [])
                | .stagedCommit staged token secrets =>
                  member.commit handle leaf.account staged token secrets

/-- Try the messages held back, one after another: the state, whether any of them
was not held back again, and the events; or where an error ended it. -/
def retry (group : GroupId) (short : UserId → String) (nowMs : Nat) :
    Member mls → List Held → Bool → List mls.Event →
      Member mls × Except GroupError (Bool × List mls.Event)
  | member, [], progressed, events => (member, .ok (progressed, events))
  | member, item :: rest, progressed, events =>
    if item.receivedAtMs + HOLD_FOR_MS ≤ nowMs then
      retry group short nowMs member rest progressed events
    else
      let before := member.record.held.length
      match member.processOne group short item.sender item.mls nowMs with
      | (member, .error error) => (member, .error error)
      | (member, .ok more) =>
        retry group short nowMs member rest
          (progressed || member.record.held.length = before) (events ++ more)

/-- Try the messages held back for as long as one of them is not held back again;
`none` where the rounds run out. -/
def retryAll (group : GroupId) (short : UserId → String) (nowMs : Nat) :
    Nat → Member mls → List mls.Event → Option mls.Outcome
  | 0, _, _ => none
  | rounds + 1, member, events =>
    match retry group short nowMs (member.withHeld []) member.record.held false events with
    | (member, .error error) => some (member, .error error)
    | (member, .ok (progressed, events)) =>
      if progressed then retryAll group short nowMs rounds member events
      else some (member, .ok events)

/-- Handle a message of a group, and what it lets be read.  There are never more
rounds than messages held back, and one. -/
def receive (group : GroupId) (short : UserId → String) (sender : UserId) (bytes : List UInt8)
    (nowMs : Nat) : Option mls.Outcome :=
  match member.record.state with
  | .left => some (member, .ok [])
  | .removed _ => some (member, .ok [])
  | .broken _ _ => some (member, .ok [])
  | _ =>
    match member.processOne group short sender bytes nowMs with
    | (member, .error error) => some (member, .error error)
    | (member, .ok events) =>
      retryAll group short nowMs (member.record.held.length + 1) member events

end Member

end Silver.Client.Groups
