import Silver.Foundation.Table
import Silver.Protocol.Wire

/-!
# Messages sent to several devices

A message goes to the recipient's primary and, as copies of its own, to every other device
on either side.  The task counts the relay's answers for the envelopes it has been handed
and reports the message sent when none is pending: rightly where the relay answers for an
envelope once, and only after the last one has been handed over.
-/

namespace Silver.Client.Connection.Spreading

open Foundation Protocol

/-- One envelope's place in a message sent to several devices. -/
structure Copy where
  message : String
  account : String
  device : String
  primary : Bool
deriving DecidableEq

/-- The envelopes of a message not answered for, and whether its own was refused. -/
structure FanOut where
  pending : List String
  failed : Bool
deriving DecidableEq

/-- Messages sent to several devices, until the relay has answered for every envelope. -/
structure FanOuts where
  copies : Table String Copy
  messages : Table String FanOut

/-- What settling one envelope means for its message. -/
inductive Settled where
  | alone
  | waiting
  | message (id : String)
  | failed
deriving DecidableEq

namespace FanOuts

def empty : FanOuts :=
  ⟨Table.empty, Table.empty⟩

def fanout (fanouts : FanOuts) (message : String) : FanOut :=
  (fanouts.messages.get message).getD ⟨[], false⟩

def register (fanouts : FanOuts) (id : String) (copy : Copy) : FanOuts :=
  { copies := fanouts.copies.insert id copy
    messages := fanouts.messages.insert copy.message
      { fanouts.fanout copy.message with
        pending := (fanouts.fanout copy.message).pending.insert id } }

def fail (fanouts : FanOuts) (message : String) : FanOuts :=
  match fanouts.messages.get message with
  | none => fanouts
  | some fanout =>
    { fanouts with messages := fanouts.messages.insert message { fanout with failed := true } }

/-- The relay answered for an envelope, one way or the other. -/
def done (fanouts : FanOuts) (id : String) : Settled × FanOuts :=
  match fanouts.copies.get id with
  | none => (.alone, fanouts)
  | some copy =>
    match fanouts.messages.get copy.message with
    | none => (.alone, { fanouts with copies := fanouts.copies.remove id })
    | some fanout =>
      let pending := fanout.pending.filter fun other => other ≠ id
      if pending = [] then
        (if fanout.failed then .failed else .message copy.message,
          ⟨fanouts.copies.remove id, fanouts.messages.remove copy.message⟩)
      else
        (.waiting, ⟨fanouts.copies.remove id,
            fanouts.messages.insert copy.message { fanout with pending }⟩)

end FanOuts

/-- What the front end is told. -/
inductive ClientEvent where
  | sent (id : String)
  | rejected (id reason : String)
  | deviceGone (account device : String)
  | error (text : String)
deriving DecidableEq

/-- The envelopes of a message, its own first, and how many the task has been handed. -/
structure Spread where
  envelopes : List (String × Copy)
  queued : Nat
deriving DecidableEq

namespace Spread

def ids (spread : Spread) : List String :=
  spread.envelopes.map Prod.fst

def handed (spread : Spread) : List String :=
  (spread.envelopes.take spread.queued).map Prod.fst

def fanned (spread : Spread) : Bool :=
  decide (1 < spread.envelopes.length)

def complete (spread : Spread) : Bool :=
  decide (spread.envelopes.length ≤ spread.queued)

end Spread

/-- The message to send: the recipient's account and device, and a copy's envelope,
device and account for every other device. -/
structure Message where
  id : String
  account : String
  device : String
  copies : List (String × String × String)
deriving DecidableEq

def Message.envelopes (message : Message) : List (String × Copy) :=
  (message.id, ⟨message.id, message.account, message.device, true⟩) ::
    message.copies.map fun copy => (copy.1, ⟨message.id, copy.2.2, copy.2.1, false⟩)

/-- The task's part in sending, with every message begun, whose envelope each is, and the
envelopes the relay has answered for and refused for good. -/
structure State where
  fanouts : FanOuts
  outbox : List String
  retry : Bool
  events : List ClientEvent
  spreads : Table String Spread
  owner : Table String String
  answered : List String
  refusals : List String

def start : State :=
  ⟨FanOuts.empty, [], false, [], Table.empty, Table.empty, [], []⟩

/-- What can happen: the envelopes of a message are sealed, its next one reaches the task,
a resend falls due, the relay answers for an envelope. -/
inductive Move where
  | sealed (message : Message)
  | queue (message : String)
  | retry
  | sent (id : String)
  | rejected (id : String) (code : ErrorCode) (message : String)
deriving DecidableEq

namespace State

def owners (state : State) (message : Message) : Table String String :=
  message.envelopes.foldl (fun owner envelope => owner.insert envelope.1 message.id) state.owner

def sealMessage (state : State) (message : Message) : Option State :=
  if (message.envelopes.map Prod.fst).Nodup ∧
      ∀ id ∈ message.envelopes.map Prod.fst, state.owner.get id = none then
    some { state with
      spreads := state.spreads.insert message.id ⟨message.envelopes, 0⟩
      owner := state.owners message }
  else none

def send (state : State) (id : String) (copy : Option Copy) : State :=
  { state with
    fanouts := match copy with
      | some copy => state.fanouts.register id copy
      | none => state.fanouts
    outbox := state.outbox.insert id }

/-- The next envelope of a message reaches the task. -/
def queueNext (state : State) (message : String) : Option State :=
  match state.spreads.get message with
  | none => none
  | some spread =>
    match spread.envelopes[spread.queued]? with
    | none => none
    | some (id, copy) =>
      some { state.send id (if spread.fanned then some copy else none) with
        spreads := state.spreads.insert message { spread with queued := spread.queued + 1 } }

def settle (state : State) (id : String) (report : Settled → List ClientEvent) : State :=
  let (settled, fanouts) := state.fanouts.done id
  { state with fanouts, events := state.events ++ report settled }

def tell (state : State) (event : ClientEvent) : State :=
  { state with events := state.events ++ [event] }

def answer (state : State) (id : String) : State :=
  { state with outbox := state.outbox.erase id, answered := id :: state.answered }

def reportAccepted (id : String) : Settled → List ClientEvent
  | .alone => [.sent id]
  | .message message => [.sent message]
  | .waiting | .failed => []

def reportRefused : Settled → List ClientEvent
  | .message message => [.sent message]
  | .alone | .waiting | .failed => []

def accepted (state : State) (id : String) : State :=
  (state.answer id).settle id (reportAccepted id)

def limited (state : State) : State :=
  if state.retry then state
  else { state with retry := true }.tell (.error ("the relay is rate limiting; retrying " ++
    toString state.outbox.length ++ " queued message(s) in 5s"))

def refuse (state : State) (id : String) : State :=
  { state with refusals := id :: state.refusals }

def fail (state : State) (message : String) : State :=
  { state with fanouts := state.fanouts.fail message }

def short (account : String) : String :=
  String.ofList (account.toList.take 8)

/-- The relay refused an envelope. -/
def refused (state : State) (id : String) (code : ErrorCode) (message : String) : State :=
  if code = .rateLimited then state.limited
  else
    let reason := message ++ " (" ++ code.name ++ ")"
    let refusal := state.refuse id
    match state.fanouts.copies.get id with
    | none => (refusal.answer id).tell (.rejected id reason)
    | some copy =>
      if copy.primary then
        (((refusal.fail copy.message).tell (.rejected copy.message reason)).answer id).settle id
          reportRefused
      else if code = .notFound then
        ((refusal.tell (.deviceGone copy.account copy.device)).answer id).settle id reportRefused
      else
        ((refusal.tell (.error ("a copy for a device of " ++ short copy.account ++
          "… was refused: " ++ reason))).answer id).settle id reportRefused

def submitted (state : State) (id : String) : Bool :=
  (state.owner.get id).any fun message =>
    (state.spreads.get message).any fun spread => spread.handed.contains id

def step (state : State) : Move → Option State
  | .sealed message => state.sealMessage message
  | .queue message => state.queueNext message
  | .retry => some { state with retry := false }
  | .sent id => if state.submitted id then some (state.accepted id) else none
  | .rejected id code message =>
    if state.submitted id then some (state.refused id code message) else none

end State

def State.awaits (state : State) (id : String) : Bool :=
  !state.answered.contains id &&
    (state.owner.get id).any fun message => (state.spreads.get message).any Spread.complete

def State.settlesOnce (state : State) : Move → Bool
  | .sent id => state.awaits id
  | .rejected id code _ => code = .rateLimited || state.awaits id
  | .sealed _ | .queue _ | .retry => true

end Silver.Client.Connection.Spreading
