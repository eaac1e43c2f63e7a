import Silver.Foundation.Run
import Silver.Foundation.BitWindow

/-!
# Sequence numbers of a sender

Every message carries its sender's installation epoch and its number in that epoch.  What
is remembered per sender is the highest number accepted, a window of the sixty-four below
it, and where the previous epoch ended.  The front end drops what `check` calls a replay
and notes everything else that is numbered.

Release builds check integer overflow: `none` is the panic of `last.seq + 1` at the
largest `u64`.
-/

namespace Silver.Client.Sequence

open Foundation

def u64Max : Nat := 2 ^ 64 - 1

def addU64 (left right : Nat) : Option Nat :=
  if left + right ≤ u64Max then some (left + right) else none

def WINDOW : Nat := 64

/-- The number inside a message body. -/
structure SequenceNumber where
  epoch : Nat
  seq : Nat
deriving DecidableEq

/-- What has been accepted from one sender. -/
structure Seen where
  /-- The highest number accepted in the sender's current epoch. -/
  last : SequenceNumber
  /-- Which of the messages below `last.seq` have arrived: bit `n` is
  `last.seq - 1 - n`. -/
  window : BitVec 64
  /-- Where the sender's previous epoch had got to when they moved on. -/
  previous : Option SequenceNumber
deriving DecidableEq

/-- What an incoming message's sequence number says about it. -/
inductive SequenceCheck
  | fresh
  | late
  | newEpoch
  | replay
  | gap (missing : Nat)
  | legacy
deriving DecidableEq

def SequenceCheck.accepted : SequenceCheck → Bool
  | .replay => false
  | _ => true

/-- Compare a number of the current epoch with what has been accepted. -/
def checkCurrent (seen : Seen) (seq : Nat) : Option SequenceCheck :=
  if seq = seen.last.seq then some .replay
  else (addU64 seen.last.seq 1).map fun next =>
    if seq > next then .gap (seq - seen.last.seq - 1)
    else if seq > seen.last.seq then .fresh
    else
      let behind := seen.last.seq - seq
      if behind ≤ WINDOW ∧ seen.window &&& (1#64 <<< (behind - 1)) = 0#64 then .late
      else .replay

/-- Compare `incoming` with what has been accepted from the same sender. -/
def check (seen : Option Seen) (incoming : SequenceNumber) : Option SequenceCheck :=
  if incoming.seq = 0 then some .legacy
  else
    match seen with
    | none => some .fresh
    | some seen =>
      if seen.last.epoch ≠ incoming.epoch then
        match seen.previous with
        | some previous =>
          if previous.epoch = incoming.epoch ∧ incoming.seq ≤ previous.seq then
            some .replay
          else some .newEpoch
        | none => some .newEpoch
      else checkCurrent seen incoming.seq

/-- Record a number of the current epoch. -/
def noteCurrent (state : Seen) (incoming : SequenceNumber) : Seen :=
  if incoming.seq > state.last.seq then
    let step := incoming.seq - state.last.seq
    { state with
      window :=
        if step ≥ WINDOW then 0#64
        else (state.window <<< step) ||| (1#64 <<< (step - 1))
      last := incoming }
  else
    let behind := state.last.seq - incoming.seq
    if 1 ≤ behind ∧ behind ≤ WINDOW then
      { state with window := state.window ||| (1#64 <<< (behind - 1)) }
    else state

/-- Record `incoming`, which `check` accepted. -/
def note (seen : Option Seen) (incoming : SequenceNumber) : Option Seen :=
  if incoming.seq = 0 then seen
  else
    match seen with
    | none => some { last := incoming, window := 0#64, previous := none }
    | some state =>
      if state.last.epoch ≠ incoming.epoch then
        some { last := incoming, window := 0#64, previous := some state.last }
      else some (noteCurrent state incoming)

/-- One sender's stream as the front end keeps it: the memory and the numbers
accepted so far, oldest first. -/
structure Stream where
  seen : Option Seen
  accepted : List SequenceNumber
deriving DecidableEq

def Stream.empty : Stream := { seen := none, accepted := [] }

def Stream.receive (stream : Stream) (incoming : SequenceNumber) : Option Stream :=
  (check stream.seen incoming).map fun verdict =>
    match verdict with
    | .replay => stream
    | .legacy => { stream with accepted := stream.accepted ++ [incoming] }
    | _ => { seen := note stream.seen incoming, accepted := stream.accepted ++ [incoming] }

def receiveAll (incoming : List SequenceNumber) : Option Stream :=
  run Stream.receive Stream.empty incoming

def Stream.Accepts (stream : Stream) (incoming : SequenceNumber) : Prop :=
  ∃ verdict, check stream.seen incoming = some verdict ∧ verdict.accepted = true

instance (stream : Stream) (incoming : SequenceNumber) : Decidable (stream.Accepts incoming) :=
  decidable_of_iff ((check stream.seen incoming).any SequenceCheck.accepted = true) (by
    simp [Stream.Accepts, Option.any_eq_true])

end Silver.Client.Sequence
